import Lossless.Document.Snapshot
import Lossless.Json.Printer

/-! Snapshots as JSON records. -/

namespace Lossless

namespace Snapshot

def headFields (kind : Kind) (span : Span) : List (Option String × Json) :=
  [(some "kind", .text (some kind.name)), (some "start", .number (some span.start)),
    (some "end", .number (some span.stop))]

mutual

/-- A record of kind and bytes, with the text of a token or what is inside a container. -/
def toJson : Snapshot → Json
  | token kind span text => .object (headFields kind span ++ [(some "text", .text (some text))])
  | container kind span [] => .object (headFields kind span)
  | container kind span (child :: children) =>
    .object (headFields kind span ++
      [(some "children", .array (child.toJson :: toJsonAll children))])

def toJsonAll : List Snapshot → List Json
  | [] => []
  | s :: rest => s.toJson :: toJsonAll rest

end

end Snapshot

def Document.dumpJson (doc : Document) : String :=
  (Json.array (Snapshot.toJsonAll doc.snapshots)).pretty 0

end Lossless
