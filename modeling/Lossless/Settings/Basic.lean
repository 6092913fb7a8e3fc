import Lossless.Cache
import Lossless.Error
import Lossless.Grammar.Builtin

/-! Settings: how many documents are kept and for how long, what becomes of text that no node
claims, and the indentation where a source gives no hint. -/

namespace Lossless

structure Settings where
  cache : Cache.Limits := {}
  /-- Drop the inked text that no node claims. -/
  stripHidden : Bool := false
  /-- Indentation widths, at most one for each language. -/
  widths : List (Language × Nat) := []
  useTabs : Option Bool := none
deriving DecidableEq, Repr

namespace Settings

def fault? (settings : Settings) : Option SettingsFault :=
  if settings.cache.capacity = 0 then some .noCapacity
  else (settings.widths.find? (·.2 == 0)).map fun (language, _) => .noWidth language

def validate (settings : Settings) : Except SettingsFault Settings :=
  match settings.fault? with
  | some fault => .error fault
  | none => .ok settings

/-- The grammar of a language with the indentation that the settings ask for. -/
def grammarFor (settings : Settings) (language : Language) : Grammar :=
  let grammar := language.grammar
  { grammar with
    indentWidth := (settings.widths.lookup language).getD grammar.indentWidth
    useTabs := settings.useTabs.getD grammar.useTabs }

end Settings

end Lossless
