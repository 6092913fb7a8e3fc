import Lossless.Converter
import Lossless.Settings.Basic

/-! Documents of sources, parsed by outside parsers and kept in a cache. -/

namespace Lossless

/-- An outside parser of one language. -/
abbrev Frontend := String → Except Error ParseTree

structure Factory where
  settings : Settings
  frontends : List (Language × Frontend) := []
  cache : Cache

namespace Factory

def ofSettings (settings : Settings) : Factory :=
  { settings, cache := { limits := settings.cache } }

/-- The last parser registered for a language counts. -/
def register (factory : Factory) (language : Language) (frontend : Frontend) : Factory :=
  { factory with frontends := (language, frontend) :: factory.frontends }

def grammar (factory : Factory) (language : Language) : Grammar :=
  factory.settings.grammarFor language

def converter (factory : Factory) (language : Language) : Converter :=
  { grammar := factory.grammar language, stripHidden := factory.settings.stripHidden }

def build (factory : Factory) (source : String) (language : Language) : Except Error Document :=
  match factory.frontends.lookup language with
  | none => .error (.missingFrontend language)
  | some frontend => frontend source >>= (factory.converter language).convert source

/-- The entry of a source, from the cache or built and kept. -/
def parseShared (factory : Factory) (now : Nat) (source : String) (language : Language) :
    Except Error Cache.Entry × Factory :=
  let key : Cache.Key := { source, language }
  match factory.cache.get? now key with
  | (some entry, cache) => (.ok entry, { factory with cache })
  | (none, cache) =>
    match factory.build source language with
    | .ok doc =>
      (.ok (cache.nextEntry now key doc), { factory with cache := cache.insert now key doc })
    | .error e => (.error e, { factory with cache })

/-- Whether the next parse of a source goes to its outside parser. -/
def asksFrontend (factory : Factory) (now : Nat) (source : String) (language : Language) : Bool :=
  (factory.cache.get? now { source, language }).1.isNone &&
    (factory.frontends.lookup language).isSome

/-- A document of a source that can be edited on its own. -/
def parse (factory : Factory) (now : Nat) (source : String) (language : Language) :
    Except Error Document × Factory :=
  let (entry, factory) := factory.parseShared now source language
  (entry.map (·.doc), factory)

end Factory

end Lossless
