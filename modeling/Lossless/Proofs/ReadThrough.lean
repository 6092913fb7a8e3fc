import Lossless.Factory
import Lossless.Proofs.Recency

/-! A factory answers as if it kept nothing. Each entry of its cache is what its outside parser and
converter give for the key, so it makes no difference whether a document comes from the cache, and
what becomes of the documents that were given out does not matter either. -/

namespace Lossless

open List

namespace Factory

/-- A factory with the given parsers, registered one after the other, and an empty cache. -/
def ofRegistered (settings : Settings) (registered : List (Language × Frontend)) : Factory :=
  registered.foldl (fun factory (language, frontend) => factory.register language frontend)
    (ofSettings settings)

/-- The document of a source without a cache: the parse tree of the parser that was registered last
for the language, converted by the grammar that the settings give the language. -/
def fresh (settings : Settings) (registered : List (Language × Frontend)) (source : String)
    (language : Language) : Except Error Document :=
  match registered.reverse.lookup language with
  | none => .error (.missingFrontend language)
  | some frontend => do
    let tree ← frontend source
    let converter : Converter :=
      { grammar := settings.grammarFor language, stripHidden := settings.stripHidden }
    converter.convert source tree

/-- A call on a factory, or a change of one of the documents that it gave out for editing. -/
inductive Ask where
  | parse (now : Nat) (source : String) (language : Language)
  | parseShared (now : Nat) (source : String) (language : Language)
  | edit (index : Nat) (change : Document → Document)

def Ask.fresh (settings : Settings) (registered : List (Language × Frontend)) :
    Ask → Option (Except Error Document)
  | parse _ source language | parseShared _ source language =>
    some (Factory.fresh settings registered source language)
  | edit _ _ => none

structure Session where
  factory : Factory
  given : List Document := []

namespace Session

def ask (s : Session) : Ask → Option (Except Error Document) × Session
  | .parse now source language =>
    let (answer, factory) := s.factory.parse now source language
    (some answer, { factory, given := s.given ++ answer.toOption.toList })
  | .parseShared now source language =>
    let (answer, factory) := s.factory.parseShared now source language
    (some (answer.map (·.doc)), { s with factory })
  | .edit index change => (none, { s with given := s.given.modify index change })

def answers (s : Session) : List Ask → List (Except Error Document)
  | [] => []
  | ask :: asks => (s.ask ask).1.toList ++ (s.ask ask).2.answers asks

end Session

/-! ### Entries -/

def Faithful (factory : Factory) : Prop :=
  ∀ e ∈ factory.cache.entries, factory.build e.key.source e.key.language = .ok e.doc

variable {settings : Settings} {registered : List (Language × Frontend)} {factory : Factory}
  {now : Nat} {source : String} {language l : Language}

theorem ofRegistered_eq (settings : Settings) (registered : List (Language × Frontend)) :
    ofRegistered settings registered =
      { ofSettings settings with frontends := registered.reverse } := by
  have hfold : ∀ factory : Factory, registered.foldl
      (fun factory (language, frontend) => factory.register language frontend) factory =
        { factory with frontends := registered.reverse ++ factory.frontends } := by
    induction registered with
    | nil => exact fun _ => rfl
    | cons entry registered ih =>
      intro factory
      rw [foldl_cons, ih, reverse_cons, append_assoc]
      rfl
  rw [ofRegistered, hfold]
  simp [ofSettings]

theorem build_eq (h : factory.settings = settings) (hf : factory.frontends = registered.reverse)
    (source : String) (language : Language) :
    factory.build source language = fresh settings registered source language := by
  have hconverter : factory.converter language =
      { grammar := settings.grammarFor language, stripHidden := settings.stripHidden } := by
    rw [converter, grammar, h]
  unfold build fresh
  cases hfrontend : registered.reverse.lookup language with
  | none => simp only [hf, hfrontend]
  | some frontend => simp only [hf, hfrontend, hconverter]

theorem mem_of_get?_some {cache : Cache} {key : Cache.Key} {e : Cache.Entry}
    (h : (cache.get? now key).1 = some e) : e ∈ cache.entries ∧ e.key = key := by
  unfold Cache.get? at h
  split at h
  · cases h
  · next entry hfind =>
    split at h <;> cases h
    exact ⟨mem_of_find?_eq_some hfind, by simpa using find?_some hfind⟩

theorem entries_get?_subset (cache : Cache) (now : Nat) (key : Cache.Key) :
    (cache.get? now key).2.entries ⊆ cache.entries := by
  unfold Cache.get?
  split
  · exact List.Subset.refl _
  · split
    · exact filter_sublist.subset
    · exact List.Subset.refl _

/-- One call: the answer is the fresh one, and the entries stay what they should be. -/
theorem Faithful.parseShared (h : factory.Faithful) (now : Nat) (source : String)
    (language : Language) :
    (factory.parseShared now source language).1.map (·.doc) = factory.build source language ∧
      (factory.parseShared now source language).2.Faithful ∧
      (factory.parseShared now source language).2.settings = factory.settings ∧
      (factory.parseShared now source language).2.frontends = factory.frontends := by
  have hkept := entries_get?_subset factory.cache now { source, language }
  unfold Factory.parseShared
  dsimp only
  split
  · next entry cache hget =>
    have hentry : (factory.cache.get? now { source, language }).1 = some entry := by rw [hget]
    obtain ⟨hmem, hkey⟩ := mem_of_get?_some hentry
    rw [hget] at hkept
    refine ⟨?_, fun e he => h e (hkept he), rfl, rfl⟩
    have hbuild := h entry hmem
    rw [hkey] at hbuild
    exact hbuild.symm
  · next cache hget =>
    rw [hget] at hkept
    cases hbuild : factory.build source language with
    | error e => exact ⟨rfl, fun e he => h e (hkept he), rfl, rfl⟩
    | ok doc =>
      refine ⟨rfl, fun e he => ?_, rfl, rfl⟩
      rcases Cache.mem_entries_insert he with he | rfl
      · exact h e (hkept he)
      · exact hbuild

/-! ### Sessions -/

/-- A run of calls, by induction on the calls: each step keeps the settings, the parsers and the
entries as they should be. -/
theorem Session.answers_eq (s : Session) (h : s.factory.Faithful)
    (hsettings : s.factory.settings = settings)
    (hfrontends : s.factory.frontends = registered.reverse) (asks : List Ask) :
    s.answers asks = asks.filterMap (Ask.fresh settings registered) := by
  induction asks generalizing s with
  | nil => rfl
  | cons ask asks ih =>
    have hshared : ∀ now source language,
        (s.factory.parseShared now source language).1.map (·.doc) =
            fresh settings registered source language ∧
          ∀ given, (Session.mk (s.factory.parseShared now source language).2 given).answers asks =
            asks.filterMap (Ask.fresh settings registered) := by
      intro now source language
      obtain ⟨hanswer, hfaithful, hs, hf⟩ := h.parseShared now source language
      exact ⟨hanswer.trans (build_eq hsettings hfrontends ..),
        fun given => ih ⟨_, given⟩ hfaithful (hs.trans hsettings) (hf.trans hfrontends)⟩
    cases ask with
    | parse now source language =>
      obtain ⟨hanswer, hrest⟩ := hshared now source language
      simp only [answers, ask, Factory.parse, hanswer, hrest, filterMap_cons, Ask.fresh]
      rfl
    | parseShared now source language =>
      obtain ⟨hanswer, hrest⟩ := hshared now source language
      simp only [answers, ask, hanswer, hrest, filterMap_cons, Ask.fresh]
      rfl
    | edit index change => exact ih ⟨s.factory, _⟩ h hsettings hfrontends

/-! ### Errors -/

theorem bind_eq_error {α β : Type} {x : Except Error α} {f : α → Except Error β} {e : Error}
    (h : x >>= f = .error e) : x = .error e ∨ ∃ a, f a = .error e := by
  cases x with
  | error e' => exact Or.inl (Except.error.inj h ▸ rfl)
  | ok a => exact Or.inr ⟨a, h⟩

theorem exists_fault_of_finish {b : Builder} {e : Error} (h : b.finish = .error e) :
    ∃ fault, e = .build fault := by
  unfold Builder.finish at h
  split at h <;> cases h <;> exact ⟨_, rfl⟩

theorem exists_fault_of_convert {converter : Converter} {tree : ParseTree} {e : Error}
    (h : converter.convert source tree = .error e) :
    (∃ fault, e = .conversion fault) ∨ ∃ fault, e = .build fault := by
  unfold Converter.convert at h
  split at h
  · cases h
    exact Or.inl ⟨_, rfl⟩
  · refine Or.inr ?_
    obtain hfinish | ⟨doc, hdoc⟩ := bind_eq_error h
    · exact exists_fault_of_finish hfinish
    · cases hdoc

/-- A parser is missing when none was registered for the language, or when the registered one says
so itself. -/
theorem fresh_eq_missingFrontend :
    fresh settings registered source language = .error (.missingFrontend l) ↔
      (l = language ∧ ∀ p ∈ registered, p.1 ≠ language) ∨
      ∃ frontend, registered.reverse.lookup language = some frontend ∧
        frontend source = .error (.missingFrontend l) := by
  unfold fresh
  cases hlookup : registered.reverse.lookup language with
  | none =>
    rw [lookup_eq_none_iff] at hlookup
    have hnone : ∀ p ∈ registered, p.1 ≠ language := fun p hp heq => by
      simpa [heq] using hlookup p (mem_reverse.2 hp)
    constructor
    · intro h
      cases h
      exact Or.inl ⟨rfl, hnone⟩
    · rintro (⟨rfl, -⟩ | ⟨frontend, hsome, -⟩)
      · rfl
      · cases hsome
  | some frontend =>
    constructor
    · intro h
      obtain hparse | ⟨tree, hconvert⟩ := bind_eq_error h
      · exact Or.inr ⟨frontend, rfl, hparse⟩
      · rcases exists_fault_of_convert hconvert with ⟨fault, he⟩ | ⟨fault, he⟩ <;> cases he
    · rintro (⟨-, hnone⟩ | ⟨_, hsome, hparse⟩)
      · have hnone' : registered.reverse.lookup language = none :=
          lookup_eq_none_iff.2 fun p hp =>
            bne_iff_ne.2 (hnone p (mem_reverse.1 hp)).symm
        rw [hlookup] at hnone'
        cases hnone'
      · cases hsome
        dsimp only
        rw [hparse]
        rfl

/-- Whatever was asked before and whatever became of the documents that were given out, every call
on a factory answers what it would answer without a cache. -/
theorem answers_eq_fresh (settings : Settings) (registered : List (Language × Frontend))
    (asks : List Ask) :
    ({ factory := ofRegistered settings registered } : Session).answers asks =
      asks.filterMap (Ask.fresh settings registered) ∧
    ∀ source language l, fresh settings registered source language = .error (.missingFrontend l) ↔
      (l = language ∧ ∀ p ∈ registered, p.1 ≠ language) ∨
      ∃ frontend, registered.reverse.lookup language = some frontend ∧
        frontend source = .error (.missingFrontend l) := by
  refine ⟨Session.answers_eq _ ?_ ?_ ?_ asks, fun source language l => fresh_eq_missingFrontend⟩ <;>
    rw [ofRegistered_eq]
  · exact fun e he => absurd he List.not_mem_nil
  · rfl

end Factory

end Lossless
