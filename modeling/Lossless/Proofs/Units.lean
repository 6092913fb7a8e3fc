import Lossless.Indent
import Mathlib.Tactic.Common

/-! The indentation unit of a source. It is read off the lines that count, in any order; comments and
lines without ink count only where a tab opens them or stands before a comment mark. -/

namespace Lossless.Indent

open List Text

def isIndentChar (c : Char) : Bool :=
  c == ' ' || c == '\t'

/-- The line is a comment once its spaces and tabs are gone. -/
def isComment (line : List Char) : Bool :=
  let content := line.dropWhile isIndentChar
  "#".toList.isPrefixOf content || "//".toList.isPrefixOf content

def isIgnorable (line : List Char) : Bool :=
  isComment line || line.all Text.isBlankChar

/-- A tab opens the line, or it stands before a comment mark. -/
def isMisread (line : List Char) : Bool :=
  startsWithTab line || (isComment line && (line.takeWhile isIndentChar).contains '\t')

/-- A line that says nothing about the unit. -/
def isIdle (line : List Char) : Bool :=
  isIgnorable line && !isMisread line

variable {line : List Char}

theorem all_dropWhile_space (line : List Char) :
    (line.dropWhile (· == ' ')).all isBlankChar = line.all isBlankChar := by
  induction line with
  | nil => rfl
  | cons c cs ih =>
    rw [dropWhile_cons]
    split
    · next hc =>
      rw [ih, all_cons, eq_of_beq hc]
      rfl
    · rfl

theorem dropWhile_space (h : (line.takeWhile isIndentChar).contains '\t' = false) :
    line.dropWhile (· == ' ') = line.dropWhile isIndentChar := by
  induction line with
  | nil => rfl
  | cons c cs ih =>
    rw [dropWhile_cons, dropWhile_cons]
    rw [takeWhile_cons] at h
    cases hc : isIndentChar c with
    | false =>
      have hspace : (c == ' ') = false := (Bool.or_eq_false_iff.1 hc).1
      rw [hspace]
      rfl
    | true =>
      rw [hc, if_pos rfl, contains_cons, Bool.or_eq_false_iff] at h
      have hspace : (c == ' ') = true := by
        rcases Bool.or_eq_true_iff.1 hc with hc | hc
        · exact hc
        · rw [eq_of_beq hc] at h
          cases h.1
      rw [hspace, if_pos rfl, if_pos rfl]
      exact ih h.2

theorem isSilent_of_isIdle (h : isIdle line = true) : isSilent line = true := by
  obtain ⟨hignorable, hread⟩ := Bool.and_eq_true_iff.1 h
  have hblank := all_dropWhile_space line
  rw [isMisread, Bool.not_eq_true', Bool.or_eq_false_iff] at hread
  rw [isSilent, hblank]
  rcases Bool.or_eq_true_iff.1 hignorable with hcomment | hblank
  · rw [hcomment, Bool.true_and] at hread
    rw [dropWhile_space hread.2, ← isComment, hcomment]
    rfl
  · rw [hblank, Bool.or_true]

theorem not_startsWithTab_of_isIdle (h : isIdle line = true) : startsWithTab line = false := by
  obtain ⟨-, hread⟩ := Bool.and_eq_true_iff.1 h
  rw [Bool.not_eq_true', isMisread, Bool.or_eq_false_iff] at hread
  exact hread.1

/-! ### The lines that count -/

theorem filter_filter_of_imp {α : Type} {p q : α → Bool} (h : ∀ a, p a = true → q a = true)
    (xs : List α) : (xs.filter q).filter p = xs.filter p := by
  rw [filter_filter]
  refine filter_congr fun a _ => ?_
  cases hp : p a with
  | false => rfl
  | true => exact h a hp

theorem widths_perm {ls ls' : List (List Char)}
    (h : (ls.filter (!isIdle ·)).Perm (ls'.filter (!isIdle ·))) : (widths ls).Perm (widths ls') := by
  have hcounts : ∀ l, (!isSilent l) = true → (!isIdle l) = true := by
    intro l hl
    cases hidle : isIdle l with
    | false => rfl
    | true => rwa [isSilent_of_isIdle hidle] at hl
  unfold widths
  rw [← filter_filter_of_imp hcounts ls, ← filter_filter_of_imp hcounts ls']
  exact ((h.filter _).map _).filter _

theorem any_startsWithTab (ls : List (List Char)) :
    ls.any startsWithTab = (ls.filter (!isIdle ·)).any startsWithTab := by
  rw [any_filter]
  refine congrArg ls.any (funext fun l => ?_)
  cases hidle : isIdle l with
  | false => rfl
  | true => rw [not_startsWithTab_of_isIdle hidle, Bool.and_false]

theorem min?_eq_of_perm {ns ns' : List Nat} (h : ns.Perm ns') : ns.min? = ns'.min? := by
  cases hm : ns.min? with
  | none =>
    rw [min?_eq_none_iff.1 hm] at h
    rw [← h.nil_eq, min?_nil]
  | some m =>
    obtain ⟨hmem, hle⟩ := min?_eq_some_iff.1 hm
    exact (min?_eq_some_iff.2 ⟨h.subset hmem, fun n hn => hle n (h.symm.subset hn)⟩).symm

/-! ### A line alone -/

theorem lines_of_not_mem (h : '\n' ∉ line) : lines line = [line] := by
  induction line with
  | nil => rfl
  | cons c cs ih =>
    rw [mem_cons, not_or] at h
    rw [lines, if_neg (Ne.symm h.1), ih h.2]

theorem exists_tab (h : (line.takeWhile isIndentChar).contains '\t' = true) :
    ∃ k rest, line = replicate k ' ' ++ '\t' :: rest := by
  induction line with
  | nil => cases h
  | cons c cs ih =>
    rw [takeWhile_cons] at h
    split at h
    · next hc =>
      rcases Bool.or_eq_true_iff.1 hc with hc | hc
      · obtain rfl := eq_of_beq hc
        obtain ⟨k, rest, rfl⟩ := ih h
        exact ⟨k + 1, rest, rfl⟩
      · obtain rfl := eq_of_beq hc
        exact ⟨0, cs, rfl⟩
    · cases h

theorem not_blank_of_isComment (h : isComment line = true) : line.all isBlankChar = false := by
  rw [Bool.eq_false_iff]
  intro hblank
  have hcontent : ∀ c ∈ line.dropWhile isIndentChar, isBlankChar c = true := fun c hc =>
    all_eq_true.1 hblank c ((dropWhile_sublist _).subset hc)
  rcases Bool.or_eq_true_iff.1 h with h | h
  · exact absurd (hcontent '#' ((List.isPrefixOf_iff_prefix.1 h).subset (by simp))) (by decide)
  · exact absurd (hcontent '/' ((List.isPrefixOf_iff_prefix.1 h).subset (by simp))) (by decide)

theorem widths_of_comment (h : isComment line = true)
    (htab : (line.takeWhile isIndentChar).contains '\t' = true)
    (hfirst : startsWithTab line = false) : ∃ k, widths [line] = [k + 1] := by
  have hink := not_blank_of_isComment h
  rw [← all_dropWhile_space] at hink
  obtain ⟨k, rest, rfl⟩ := exists_tab htab
  obtain ⟨k, rfl⟩ : ∃ m, k = m + 1 := by
    refine Nat.exists_eq_succ_of_ne_zero fun hk => ?_
    rw [hk] at hfirst
    cases hfirst
  have hspaces : ∀ c ∈ replicate (k + 1) ' ', (c == ' ') = true := by simp
  have hcontent : (replicate (k + 1) ' ' ++ '\t' :: rest).dropWhile (· == ' ') =
      '\t' :: rest := by
    rw [dropWhile_append_of_pos hspaces]
    rfl
  have hwidth : width (replicate (k + 1) ' ' ++ '\t' :: rest) = k + 1 := by
    rw [width, takeWhile_append_of_pos hspaces]
    simp
  have hcounts : isSilent (replicate (k + 1) ' ' ++ '\t' :: rest) = false := by
    rw [isSilent, hink, hcontent]
    rfl
  exact ⟨k, by simp [widths, hcounts, hwidth]⟩

theorem unitOf_of_isMisread (hline : '\n' ∉ line) (h : isMisread line = true) :
    unitOf (String.ofList line) "" ≠ "" := by
  have hlines : lines (String.ofList line).toList = [line] := by
    rw [String.toList_ofList, lines_of_not_mem hline]
  unfold unitOf
  rw [hlines]
  cases hfirst : startsWithTab line with
  | true => simp [hfirst]
  | false =>
    rw [isMisread, hfirst, Bool.false_or, Bool.and_eq_true_iff] at h
    obtain ⟨k, hk⟩ := widths_of_comment h.1 h.2 hfirst
    simp [hk, hfirst, replicate_succ]

/-- Sources have the same unit if they have the same lines in any order, but for comments and lines
without ink. Such a line counts only where a tab opens it or stands before its comment mark; alone
it then has a unit of its own. -/
theorem unitOf_eq_of_perm (source source' fallback : String) :
    (((Text.lines source.toList).filter (!isIdle ·)).Perm
        ((Text.lines source'.toList).filter (!isIdle ·)) →
      unitOf source fallback = unitOf source' fallback) ∧
    ∀ line : List Char, '\n' ∉ line → isIgnorable line = true → isIdle line = false →
      unitOf (String.ofList line) "" ≠ unitOf "" "" := by
  refine ⟨fun h => ?_, fun line hline hignorable hread => ?_⟩
  · have hwidths := widths_perm h
    have htab : (Text.lines source.toList).any startsWithTab =
        (Text.lines source'.toList).any startsWithTab := by
      rw [any_startsWithTab, any_startsWithTab (Text.lines source'.toList)]
      exact h.any_eq
    unfold unitOf
    dsimp only
    rw [htab, min?_eq_of_perm hwidths, hwidths.length_eq]
    simp only [hwidths.count_eq]
  · rw [isIdle, hignorable, Bool.true_and, Bool.not_eq_false'] at hread
    exact unitOf_of_isMisread hline hread

/-- Lines in another order, with a comment and a line without ink; then a comment behind a tab. -/
theorem unitOf_eq_of_perm_comments :
    unitOf "a\n  b\n    c\n" "    " = unitOf "    c\n  # d\n \t\n  b\na" "    " ∧
      unitOf "a\n    b\n" "" = "    " ∧ unitOf "a\n\t# d\n    b\n" "" = "\t" ∧
      unitOf "\t# d" "" ≠ unitOf "" "" :=
  ⟨(unitOf_eq_of_perm _ _ _).1 (by decide +kernel), by decide +kernel, by decide +kernel,
    (unitOf_eq_of_perm "" "" "").2 "\t# d".toList (by decide) (by decide) (by decide)⟩

end Lossless.Indent
