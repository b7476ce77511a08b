import Mathlib

/-!
# Lower case

`str.lower` over a table of full case mappings: every character is replaced by
its mapping, and a capital sigma by its final form at the end of a word. The
table carries the properties of the Unicode data the results rest on.
-/
namespace Lowercase

def capitalSigma : Char := Char.ofNat 0x3A3
def smallSigma : Char := Char.ofNat 0x3C3
def finalSigma : Char := Char.ofNat 0x3C2

/-- Case mappings and the character properties the final sigma depends on. -/
structure CaseTable where
  lowerChar : Char → List Char
  cased : Char → Bool
  caseIgnorable : Char → Bool
  /-- Lower-case characters are mapped to themselves. -/
  stable : ∀ c, ∀ d ∈ lowerChar c, lowerChar d = [d]
  ascii : ∀ c, c.toNat < 0x80 → lowerChar c = [c.toLower]
  /-- No mapping introduces an ASCII character that is not a letter. -/
  letter : ∀ c, ∀ d ∈ lowerChar c, d.toNat < 0x80 → d = c ∨ d.isAlpha = true
  sigma : lowerChar capitalSigma = [smallSigma]
  final : lowerChar finalSigma = [finalSigma]

namespace CaseTable

variable (table : CaseTable)

/-- A cased character stands before, and none after, up to ignorable ones. The
characters before are listed nearest first. -/
def endsWord (before after : List Char) : Bool :=
  (before.find? (fun c => !table.caseIgnorable c)).any table.cased &&
    !(after.find? (fun c => !table.caseIgnorable c)).any table.cased

def lowerFrom : List Char → List Char → List Char
  | _, [] => []
  | before, c :: after =>
    (if c = capitalSigma then [if table.endsWord before after then finalSigma else smallSigma]
      else table.lowerChar c) ++ lowerFrom (c :: before) after

/-- `str.lower`. -/
def lower (s : List Char) : List Char := table.lowerFrom [] s

/-- Every character is its own lower case. -/
def Stable (s : List Char) : Prop := ∀ c ∈ s, table.lowerChar c = [c]

variable {table}

theorem capitalSigma_unstable : table.lowerChar capitalSigma ≠ [capitalSigma] := by
  rw [table.sigma]
  decide

theorem smallSigma_stable : table.lowerChar smallSigma = [smallSigma] :=
  table.stable capitalSigma smallSigma (by rw [table.sigma]; exact List.mem_singleton.mpr rfl)

theorem lowerFrom_of_stable (before : List Char) {s : List Char} (h : table.Stable s) :
    table.lowerFrom before s = s := by
  induction s generalizing before with
  | nil => rfl
  | cons c s ih =>
    have hc := h c (List.mem_cons_self ..)
    have hne : c ≠ capitalSigma := by
      intro he
      rw [he] at hc
      exact capitalSigma_unstable hc
    rw [lowerFrom, if_neg hne, hc, ih _ (fun d hd => h d (List.mem_cons_of_mem _ hd)), List.singleton_append]

theorem lower_of_stable {s : List Char} (h : table.Stable s) : table.lower s = s := lowerFrom_of_stable [] h

theorem lowerFrom_stable (before s : List Char) : table.Stable (table.lowerFrom before s) := by
  induction s generalizing before with
  | nil => intro c hc; cases hc
  | cons c s ih =>
    intro d hd
    rw [lowerFrom, List.mem_append] at hd
    cases hd with
    | inr hd => exact ih _ d hd
    | inl hd =>
      split at hd
      · obtain rfl := List.mem_singleton.mp hd
        split
        · exact table.final
        · exact smallSigma_stable
      · exact table.stable c d hd

theorem lower_stable (s : List Char) : table.Stable (table.lower s) := lowerFrom_stable [] s

/-- `str.lower` is idempotent. -/
theorem lower_lower (s : List Char) : table.lower (table.lower s) = table.lower s := lower_of_stable (lower_stable s)

theorem Stable.of_subset {s t : List Char} (h : table.Stable s) (ht : t ⊆ s) : table.Stable t :=
  fun c hc => h c (ht hc)

/-- Delimiters of the result stood in the source. -/
theorem mem_of_mem_lower {s : List Char} {c : Char} (h : c ∈ table.lower s) (hc : c.toNat < 0x80)
    (ha : c.isAlpha = false) : c ∈ s := by
  have hfrom : ∀ before, c ∈ table.lowerFrom before s → c ∈ s := by
    intro before hmem
    clear h
    induction s generalizing before with
    | nil => cases hmem
    | cons d s ih =>
      rw [lowerFrom, List.mem_append] at hmem
      cases hmem with
      | inr hmem => exact List.mem_cons_of_mem _ (ih _ hmem)
      | inl hmem =>
        split at hmem
        · obtain rfl := List.mem_singleton.mp hmem
          split at hc
          · exact absurd hc (by decide)
          · exact absurd hc (by decide)
        · cases table.letter d c hmem hc with
          | inl he => rw [he]; exact List.mem_cons_self ..
          | inr hl => rw [ha] at hl; cases hl
  exact hfrom [] h

theorem stable_of_ascii {s : List Char} (h : ∀ c ∈ s, c.toNat < 0x80 ∧ c.toLower = c) : table.Stable s := by
  intro c hc
  rw [table.ascii c (h c hc).1, (h c hc).2]

end CaseTable

/-- Lower case for texts whose only letters are ASCII ones and sigmas. -/
def asciiTable : CaseTable where
  lowerChar c := if c = capitalSigma then [smallSigma] else [c.toLower]
  cased c := c.isAlpha
  caseIgnorable c := c = '.' || c = ':'
  stable := by
    intro c d hd
    split at hd
    · obtain rfl := List.mem_singleton.mp hd
      decide
    · rename_i hc
      obtain rfl := List.mem_singleton.mp hd
      have hne : c.toLower ≠ capitalSigma := by
        intro he
        by_cases hu : c.isUpper
        · have hl := Char.isLower_toLower_eq_isAlpha c
          rw [he, Char.isAlpha, hu, Bool.true_or] at hl
          exact absurd hl (by decide)
        · rw [Char.toLower_eq_of_not_isUpper hu] at he
          exact hc he
      rw [if_neg hne, Char.toLower_toLower_eq_toLower]
  ascii := by
    intro c hc
    have hne : c ≠ capitalSigma := by
      intro he
      subst he
      exact absurd hc (by decide)
    rw [if_neg hne]
  letter := by
    intro c d hd h
    split at hd
    · obtain rfl := List.mem_singleton.mp hd
      exact absurd h (by decide : ¬ smallSigma.toNat < 0x80)
    · obtain rfl := List.mem_singleton.mp hd
      by_cases hu : c.isUpper
      · right
        rw [Char.isAlpha_toLower_eq_isAlpha, Char.isAlpha, hu, Bool.true_or]
      · exact .inl (Char.toLower_eq_of_not_isUpper hu)
  sigma := by decide
  final := by decide

end Lowercase
