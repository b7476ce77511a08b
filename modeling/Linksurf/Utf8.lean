import Mathlib.Tactic.Common

/-!
# UTF-8 with replacement

Encoding of characters and decoding of arbitrary octets, where every maximal
part of an ill-formed sequence becomes one replacement character. Octets are
natural numbers. The decoder is a machine that takes one octet at a time, so
decoding a concatenation is a matter of the state between the parts.
-/
namespace Utf8

def replacement : Char := Char.ofNat 0xFFFD

def encodeChar (c : Char) : List Nat :=
  let v := c.toNat
  if v < 0x80 then [v]
  else if v < 0x800 then [0xC0 + v / 64, 0x80 + v % 64]
  else if v < 0x10000 then [0xE0 + v / 4096, 0x80 + v / 64 % 64, 0x80 + v % 64]
  else [0xF0 + v / 262144, 0x80 + v / 4096 % 64, 0x80 + v / 64 % 64, 0x80 + v % 64]

def encode (s : List Char) : List Nat := s.flatMap encodeChar

/-- Between characters, or inside one: a tail within a range is due, then
`more` further ones. -/
inductive State where
  | idle
  | owed (more low high acc : Nat)
  deriving DecidableEq, Repr

/-- The least and the greatest octet after a first octet. -/
def low (b : Nat) : Nat := if b = 0xE0 then 0xA0 else if b = 0xF0 then 0x90 else 0x80
def high (b : Nat) : Nat := if b = 0xED then 0x9F else if b = 0xF4 then 0x8F else 0xBF

/-- An octet between characters. -/
def start (b : Nat) : List Char × State :=
  if b < 0x80 then ([Char.ofNat b], .idle)
  else if b < 0xC2 then ([replacement], .idle)
  else if b < 0xE0 then ([], .owed 0 (low b) (high b) (b - 0xC0))
  else if b < 0xF0 then ([], .owed 1 (low b) (high b) (b - 0xE0))
  else if b < 0xF5 then ([], .owed 2 (low b) (high b) (b - 0xF0))
  else ([replacement], .idle)

/-- A tail, and in the range it is due in. -/
def Fits (low high b : Nat) : Prop := (0x80 ≤ b ∧ b < 0xC0) ∧ low ≤ b ∧ b ≤ high

instance (low high b : Nat) : Decidable (Fits low high b) :=
  inferInstanceAs (Decidable ((0x80 ≤ b ∧ b < 0xC0) ∧ low ≤ b ∧ b ≤ high))

/-- One octet. Inside a character, an octet that does not fit ends it with a
replacement and is looked at again. -/
def step : State → Nat → List Char × State
  | .idle, b => start b
  | .owed more low high acc, b =>
    if Fits low high b then
      match more with
      | 0 => ([Char.ofNat (acc * 64 + (b - 0x80))], .idle)
      | more + 1 => ([], .owed more 0x80 0xBF (acc * 64 + (b - 0x80)))
    else (replacement :: (start b).1, (start b).2)

/-- What is left to write at the end. -/
def State.flush : State → List Char
  | .idle => []
  | .owed _ _ _ _ => [replacement]

def feed : State → List Nat → List Char × State
  | st, [] => ([], st)
  | st, b :: bs => ((step st b).1 ++ (feed (step st b).2 bs).1, (feed (step st b).2 bs).2)

/-- `bytes.decode("utf-8", errors="replace")`. -/
def decode (bs : List Nat) : List Char := (feed .idle bs).1 ++ (feed .idle bs).2.flush

@[simp] theorem feed_nil (st : State) : feed st [] = ([], st) := rfl
@[simp] theorem decode_nil : decode [] = [] := rfl
@[simp] theorem encode_nil : encode [] = [] := rfl
@[simp] theorem encode_cons (c : Char) (s : List Char) : encode (c :: s) = encodeChar c ++ encode s := rfl

theorem feed_append (st : State) (xs ys : List Nat) :
    feed st (xs ++ ys) = ((feed st xs).1 ++ (feed (feed st xs).2 ys).1, (feed (feed st xs).2 ys).2) := by
  induction xs generalizing st with
  | nil => simp
  | cons b xs ih => simp [feed, ih]

/-- An octet that is no tail ends whatever is open and starts anew. -/
theorem step_of_not_tail (st : State) {b : Nat} (h : b < 0x80 ∨ 0xC0 ≤ b) :
    step st b = (st.flush ++ (start b).1, (start b).2) := by
  cases st with
  | idle => simp [step, State.flush]
  | owed more low high acc =>
    have hfit : ¬ Fits low high b := by unfold Fits; omega
    simp [step, hfit, State.flush]

theorem ofNat_toNat {c : Char} {v : Nat} (h : v = c.toNat) : Char.ofNat v = c := by
  rw [h, Char.ofNat_toNat]

theorem start_ascii {b : Nat} (h : b < 0x80) : start b = ([Char.ofNat b], .idle) := by simp [start, h]

/-- The first octet of a character of two, three or four. -/
theorem start_two {x : Nat} (h₁ : 2 ≤ x) (h₂ : x < 32) : start (0xC0 + x) = ([], .owed 0 0x80 0xBF x) := by
  have hl : low (0xC0 + x) = 0x80 := by unfold low; split <;> [omega; split <;> omega]
  have hh : high (0xC0 + x) = 0xBF := by unfold high; split <;> [omega; split <;> omega]
  unfold start
  rw [if_neg (by omega), if_neg (by omega), if_pos (by omega), hl, hh, Nat.add_sub_cancel_left]

theorem start_three {x : Nat} (h : x < 16) :
    start (0xE0 + x) = ([], .owed 1 (low (0xE0 + x)) (high (0xE0 + x)) x) := by
  unfold start
  rw [if_neg (by omega), if_neg (by omega), if_neg (by omega), if_pos (by omega), Nat.add_sub_cancel_left]

theorem start_four {x : Nat} (h : x < 5) :
    start (0xF0 + x) = ([], .owed 2 (low (0xF0 + x)) (high (0xF0 + x)) x) := by
  unfold start
  rw [if_neg (by omega), if_neg (by omega), if_neg (by omega), if_neg (by omega), if_pos (by omega),
    Nat.add_sub_cancel_left]

theorem step_last {low high acc x : Nat} (h : Fits low high (0x80 + x)) :
    step (.owed 0 low high acc) (0x80 + x) = ([Char.ofNat (acc * 64 + x)], .idle) := by
  simp [step, h]

theorem step_more {more low high acc x : Nat} (h : Fits low high (0x80 + x)) :
    step (.owed (more + 1) low high acc) (0x80 + x) = ([], .owed more 0x80 0xBF (acc * 64 + x)) := by
  simp [step, h]

theorem fits_tail {x : Nat} (h : x < 64) : Fits 0x80 0xBF (0x80 + x) := by unfold Fits; omega

/-- The second octet of a character of three, which is no surrogate. -/
theorem fits_three {v : Nat} (h₁ : 0x800 ≤ v) (h₂ : v < 0x10000) (h₃ : v < 0xD800 ∨ 0xDFFF < v) :
    Fits (low (0xE0 + v / 4096)) (high (0xE0 + v / 4096)) (0x80 + v / 64 % 64) := by
  have hl : low (0xE0 + v / 4096) ≤ 0x80 + v / 64 % 64 := by
    unfold low
    split <;> [omega; split <;> omega]
  have hh : 0x80 + v / 64 % 64 ≤ high (0xE0 + v / 4096) := by
    unfold high
    split <;> [omega; split <;> omega]
  unfold Fits
  omega

/-- The second octet of a character of four. -/
theorem fits_four {v : Nat} (h₁ : 0x10000 ≤ v) (h₂ : v < 0x110000) :
    Fits (low (0xF0 + v / 262144)) (high (0xF0 + v / 262144)) (0x80 + v / 4096 % 64) := by
  have hl : low (0xF0 + v / 262144) ≤ 0x80 + v / 4096 % 64 := by
    unfold low
    split <;> [omega; split <;> omega]
  have hh : 0x80 + v / 4096 % 64 ≤ high (0xF0 + v / 262144) := by
    unfold high
    split <;> [omega; split <;> omega]
  unfold Fits
  omega

theorem feed_cons_of_not_tail (st : State) {b : Nat} (h : b < 0x80 ∨ 0xC0 ≤ b) (bs : List Nat) :
    feed st (b :: bs) = (st.flush ++ (start b).1 ++ (feed (start b).2 bs).1, (feed (start b).2 bs).2) := by
  rw [feed, step_of_not_tail st h]

theorem char_valid (c : Char) : (c.toNat < 0xD800 ∨ 0xDFFF < c.toNat) ∧ c.toNat < 0x110000 := by
  have h : c.toNat < 0xD800 ∨ (0xDFFF < c.toNat ∧ c.toNat < 0x110000) := c.valid
  omega

/-- From any state, a character's octets write what was open as a replacement
and then the character. -/
theorem feed_encodeChar (st : State) (c : Char) : feed st (encodeChar c) = (st.flush ++ [c], .idle) := by
  obtain ⟨hsurrogate, hmax⟩ := char_valid c
  generalize hv : c.toNat = v at hsurrogate hmax
  have hchar {n : Nat} (h : n = v) : Char.ofNat n = c := ofNat_toNat (h.trans hv.symm)
  unfold encodeChar
  simp only [hv]
  split
  · rename_i h₁
    rw [feed_cons_of_not_tail st (.inl h₁), start_ascii h₁, feed_nil, hchar rfl, List.append_nil]
  split
  · rename_i h₁ h₂
    have hc : Char.ofNat (v / 64 * 64 + v % 64) = c := hchar (by omega)
    rw [feed_cons_of_not_tail st (.inr (by omega)), start_two (by omega) (by omega)]
    simp only [feed, step_last (fits_tail (Nat.mod_lt v (by omega : 0 < 64))), hc, List.append_nil]
  split
  · rename_i h₁ h₂ h₃
    have hc : Char.ofNat ((v / 4096 * 64 + v / 64 % 64) * 64 + v % 64) = c := hchar (by omega)
    rw [feed_cons_of_not_tail st (.inr (by omega)), start_three (by omega)]
    simp only [feed, step_more (fits_three (by omega) h₃ hsurrogate),
      step_last (fits_tail (Nat.mod_lt v (by omega : 0 < 64))), hc, List.append_nil, List.nil_append]
  · rename_i h₁ h₂ h₃
    have hc : Char.ofNat (((v / 262144 * 64 + v / 4096 % 64) * 64 + v / 64 % 64) * 64 + v % 64) = c :=
      hchar (by omega)
    rw [feed_cons_of_not_tail st (.inr (by omega)), start_four (by omega)]
    simp only [feed, step_more (fits_four (by omega) hmax),
      step_more (fits_tail (Nat.mod_lt (v / 64) (by omega : 0 < 64))),
      step_last (fits_tail (Nat.mod_lt v (by omega : 0 < 64))), hc, List.append_nil, List.nil_append]

/-- A character survives between octets of any kind, which are decoded as if
it were not there. -/
theorem decode_append_encodeChar (xs : List Nat) (c : Char) (ys : List Nat) :
    decode (xs ++ encodeChar c ++ ys) = decode xs ++ c :: decode ys := by
  simp [decode, feed_append, feed_encodeChar]

/-- Decoding undoes encoding. -/
@[simp] theorem decode_encode (s : List Char) : decode (encode s) = s := by
  induction s with
  | nil => rfl
  | cons c s ih => simpa [ih] using decode_append_encodeChar [] c (encode s)

theorem lt_of_mem_encodeChar {c : Char} {b : Nat} (h : b ∈ encodeChar c) : b < 256 := by
  have hmax := (char_valid c).2
  unfold encodeChar at h
  simp only at h
  split at h
  · simp at h; omega
  split at h
  · simp at h; omega
  split at h <;> simp at h <;> omega

end Utf8
