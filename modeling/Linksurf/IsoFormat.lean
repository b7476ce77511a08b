import Mathlib

/-!
# Timestamps

Date and time with an optional UTC offset, written by `isoformat` and read back
by `fromisoformat`. Of the formats `fromisoformat` accepts, the reader takes
those that `isoformat` writes.
-/
namespace IsoFormat

/-- The microseconds of a day, which an offset stays below. -/
def DAY : Nat := 86400000000

/-- A `datetime`; the offset is in microseconds, `none` for a naive one. -/
structure DateTime where
  year : Nat
  month : Nat
  day : Nat
  hour : Nat
  minute : Nat
  second : Nat
  microsecond : Nat
  offset : Option Int
  date : 1 ≤ year ∧ year ≤ 9999 ∧ 1 ≤ month ∧ month ≤ 12 ∧ 1 ≤ day ∧ day ≤ 31
  time : hour < 24 ∧ minute < 60 ∧ second < 60 ∧ microsecond < 1000000
  zone : ∀ o ∈ offset, o.natAbs < DAY
  deriving DecidableEq

/-! ## Numbers of fixed width -/

def digit (n : Nat) : Char := Char.ofNat (48 + n)

/-- `n` in decimal, filled up with zeros to the width. -/
def pad : Nat → Nat → List Char
  | 0, _ => []
  | w + 1, n => pad w (n / 10) ++ [digit (n % 10)]

def digitVal (c : Char) : Option Nat := if c.isDigit then some (c.toNat - 48) else none

/-- Read as many digits as the width, onto a number read before. -/
def readDigits : Nat → Nat → List Char → Option (Nat × List Char)
  | 0, acc, s => some (acc, s)
  | w + 1, acc, c :: s => (digitVal c).bind (fun d => readDigits w (10 * acc + d) s)
  | _ + 1, _, [] => none

theorem digitVal_digit {n : Nat} (h : n < 10) : digitVal (digit n) = some n := by
  have : ∀ n < 10, digitVal (digit n) = some n := by decide
  exact this n h

theorem readDigits_append (w w' acc : Nat) (s : List Char) :
    readDigits (w + w') acc s = (readDigits w acc s).bind (fun r => readDigits w' r.1 r.2) := by
  induction w generalizing acc s with
  | zero => simp [readDigits]
  | succ w ih =>
    rw [Nat.succ_add]
    cases s with
    | nil => rfl
    | cons c s =>
      cases hd : digitVal c with
      | none => simp [readDigits, hd]
      | some d => simp [readDigits, hd, ih]

/-- A padded number is read back. -/
theorem readDigits_pad (w acc : Nat) {n : Nat} (h : n < 10 ^ w) (s : List Char) :
    readDigits w acc (pad w n ++ s) = some (10 ^ w * acc + n, s) := by
  induction w generalizing n s with
  | zero =>
    have hn : n = 0 := by simpa using h
    simp [readDigits, pad, hn]
  | succ w ih =>
    have hdiv : n / 10 < 10 ^ w := by
      rw [Nat.pow_succ] at h
      omega
    rw [pad, List.append_assoc, readDigits_append, ih hdiv]
    simp only [Option.bind_some, List.singleton_append, readDigits, digitVal_digit (Nat.mod_lt n (by omega : 0 < 10))]
    congr 2
    rw [Nat.pow_succ]
    have := Nat.div_add_mod n 10
    ring_nf
    omega

theorem readDigits_pad_zero {w n : Nat} (h : n < 10 ^ w) (s : List Char) :
    readDigits w 0 (pad w n ++ s) = some (n, s) := by
  rw [readDigits_pad w 0 h, Nat.mul_zero, Nat.zero_add]

/-! ## Writing -/

/-- The microseconds, where there are any. -/
def fractionText (microsecond : Nat) : List Char := if microsecond = 0 then [] else '.' :: pad 6 microsecond

/-- Seconds and microseconds of an offset, where there are any. -/
def secondsText (n : Nat) : List Char :=
  if n = 0 then [] else ':' :: pad 2 (n / 1000000) ++ fractionText (n % 1000000)

/-- An offset of `n` microseconds, after its sign. -/
def offsetText (n : Nat) : List Char :=
  pad 2 (n / 3600000000) ++ ':' :: pad 2 (n / 60000000 % 60) ++ secondsText (n % 60000000)

def zoneText : Option Int → List Char
  | none => []
  | some o => (if o < 0 then '-' else '+') :: offsetText o.natAbs

/-- `datetime.isoformat`. -/
def isoformat (d : DateTime) : List Char :=
  pad 4 d.year ++ '-' :: pad 2 d.month ++ '-' :: pad 2 d.day ++ 'T' :: pad 2 d.hour ++ ':' :: pad 2 d.minute ++
    ':' :: pad 2 d.second ++ fractionText d.microsecond ++ zoneText d.offset

/-! ## Reading -/

def expect (c : Char) : List Char → Option (List Char)
  | [] => none
  | d :: s => if d = c then some s else none

def readFraction : List Char → Option (Nat × List Char)
  | '.' :: s => readDigits 6 0 s
  | s => some (0, s)

def readSeconds : List Char → Option Nat
  | [] => some 0
  | s => do
    let s ← expect ':' s
    let (second, s) ← readDigits 2 0 s
    let (microsecond, s) ← readFraction s
    if s = [] then some (second * 1000000 + microsecond) else none

def readOffset (s : List Char) : Option Nat := do
  let (hour, s) ← readDigits 2 0 s
  let s ← expect ':' s
  let (minute, s) ← readDigits 2 0 s
  let rest ← readSeconds s
  return hour * 3600000000 + minute * 60000000 + rest

def readZone : List Char → Option (Option Int)
  | [] => some none
  | c :: s =>
    if c = '+' then (readOffset s).map (fun (n : Nat) => some (n : Int))
    else if c = '-' then (readOffset s).map (fun (n : Nat) => some (-(n : Int)))
    else none

/-- The date and time, refused where a number is out of range. -/
def DateTime.ofParts (year month day hour minute second microsecond : Nat) (offset : Option Int) : Option DateTime :=
  if h : (1 ≤ year ∧ year ≤ 9999 ∧ 1 ≤ month ∧ month ≤ 12 ∧ 1 ≤ day ∧ day ≤ 31) ∧
      (hour < 24 ∧ minute < 60 ∧ second < 60 ∧ microsecond < 1000000) ∧ ∀ o ∈ offset, o.natAbs < DAY then
    some ⟨year, month, day, hour, minute, second, microsecond, offset, h.1, h.2.1, h.2.2⟩
  else none

/-- `datetime.fromisoformat`, `none` where it raises. -/
def fromisoformat (s : List Char) : Option DateTime := do
  let (year, s) ← readDigits 4 0 s
  let s ← expect '-' s
  let (month, s) ← readDigits 2 0 s
  let s ← expect '-' s
  let (day, s) ← readDigits 2 0 s
  let s ← expect 'T' s
  let (hour, s) ← readDigits 2 0 s
  let s ← expect ':' s
  let (minute, s) ← readDigits 2 0 s
  let s ← expect ':' s
  let (second, s) ← readDigits 2 0 s
  let (microsecond, s) ← readFraction s
  let offset ← readZone s
  DateTime.ofParts year month day hour minute second microsecond offset

/-! ## What is written is read back -/

@[simp] theorem expect_cons (c : Char) (s : List Char) : expect c (c :: s) = some s := by simp [expect]

theorem readFraction_text {n : Nat} (h : n < 1000000) {s : List Char} (hs : ∀ t, s ≠ '.' :: t) :
    readFraction (fractionText n ++ s) = some (n, s) := by
  unfold fractionText
  split
  · rename_i hn
    rw [List.nil_append, readFraction, hn]
    exact hs
  · rw [List.cons_append, readFraction]
    exact readDigits_pad_zero (by omega) s

theorem readSeconds_text {n : Nat} (h : n < 60000000) : readSeconds (secondsText n) = some n := by
  unfold secondsText
  split
  · rename_i hn
    rw [hn]
    rfl
  · have hf := readFraction_text (n := n % 1000000) (Nat.mod_lt n (by omega)) (s := []) (by simp)
    rw [List.append_nil] at hf
    have hsec : n / 1000000 * 1000000 + n % 1000000 = n := by omega
    simp [readSeconds, readDigits_pad_zero (w := 2) (n := n / 1000000) (by omega), hf, hsec]

theorem readOffset_text {n : Nat} (h : n < DAY) : readOffset (offsetText n) = some n := by
  unfold DAY at h
  have hsum : n / 3600000000 * 3600000000 + n / 60000000 % 60 * 60000000 + n % 60000000 = n := by omega
  simp [readOffset, offsetText, readDigits_pad_zero (w := 2) (n := n / 3600000000) (by omega),
    readDigits_pad_zero (w := 2) (n := n / 60000000 % 60) (by omega),
    readSeconds_text (n := n % 60000000) (Nat.mod_lt n (by omega)), hsum]

theorem readZone_text {offset : Option Int} (h : ∀ o ∈ offset, o.natAbs < DAY) :
    readZone (zoneText offset) = some offset := by
  cases offset with
  | none => rfl
  | some o =>
    have ho := readOffset_text (h o rfl)
    by_cases hneg : o < 0
    · have habs : -(o.natAbs : Int) = o := by omega
      rw [zoneText, if_pos hneg, readZone, if_neg (by decide), if_pos rfl, ho, Option.map_some, habs]
    · have habs : (o.natAbs : Int) = o := by omega
      rw [zoneText, if_neg hneg, readZone, if_pos rfl, ho, Option.map_some, habs]

theorem zoneText_head (offset : Option Int) : ∀ t, zoneText offset ≠ '.' :: t := by
  intro t h
  cases offset with
  | none => cases h
  | some o =>
    have hc := (List.cons.inj h).1
    split at hc
    · exact absurd hc (by decide)
    · exact absurd hc (by decide)

/-- `fromisoformat` inverts `isoformat`. -/
theorem fromisoformat_isoformat (d : DateTime) : fromisoformat (isoformat d) = some d := by
  obtain ⟨hy, hy', hm, hm', hd, hd'⟩ := d.date
  obtain ⟨hh, hmin, hs, hus⟩ := d.time
  have hparts : DateTime.ofParts d.year d.month d.day d.hour d.minute d.second d.microsecond d.offset = some d := by
    rw [DateTime.ofParts, dif_pos ⟨d.date, d.time, d.zone⟩]
  simp only [fromisoformat, isoformat, List.append_assoc, List.cons_append,
    readDigits_pad_zero (w := 4) (n := d.year) (by omega), Option.bind_eq_bind, Option.bind_some, expect_cons,
    readDigits_pad_zero (w := 2) (n := d.month) (by omega), readDigits_pad_zero (w := 2) (n := d.day) (by omega),
    readDigits_pad_zero (w := 2) (n := d.hour) (by omega), readDigits_pad_zero (w := 2) (n := d.minute) (by omega),
    readDigits_pad_zero (w := 2) (n := d.second) (by omega), readFraction_text hus (zoneText_head d.offset),
    readZone_text d.zone, hparts]

end IsoFormat
