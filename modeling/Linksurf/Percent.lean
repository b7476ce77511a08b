import Linksurf.Utf8
import Mathlib.Data.List.TakeWhile

/-!
# Percent-encoding and query strings

Quoting and unquoting of `application/x-www-form-urlencoded` text. Decoding
goes through octets: a parameter is a pair of octet strings, and its text is
their UTF-8 decoding with replacement. Quoting loses nothing, unquoting does
where the octets are ill-formed.
-/
namespace Percent

open Utf8

/-! ## Octets -/

def hexVal (c : Char) : Option Nat :=
  if '0' ≤ c ∧ c ≤ '9' then some (c.toNat - 48)
  else if 'a' ≤ c ∧ c ≤ 'f' then some (c.toNat - 87)
  else if 'A' ≤ c ∧ c ≤ 'F' then some (c.toNat - 55)
  else none

def hexDigit (n : Nat) : Char := if n < 10 then Char.ofNat (48 + n) else Char.ofNat (55 + n)

/-- The octet of two hexadecimal digits. -/
def hexByte (a b : Char) : Option Nat := do
  let x ← hexVal a
  let y ← hexVal b
  return 16 * x + y

/-- `unquote_to_bytes`: a percent sign without two hexadecimal digits stands
for itself. -/
def unquoteToBytes : List Char → List Nat
  | '%' :: a :: b :: s =>
    match hexByte a b with
    | some n => n :: unquoteToBytes s
    | none => encodeChar '%' ++ unquoteToBytes (a :: b :: s)
  | c :: s => encodeChar c ++ unquoteToBytes s
  | [] => []

def isAscii (c : Char) : Bool := c.toNat < 0x80

/-- `unquote` over runs of ASCII characters, each decoded on its own. -/
def unquoteRuns (run : List Char) : List Char → List Char
  | [] => decode (unquoteToBytes run)
  | c :: s => if isAscii c then unquoteRuns (run ++ [c]) s
    else decode (unquoteToBytes run) ++ c :: unquoteRuns [] s

def unquote (s : List Char) : List Char := if '%' ∈ s then unquoteRuns [] s else s

def plusToSpace (s : List Char) : List Char := s.map (fun c => if c = '+' then ' ' else c)

def unquotePlus (s : List Char) : List Char := unquote (plusToSpace s)

/-- The octets a form component stands for. -/
def formDecode (s : List Char) : List Nat := unquoteToBytes (plusToSpace s)

/-- An octet `quote` leaves as it is: a letter, a digit or one of `_.-~`. -/
def isSafe (b : Nat) : Bool :=
  (48 ≤ b && b ≤ 57) || (65 ≤ b && b ≤ 90) || (97 ≤ b && b ≤ 122) || b = 95 || b = 46 || b = 45 || b = 126

def quoteByte (b : Nat) : List Char :=
  if isSafe b then [Char.ofNat b]
  else if b = 32 then ['+']
  else ['%', hexDigit (b / 16), hexDigit (b % 16)]

def quotePlus (s : List Char) : List Char := (encode s).flatMap quoteByte

/-! ## Unquoting decodes the octets -/

theorem unquoteToBytes_cons {c : Char} (h : c ≠ '%') (s : List Char) :
    unquoteToBytes (c :: s) = encodeChar c ++ unquoteToBytes s := by
  rw [unquoteToBytes]
  intro _ _ _ he
  exact absurd he h

theorem hexVal_none_of_not_ascii {c : Char} (h : isAscii c = false) : hexVal c = none := by
  have hc : 0x80 ≤ c.toNat := by simpa [isAscii] using h
  have hle (d : Char) (hd : d.toNat < 0x80) : ¬ c ≤ d := by
    intro hcd
    have : c.toNat ≤ d.toNat := hcd
    omega
  unfold hexVal
  rw [if_neg (fun h => hle '9' (by decide) h.2), if_neg (fun h => hle 'f' (by decide) h.2),
    if_neg (fun h => hle 'F' (by decide) h.2)]

theorem hexByte_none_of_not_ascii {a b : Char} (h : isAscii a = false ∨ isAscii b = false) :
    hexByte a b = none := by
  cases h with
  | inl h => simp [hexByte, hexVal_none_of_not_ascii h]
  | inr h =>
    unfold hexByte
    rw [hexVal_none_of_not_ascii h]
    cases hexVal a <;> rfl

/-- A character outside ASCII takes part in no escape. -/
theorem unquoteToBytes_append_cons {c : Char} (h : isAscii c = false) (xs s : List Char) :
    unquoteToBytes (xs ++ c :: s) = unquoteToBytes xs ++ encodeChar c ++ unquoteToBytes s := by
  have hc : c ≠ '%' := by
    intro he
    subst he
    cases h
  induction xs using unquoteToBytes.induct with
  | case1 a b xs n hn ih => simp [unquoteToBytes, hn, ih]
  | case2 a b xs hn ih =>
    simp only [List.cons_append, unquoteToBytes, hn] at ih ⊢
    simp [ih]
  | case3 d xs hd ih =>
    cases xs with
    | nil =>
      by_cases hp : d = '%'
      · subst hp
        cases s with
        | nil => simp [unquoteToBytes, unquoteToBytes_cons hc]
        | cons e s =>
          simp [unquoteToBytes, hexByte_none_of_not_ascii (.inl h), unquoteToBytes_cons hc]
      · simp [unquoteToBytes_cons hp, unquoteToBytes_cons hc, unquoteToBytes]
    | cons e xs =>
      cases xs with
      | nil =>
        by_cases hp : d = '%'
        · subst hp
          rw [List.cons_append, List.cons_append, List.nil_append, unquoteToBytes,
            hexByte_none_of_not_ascii (.inr h)]
          simp only [List.cons_append, List.nil_append] at ih
          simp [ih, unquoteToBytes]
        · rw [List.cons_append, unquoteToBytes_cons hp, ih, unquoteToBytes_cons hp]
          simp
      | cons f xs =>
        have hp : d ≠ '%' := by
          intro he
          exact hd _ _ _ he rfl
        rw [List.cons_append, unquoteToBytes_cons hp, ih, unquoteToBytes_cons hp]
        simp
  | case4 => simp [unquoteToBytes, unquoteToBytes_cons hc]

theorem unquoteRuns_eq (run s : List Char) : unquoteRuns run s = decode (unquoteToBytes (run ++ s)) := by
  induction s generalizing run with
  | nil => simp [unquoteRuns]
  | cons c s ih =>
    unfold unquoteRuns
    split
    · rw [ih, List.append_assoc, List.singleton_append]
    · rename_i h
      rw [ih, unquoteToBytes_append_cons (by simpa using h), decode_append_encodeChar, List.nil_append]

theorem unquoteToBytes_of_not_mem {s : List Char} (h : '%' ∉ s) : unquoteToBytes s = encode s := by
  induction s with
  | nil => rfl
  | cons c s ih =>
    obtain ⟨hc, hs⟩ := List.ne_and_not_mem_of_not_mem_cons h
    rw [unquoteToBytes_cons (Ne.symm hc), ih hs, encode_cons]

/-- `unquote` is the decoding of all octets at once. -/
theorem unquote_eq (s : List Char) : unquote s = decode (unquoteToBytes s) := by
  unfold unquote
  split
  · rw [unquoteRuns_eq, List.nil_append]
  · rename_i h
    rw [unquoteToBytes_of_not_mem h, decode_encode]

theorem unquotePlus_eq (s : List Char) : unquotePlus s = decode (formDecode s) := unquote_eq _

/-! ## Quoting is undone -/

theorem hexVal_hexDigit {n : Nat} (h : n < 16) : hexVal (hexDigit n) = some n := by
  have : ∀ n < 16, hexVal (hexDigit n) = some n := by decide
  exact this n h

theorem hexDigit_ne_plus {n : Nat} (h : n < 16) : hexDigit n ≠ '+' := by
  have : ∀ n < 16, hexDigit n ≠ '+' := by decide
  exact this n h

theorem hexByte_hexDigit {b : Nat} (h : b < 256) : hexByte (hexDigit (b / 16)) (hexDigit (b % 16)) = some b := by
  have hb : 16 * (b / 16) + b % 16 = b := Nat.div_add_mod b 16
  simp [hexByte, hexVal_hexDigit (show b / 16 < 16 by omega), hexVal_hexDigit (show b % 16 < 16 by omega), hb]

/-- A safe octet is an ASCII character that neither escapes nor separates. -/
theorem safe_char {b : Nat} (h : isSafe b = true) :
    encodeChar (Char.ofNat b) = [b] ∧ Char.ofNat b ∉ ['%', '+', '&', '=', '#', '\t', '\r', '\n', ':'] := by
  have hb : b < 127 := by
    simp only [isSafe, Bool.or_eq_true, Bool.and_eq_true, decide_eq_true_eq] at h
    omega
  have : ∀ b < 127, isSafe b = true →
      encodeChar (Char.ofNat b) = [b] ∧ Char.ofNat b ∉ ['%', '+', '&', '=', '#', '\t', '\r', '\n', ':'] := by
    decide
  exact this b hb h

theorem formDecode_quoteByte {b : Nat} (h : b < 256) (s : List Char) :
    formDecode (quoteByte b ++ s) = b :: formDecode s := by
  unfold quoteByte
  split
  · rename_i hs
    obtain ⟨henc, hmem⟩ := safe_char hs
    simp only [List.mem_cons, not_or] at hmem
    simp [formDecode, plusToSpace, hmem.2.1, unquoteToBytes_cons hmem.1, henc]
  split
  · rename_i hb
    subst hb
    have henc : encodeChar ' ' = [32] := by decide
    simp [formDecode, plusToSpace, unquoteToBytes_cons (show ' ' ≠ '%' by decide), henc]
  · have h₁ := hexDigit_ne_plus (show b / 16 < 16 by omega)
    have h₂ := hexDigit_ne_plus (show b % 16 < 16 by omega)
    simp [formDecode, plusToSpace, h₁, h₂, unquoteToBytes, hexByte_hexDigit h]

theorem formDecode_flatMap_quoteByte {bs : List Nat} (h : ∀ b ∈ bs, b < 256) :
    formDecode (bs.flatMap quoteByte) = bs := by
  induction bs with
  | nil => rfl
  | cons b bs ih =>
    rw [List.flatMap_cons, formDecode_quoteByte (h b (List.mem_cons_self ..)),
      ih (fun x hx => h x (List.mem_cons_of_mem _ hx))]

/-- The octets of a quoted text are its own. -/
theorem formDecode_quotePlus (s : List Char) : formDecode (quotePlus s) = encode s := by
  apply formDecode_flatMap_quoteByte
  intro b hb
  obtain ⟨c, -, hc⟩ := List.mem_flatMap.mp hb
  exact lt_of_mem_encodeChar hc

theorem unquotePlus_quotePlus (s : List Char) : unquotePlus (quotePlus s) = s := by
  rw [unquotePlus_eq, formDecode_quotePlus, decode_encode]

/-! ## Query strings -/

/-- `str.partition` without the separator. -/
def partition (sep : Char) (s : List Char) : List Char × List Char :=
  (s.takeWhile (· ≠ sep), (s.dropWhile (· ≠ sep)).drop 1)

/-- The parts of a query string that hold a parameter. -/
def fields (qs : List Char) : List (List Char × List Char) :=
  ((qs.splitOn '&').filter (· ≠ [])).map (partition '=')

/-- The parameters as pairs of octet strings. -/
def formPairs (qs : List Char) : List (List Nat × List Nat) := (fields qs).map (Prod.map formDecode formDecode)

/-- `parse_qsl` with `keep_blank_values=True`. -/
def parseQsl (qs : List Char) : List (List Char × List Char) := (fields qs).map (Prod.map unquotePlus unquotePlus)

def urlencodePair (p : List Char × List Char) : List Char := quotePlus p.1 ++ '=' :: quotePlus p.2

def urlencode (ps : List (List Char × List Char)) : List Char := ['&'].intercalate (ps.map urlencodePair)

/-- The text of the parameters is the decoding of their octets. -/
theorem parseQsl_eq (qs : List Char) : parseQsl qs = (formPairs qs).map (Prod.map decode decode) := by
  rw [parseQsl, formPairs, List.map_map]
  apply List.map_congr_left
  intro p _
  exact Prod.ext (unquotePlus_eq p.1) (unquotePlus_eq p.2)

theorem mem_quoteByte {b : Nat} (hb : b < 256) {c : Char} (h : c ∈ quoteByte b) :
    c ∉ ['&', '=', '#', '\t', '\r', '\n', ':'] := by
  have hhex : ∀ n < 16, hexDigit n ∉ ['&', '=', '#', '\t', '\r', '\n', ':'] := by decide
  unfold quoteByte at h
  split at h
  · rename_i hs
    obtain rfl := List.mem_singleton.mp h
    have := (safe_char hs).2
    simp_all
  split at h
  · obtain rfl := List.mem_singleton.mp h
    decide
  · simp only [List.mem_cons, List.not_mem_nil, or_false] at h
    obtain rfl | rfl | rfl := h
    · decide
    · exact hhex _ (by omega)
    · exact hhex _ (by omega)

theorem mem_quotePlus {s : List Char} {c : Char} (h : c ∈ quotePlus s) :
    c ∉ ['&', '=', '#', '\t', '\r', '\n', ':'] := by
  obtain ⟨b, hb, hc⟩ := List.mem_flatMap.mp h
  obtain ⟨d, -, hd⟩ := List.mem_flatMap.mp hb
  exact mem_quoteByte (lt_of_mem_encodeChar hd) hc

theorem forall_ne_of_not_mem {sep : Char} {s : List Char} (h : sep ∉ s) : ∀ c ∈ s, decide (c ≠ sep) = true := by
  intro c hc
  have hne : c ≠ sep := by
    intro he
    exact h (he ▸ hc)
  simpa using hne

theorem partition_append {sep : Char} {s t : List Char} (h : sep ∉ s) :
    partition sep (s ++ sep :: t) = (s, t) := by
  have hs := forall_ne_of_not_mem h
  unfold partition
  rw [List.takeWhile_append_of_pos hs, List.dropWhile_append_of_pos hs]
  simp

theorem partition_of_not_mem {sep : Char} {s : List Char} (h : sep ∉ s) : partition sep s = (s, []) := by
  have hs := forall_ne_of_not_mem h
  unfold partition
  rw [List.takeWhile_eq_self_iff.mpr hs, List.dropWhile_eq_nil_iff.mpr hs, List.drop_nil]

theorem not_mem_quotePlus {s : List Char} {c : Char} (h : c ∈ ['&', '=', '#', '\t', '\r', '\n', ':']) :
    c ∉ quotePlus s := fun hc => mem_quotePlus hc h

theorem amp_not_mem_urlencodePair (p : List Char × List Char) : '&' ∉ urlencodePair p := by
  simp only [urlencodePair, List.mem_append, List.mem_cons, not_or]
  exact ⟨not_mem_quotePlus (by decide), by decide, not_mem_quotePlus (by decide)⟩

/-- `parse_qsl` undoes `urlencode`. -/
theorem parseQsl_urlencode (ps : List (List Char × List Char)) : parseQsl (urlencode ps) = ps := by
  by_cases hps : ps = []
  · subst hps
    decide
  · have hsplit : (urlencode ps).splitOn '&' = ps.map urlencodePair := by
      apply List.splitOn_intercalate
      · intro l hl
        obtain ⟨p, -, rfl⟩ := List.mem_map.mp hl
        exact amp_not_mem_urlencodePair p
      · simpa using hps
    have hfilter : (ps.map urlencodePair).filter (· ≠ []) = ps.map urlencodePair := by
      apply List.filter_eq_self.mpr
      intro l hl
      obtain ⟨p, -, rfl⟩ := List.mem_map.mp hl
      simp [urlencodePair]
    rw [parseQsl, fields, hsplit, hfilter, List.map_map, List.map_map]
    have hid : ∀ p : List Char × List Char,
        Prod.map unquotePlus unquotePlus (partition '=' (urlencodePair p)) = p := by
      intro p
      rw [urlencodePair, partition_append (not_mem_quotePlus (by decide))]
      simp [unquotePlus_quotePlus]
    calc ps.map ((Prod.map unquotePlus unquotePlus ∘ partition '=') ∘ urlencodePair) = ps.map id :=
          List.map_congr_left (fun p _ => hid p)
      _ = ps := List.map_id ps

/-- What a query string never contains. -/
theorem mem_urlencode {ps : List (List Char × List Char)} {c : Char} (h : c ∈ urlencode ps) :
    c ∉ ['#', '\t', '\r', '\n', ':'] := by
  have hpair : ∀ p, ∀ d ∈ urlencodePair p, d ∉ ['#', '\t', '\r', '\n', ':'] := by
    intro p d hd
    simp only [urlencodePair, List.mem_append, List.mem_cons] at hd
    obtain hd | rfl | hd := hd
    · have := mem_quotePlus hd
      simp_all
    · decide
    · have := mem_quotePlus hd
      simp_all
  unfold urlencode at h
  induction ps with
  | nil => cases h
  | cons p ps ih =>
    cases ps with
    | nil => exact hpair p c (by simpa using h)
    | cons q ps =>
      rw [List.map_cons, List.map_cons, List.intercalate_cons_cons] at h
      simp only [List.mem_append, List.mem_singleton] at h
      obtain (h | rfl) | h := h
      · exact hpair p c h
      · decide
      · exact ih h

end Percent
