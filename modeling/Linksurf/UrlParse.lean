import Linksurf.Percent
import Mathlib

/-!
# Splitting and joining URLs

`urlsplit` and `urlunsplit` of `urllib.parse`, in the version of CPython 3.12.
The checks on a network location that need the Unicode data or the syntax of
IP addresses are a parameter. Components in canonical form survive being
joined and split again.
-/
namespace UrlParse

open Percent (partition partition_append partition_of_not_mem)

structure SplitResult where
  scheme : List Char
  netloc : List Char
  path : List Char
  query : List Char
  fragment : List Char
  deriving DecidableEq

/-! ## The functions of the library -/

def isC0OrSpace (c : Char) : Bool := c.toNat ≤ 0x20

/-- Tabs and line breaks, removed anywhere in a URL. -/
def isUnsafe (c : Char) : Bool := c = '\t' || c = '\r' || c = '\n'

def strip (url : List Char) : List Char := (url.dropWhile isC0OrSpace).filter (fun c => !isUnsafe c)

def schemeChar (c : Char) : Bool := c.isAlphanum || c = '+' || c = '-' || c = '.'

def isScheme : List Char → Bool
  | [] => false
  | c :: s => c.isAlpha && (c :: s).all schemeChar

/-- The text before the first colon is a scheme. -/
def hasScheme (url : List Char) : Bool := ':' ∈ url && isScheme (url.takeWhile (· ≠ ':'))

def splitScheme (url : List Char) : List Char × List Char :=
  if hasScheme url then ((partition ':' url).1.map Char.toLower, (partition ':' url).2) else ([], url)

def netlocEnd (c : Char) : Bool := c = '/' || c = '?' || c = '#'

def splitNetloc : List Char → List Char × List Char
  | '/' :: '/' :: url => (url.takeWhile (fun c => !netlocEnd c), url.dropWhile (fun c => !netlocEnd c))
  | url => ([], url)

/-- `urlsplit`, `none` where it raises `ValueError`. -/
def urlsplit (valid : List Char → Bool) (url : List Char) : Option SplitResult :=
  let schemed := splitScheme (strip url)
  let located := splitNetloc schemed.2
  let fragmented := partition '#' located.2
  let queried := partition '?' fragmented.1
  if located.1 = [] || valid located.1 then some ⟨schemed.1, located.1, queried.1, queried.2, fragmented.2⟩
  else none

/-- `uses_netloc`. -/
def usesNetloc : List (List Char) :=
  ["", "ftp", "http", "gopher", "nntp", "telnet", "imap", "wais", "file", "mms", "https", "shttp", "snews",
    "prospero", "rtsp", "rtsps", "rtspu", "rsync", "svn", "svn+ssh", "sftp", "nfs", "git", "git+ssh", "ws",
    "wss", "itms-services"].map String.toList

def rooted : List Char → Bool
  | '/' :: _ => true
  | _ => false

def doubleRooted : List Char → Bool
  | '/' :: '/' :: _ => true
  | _ => false

/-- The location and the path of a URL. -/
def joinNetloc (scheme netloc path : List Char) : List Char :=
  if netloc ≠ [] then '/' :: '/' :: netloc ++ (if path ≠ [] && !rooted path then '/' :: path else path)
  else if doubleRooted path then '/' :: '/' :: path
  else if scheme ≠ [] && scheme ∈ usesNetloc && (path = [] || rooted path) then '/' :: '/' :: path
  else path

def joinScheme (scheme url : List Char) : List Char := if scheme ≠ [] then scheme ++ ':' :: url else url

def joinPart (sep : Char) (url part : List Char) : List Char := if part ≠ [] then url ++ sep :: part else url

def urlunsplit (p : SplitResult) : List Char :=
  joinPart '#' (joinPart '?' (joinScheme p.scheme (joinNetloc p.scheme p.netloc p.path)) p.query) p.fragment

/-- `str.rpartition` without the separator. -/
def rpartition (sep : Char) (s : List Char) : List Char × List Char :=
  if sep ∈ s then
    (((s.reverse.dropWhile (· ≠ sep)).drop 1).reverse, (s.reverse.takeWhile (· ≠ sep)).reverse)
  else ([], s)

/-- `_hostinfo`: the host and the text of the port, as they are written. -/
def hostinfo (netloc : List Char) : List Char × List Char :=
  let host := (rpartition '@' netloc).2
  if '[' ∈ host then
    let bracketed := partition ']' (partition '[' host).2
    (bracketed.1, (partition ':' bracketed.2).2)
  else partition ':' host

/-- The number of a port in decimal digits. -/
def decimal (s : List Char) : Nat := s.foldl (fun n c => 10 * n + (c.toNat - 48)) 0

/-- `SplitResult.port`: `none` where it raises, `some none` without a port. -/
def port (netloc : List Char) : Option (Option Nat) :=
  let digits := (hostinfo netloc).2
  if digits = [] then some none
  else if digits.all Char.isDigit && decimal digits ≤ 65535 then some (some (decimal digits))
  else none

/-! ## Canonical components -/

/-- The components of a URL as they come out of a split, with a rooted path
behind a location and without a fragment. -/
structure Canonical (p : SplitResult) : Prop where
  scheme : p.scheme = [] ∨ (isScheme p.scheme = true ∧ p.scheme.map Char.toLower = p.scheme)
  clean : ∀ c ∈ p.netloc ++ p.path ++ p.query, isUnsafe c = false
  netloc : ∀ c ∈ p.netloc, netlocEnd c = false
  path : '?' ∉ p.path ∧ '#' ∉ p.path
  query : '#' ∉ p.query ∧ ':' ∉ p.query
  located : p.netloc ≠ [] → rooted p.path = true
  bare : p.scheme = [] → p.netloc = [] → (∃ c s, p.path = c :: s ∧ isC0OrSpace c = false) ∧ hasScheme p.path = false
  fragment : p.fragment = []

/-- The query with its question mark. -/
def queryPart (query : List Char) : List Char := if query ≠ [] then '?' :: query else []

theorem joinPart_eq (sep : Char) (url part : List Char) :
    joinPart sep url part = url ++ (if part ≠ [] then sep :: part else []) := by
  unfold joinPart
  split <;> simp

theorem joinScheme_append (scheme url q : List Char) :
    joinScheme scheme url ++ q = joinScheme scheme (url ++ q) := by
  unfold joinScheme
  split <;> simp

theorem urlunsplit_eq {p : SplitResult} (h : p.fragment = []) :
    urlunsplit p = joinScheme p.scheme (joinNetloc p.scheme p.netloc p.path ++ queryPart p.query) := by
  rw [urlunsplit, h, joinPart, if_neg (by simp), joinPart_eq, joinScheme_append, queryPart]

theorem rooted_iff {s : List Char} : rooted s = true ↔ ∃ t, s = '/' :: t := by
  constructor
  · intro h
    unfold rooted at h
    split at h
    · exact ⟨_, rfl⟩
    · cases h
  · rintro ⟨t, rfl⟩
    rfl

theorem doubleRooted_iff {s : List Char} : doubleRooted s = true ↔ ∃ t, s = '/' :: '/' :: t := by
  constructor
  · intro h
    unfold doubleRooted at h
    split at h
    · exact ⟨_, rfl⟩
    · cases h
  · rintro ⟨t, rfl⟩
    rfl

/-- A stripped URL has nothing to strip. -/
theorem strip_of_clean {url : List Char} (hclean : ∀ c ∈ url, isUnsafe c = false)
    (hhead : ∀ c s, url = c :: s → isC0OrSpace c = false) : strip url = url := by
  have hdrop : url.dropWhile isC0OrSpace = url := by
    cases url with
    | nil => rfl
    | cons c s => rw [List.dropWhile_cons_of_neg (by simp [hhead c s rfl])]
  rw [strip, hdrop]
  apply List.filter_eq_self.mpr
  intro c hc
  simp [hclean c hc]

theorem hasScheme_rooted (s : List Char) : hasScheme ('/' :: s) = false := by
  have h : isScheme (('/' :: s).takeWhile (· ≠ ':')) = false := by
    rw [List.takeWhile_cons_of_pos (by decide)]
    rfl
  rw [hasScheme, h, Bool.and_false]

/-- What follows without a colon starts no scheme. -/
theorem hasScheme_append {s q : List Char} (hs : hasScheme s = false) (hq : ':' ∉ q) :
    hasScheme (s ++ q) = false := by
  by_cases hc : ':' ∈ s
  · obtain ⟨a, b, rfl, ha⟩ := List.eq_append_cons_of_mem hc
    have htake (t : List Char) : (a ++ ':' :: t).takeWhile (· ≠ ':') = a :=
      congrArg Prod.fst (partition_append ha (t := t))
    rw [hasScheme, htake] at hs
    rw [hasScheme, List.append_assoc, List.cons_append, htake]
    simpa using hs
  · simp [hasScheme, hc, hq]

theorem schemeChar_range {c : Char} (h : schemeChar c = true) : 0x2B ≤ c.toNat ∧ c.toNat < 0x80 ∧ c.toNat ≠ 0x3A := by
  simp only [schemeChar, Char.isAlphanum, Char.isAlpha, Char.isUpper, Char.isLower, Char.isDigit,
    Bool.or_eq_true, Bool.and_eq_true, decide_eq_true_eq, UInt32.le_iff_toNat_le, ge_iff_le] at h
  change (((((65 ≤ c.toNat ∧ c.toNat ≤ 90) ∨ (97 ≤ c.toNat ∧ c.toNat ≤ 122)) ∨
    (48 ≤ c.toNat ∧ c.toNat ≤ 57)) ∨ c = '+') ∨ c = '-') ∨ c = '.' at h
  obtain ((((h | h) | rfl) | rfl) | rfl) := h
  · omega
  · omega
  all_goals decide

/-- A scheme character is no delimiter and no white space. -/
theorem schemeChar_ne {c : Char} (h : schemeChar c = true) : c ≠ ':' ∧ isUnsafe c = false ∧ isC0OrSpace c = false := by
  have hrange := schemeChar_range h
  have hne (d : Char) (hd : d.toNat < 0x2B ∨ d.toNat = 0x3A) : c ≠ d := by
    intro he
    subst he
    omega
  have hunsafe : isUnsafe c = false := by
    simp [isUnsafe, hne '\t' (by decide), hne '\r' (by decide), hne '\n' (by decide)]
  have hspace : isC0OrSpace c = false := by
    simp only [isC0OrSpace, decide_eq_false_iff_not]
    omega
  exact ⟨hne ':' (by decide), hunsafe, hspace⟩

theorem isScheme_cons {s : List Char} (h : isScheme s = true) :
    ∃ c t, s = c :: t ∧ c.isAlpha = true ∧ ∀ d ∈ s, schemeChar d = true := by
  cases s with
  | nil => cases h
  | cons c t =>
    simp only [isScheme, Bool.and_eq_true, List.all_eq_true] at h
    exact ⟨c, t, rfl, h.1, h.2⟩

/-- A scheme in lower case is found again. -/
theorem splitScheme_join {scheme : List Char} (h : isScheme scheme = true) (hl : scheme.map Char.toLower = scheme)
    (url : List Char) : splitScheme (scheme ++ ':' :: url) = (scheme, url) := by
  obtain ⟨c, t, hs, -, hall⟩ := isScheme_cons h
  have hcolon : ':' ∉ scheme := fun hm => (schemeChar_ne (hall _ hm)).1 rfl
  have hpart := partition_append hcolon (t := url)
  have htake : (scheme ++ ':' :: url).takeWhile (· ≠ ':') = scheme := congrArg Prod.fst hpart
  have hhas : hasScheme (scheme ++ ':' :: url) = true := by
    rw [hasScheme, htake, h]
    simp
  rw [splitScheme, if_pos hhas, hpart, hl]

theorem splitScheme_none {url : List Char} (h : hasScheme url = false) : splitScheme url = ([], url) := by
  rw [splitScheme, h, if_neg (by decide)]

theorem splitNetloc_of_not {url : List Char} (h : doubleRooted url = false) : splitNetloc url = ([], url) := by
  unfold splitNetloc
  split
  · cases h
  · rfl

/-- The location ends where the rest starts. -/
theorem splitNetloc_cons {netloc rest : List Char} (hn : ∀ c ∈ netloc, netlocEnd c = false)
    (hr : rest = [] ∨ ∃ c s, rest = c :: s ∧ netlocEnd c = true) :
    splitNetloc ('/' :: '/' :: netloc ++ rest) = (netloc, rest) := by
  have hpos : ∀ c ∈ netloc, (!netlocEnd c) = true := fun c hc => by rw [hn c hc]; rfl
  rw [List.cons_append, List.cons_append, splitNetloc, List.takeWhile_append_of_pos hpos,
    List.dropWhile_append_of_pos hpos]
  cases hr with
  | inl h => rw [h]; simp
  | inr h =>
    obtain ⟨c, s, rfl, hc⟩ := h
    rw [List.takeWhile_cons_of_neg (by simp [hc]), List.dropWhile_cons_of_neg (by simp [hc]), List.append_nil]

theorem queryPart_head (query : List Char) :
    queryPart query = [] ∨ ∃ c s, queryPart query = c :: s ∧ netlocEnd c = true := by
  unfold queryPart
  split
  · exact .inr ⟨_, _, rfl, by decide⟩
  · exact .inl rfl

/-- Behind an empty location stands a rooted path or none. -/
theorem splitNetloc_empty {path : List Char} (hp : path = [] ∨ rooted path = true) (query : List Char) :
    splitNetloc ('/' :: '/' :: path ++ queryPart query) = ([], path ++ queryPart query) := by
  have hrest : path ++ queryPart query = [] ∨ ∃ c s, path ++ queryPart query = c :: s ∧ netlocEnd c = true := by
    cases hp with
    | inl hp => rw [hp]; exact queryPart_head query
    | inr hp =>
      obtain ⟨t, rfl⟩ := rooted_iff.mp hp
      exact .inr ⟨_, _, rfl, by decide⟩
  have hempty : ∀ c ∈ ([] : List Char), netlocEnd c = false := by simp
  simpa using splitNetloc_cons hempty hrest

theorem doubleRooted_append {path : List Char} (h : doubleRooted path = false) (query : List Char) :
    doubleRooted (path ++ queryPart query) = false := by
  by_contra hd
  obtain ⟨t, ht⟩ := doubleRooted_iff.mp (by simpa using hd)
  have hq : ∀ s, queryPart query ≠ '/' :: s := by
    intro s he
    unfold queryPart at he
    split at he <;> cases he
  cases path with
  | nil => exact hq _ ht
  | cons a path =>
    cases path with
    | nil => exact hq _ (List.cons.inj ht).2
    | cons b path =>
      rw [List.cons_append, List.cons_append] at ht
      cases ht
      cases h

theorem splitNetloc_join {scheme netloc path : List Char} (hn : ∀ c ∈ netloc, netlocEnd c = false)
    (hl : netloc ≠ [] → rooted path = true) (query : List Char) :
    splitNetloc (joinNetloc scheme netloc path ++ queryPart query) = (netloc, path ++ queryPart query) := by
  unfold joinNetloc
  split
  · rename_i hne
    obtain ⟨t, rfl⟩ := rooted_iff.mp (hl hne)
    rw [if_neg (by simp [rooted]), List.append_assoc]
    exact splitNetloc_cons hn (.inr ⟨_, _, rfl, by decide⟩)
  rename_i hempty
  have hempty : netloc = [] := by simpa using hempty
  subst hempty
  split
  · rename_i hd
    obtain ⟨t, rfl⟩ := doubleRooted_iff.mp hd
    exact splitNetloc_empty (.inr rfl) query
  split
  · rename_i hp
    simp only [Bool.and_eq_true, Bool.or_eq_true, decide_eq_true_eq] at hp
    exact splitNetloc_empty hp.2 query
  · rename_i hd _
    exact splitNetloc_of_not (doubleRooted_append (by simpa using hd) query)

theorem unsafe_c0 {c : Char} (h : isUnsafe c = true) : isC0OrSpace c = true := by
  simp only [isUnsafe, Bool.or_eq_true, decide_eq_true_eq] at h
  obtain ((rfl | rfl) | rfl) := h <;> decide

theorem mem_queryPart {query : List Char} {c : Char} (h : c ∈ queryPart query) : c = '?' ∨ c ∈ query := by
  unfold queryPart at h
  split at h
  · simpa using h
  · cases h

theorem mem_joinNetloc {scheme netloc path : List Char} {c : Char} (h : c ∈ joinNetloc scheme netloc path) :
    c = '/' ∨ c ∈ netloc ∨ c ∈ path := by
  unfold joinNetloc at h
  split at h
  · split at h <;> simp at h <;> tauto
  split at h
  · simp at h; tauto
  split at h
  · simp at h; tauto
  · exact .inr (.inr h)

theorem Canonical.strip_eq {p : SplitResult} (h : Canonical p) :
    strip (urlunsplit p) = urlunsplit p := by
  have hclean : ∀ c ∈ joinNetloc p.scheme p.netloc p.path ++ queryPart p.query, isUnsafe c = false := by
    intro c hc
    have hslash : isUnsafe '/' = false := by decide
    have hmark : isUnsafe '?' = false := by decide
    rw [List.mem_append] at hc
    cases hc with
    | inl hc =>
      obtain rfl | hc | hc := mem_joinNetloc hc
      · exact hslash
      · exact h.clean c (by simp [hc])
      · exact h.clean c (by simp [hc])
    | inr hc =>
      obtain rfl | hc := mem_queryPart hc
      · exact hmark
      · exact h.clean c (by simp [hc])
  rw [urlunsplit_eq h.fragment]
  unfold joinScheme
  split
  · rename_i hs
    obtain ⟨hscheme, -⟩ := h.scheme.resolve_left hs
    obtain ⟨d, t, hd, -, hall⟩ := isScheme_cons hscheme
    apply strip_of_clean
    · intro c hc
      simp only [List.mem_append, List.mem_cons] at hc
      obtain hc | rfl | hc := hc
      · exact (schemeChar_ne (hall c hc)).2.1
      · decide
      · exact hclean c (by simpa using hc)
    · intro c s he
      rw [hd, List.cons_append] at he
      rw [← (List.cons.inj he).1]
      exact (schemeChar_ne (hall d (by rw [hd]; exact List.mem_cons_self ..))).2.2
  · rename_i hs
    have hs : p.scheme = [] := by simpa using hs
    apply strip_of_clean hclean
    intro c s he
    have hslash : isC0OrSpace '/' = false := by decide
    unfold joinNetloc at he
    split at he
    · cases he
      exact hslash
    rename_i hn
    obtain ⟨⟨d, t, hp, hd⟩, -⟩ := h.bare hs (by simpa using hn)
    split at he
    · cases he
      exact hslash
    split at he
    · cases he
      exact hslash
    · rw [hp] at he
      cases he
      exact hd

theorem Canonical.splitScheme_eq {p : SplitResult} (h : Canonical p) :
    splitScheme (urlunsplit p) = (p.scheme, joinNetloc p.scheme p.netloc p.path ++ queryPart p.query) := by
  rw [urlunsplit_eq h.fragment]
  unfold joinScheme
  split
  · rename_i hs
    obtain ⟨hscheme, hlower⟩ := h.scheme.resolve_left hs
    exact splitScheme_join hscheme hlower _
  · rename_i hs
    have hs : p.scheme = [] := by simpa using hs
    have hnone : hasScheme (joinNetloc p.scheme p.netloc p.path ++ queryPart p.query) = false := by
      unfold joinNetloc
      split
      · exact hasScheme_rooted _
      rename_i hn
      obtain ⟨-, hp⟩ := h.bare hs (by simpa using hn)
      have hq : ':' ∉ queryPart p.query := by
        intro hc
        cases mem_queryPart hc with
        | inl he => exact absurd he (by decide)
        | inr hc => exact h.query.2 hc
      split
      · exact hasScheme_rooted _
      split
      · exact hasScheme_rooted _
      · exact hasScheme_append hp hq
    rw [splitScheme_none hnone, hs]

/-- Canonical components are found again, unless the location is refused. -/
theorem urlsplit_urlunsplit (valid : List Char → Bool) {p : SplitResult} (h : Canonical p) :
    urlsplit valid (urlunsplit p) = if p.netloc = [] || valid p.netloc then some p else none := by
  have hfragment : partition '#' (p.path ++ queryPart p.query) = (p.path ++ queryPart p.query, []) := by
    apply partition_of_not_mem
    intro hc
    rw [List.mem_append] at hc
    cases hc with
    | inl hc => exact h.path.2 hc
    | inr hc =>
      cases mem_queryPart hc with
      | inl he => exact absurd he (by decide)
      | inr hc => exact h.query.1 hc
  have hquery : partition '?' (p.path ++ queryPart p.query) = (p.path, p.query) := by
    unfold queryPart
    split
    · exact partition_append h.path.1
    · rename_i hq
      have hq : p.query = [] := by simpa using hq
      rw [List.append_nil, partition_of_not_mem h.path.1, hq]
  simp only [urlsplit, h.strip_eq, h.splitScheme_eq, splitNetloc_join h.netloc h.located, hfragment, hquery]
  have hp : (⟨p.scheme, p.netloc, p.path, p.query, []⟩ : SplitResult) = p := by
    have hf := h.fragment
    cases p
    cases hf
    rfl
  rw [hp]

/-- Joining canonical components loses nothing. -/
theorem urlunsplit_injective {p q : SplitResult} (hp : Canonical p) (hq : Canonical q)
    (h : urlunsplit p = urlunsplit q) : p = q := by
  have h₁ := urlsplit_urlunsplit (fun _ => true) hp
  have h₂ := urlsplit_urlunsplit (fun _ => true) hq
  rw [h] at h₁
  simpa using h₁.symm.trans h₂

/-! ## The components a split finds -/

/-- What holds of the components of any URL. -/
structure WellSplit (p : SplitResult) : Prop where
  scheme : p.scheme = [] ∨ (isScheme p.scheme = true ∧ p.scheme.map Char.toLower = p.scheme)
  clean : ∀ c ∈ p.netloc ++ p.path, isUnsafe c = false
  netloc : ∀ c ∈ p.netloc, netlocEnd c = false
  path : '?' ∉ p.path ∧ '#' ∉ p.path
  located : p.netloc ≠ [] → p.path = [] ∨ rooted p.path = true
  bare : p.scheme = [] → p.netloc = [] → p.path ≠ [] →
    (∃ c s, p.path = c :: s ∧ isC0OrSpace c = false) ∧ hasScheme p.path = false

theorem strip_clean {url : List Char} {c : Char} (h : c ∈ strip url) : isUnsafe c = false := by
  simpa using (List.mem_filter.mp h).2

theorem strip_head {url : List Char} {c : Char} {s : List Char} (h : strip url = c :: s) :
    isC0OrSpace c = false := by
  cases hd : url.dropWhile isC0OrSpace with
  | nil =>
    rw [strip, hd] at h
    cases h
  | cons a t =>
    have ha : isC0OrSpace a = false := by simpa [hd] using List.head?_dropWhile_not isC0OrSpace url
    have hkeep : isUnsafe a = false := by
      by_contra hu
      rw [unsafe_c0 (by simpa using hu)] at ha
      cases ha
    rw [strip, hd, List.filter_cons_of_pos (by simp [hkeep])] at h
    rw [← (List.cons.inj h).1]
    exact ha

theorem schemeChar_toLower {c : Char} (h : schemeChar c = true) : schemeChar c.toLower = true := by
  by_cases hu : c.isUpper
  · simp [schemeChar, Char.isAlphanum, Char.isAlpha, hu]
  · rwa [Char.toLower_eq_of_not_isUpper hu]

theorem isScheme_toLower {s : List Char} (h : isScheme s = true) : isScheme (s.map Char.toLower) = true := by
  obtain ⟨c, t, rfl, hc, hall⟩ := isScheme_cons h
  simp only [List.map_cons, isScheme, Bool.and_eq_true, List.all_eq_true]
  constructor
  · rw [Char.isAlpha_toLower_eq_isAlpha, hc]
  · intro d hd
    rw [← List.map_cons] at hd
    obtain ⟨e, he, rfl⟩ := List.mem_map.mp hd
    exact schemeChar_toLower (hall e he)

theorem partition_subset (sep : Char) (s : List Char) : (partition sep s).1 ⊆ s ∧ (partition sep s).2 ⊆ s := by
  constructor
  · exact (List.takeWhile_sublist _).subset
  · exact ((List.drop_sublist 1 _).trans (List.dropWhile_sublist _)).subset

theorem not_mem_partition (sep : Char) (s : List Char) : sep ∉ (partition sep s).1 := by
  intro h
  have := List.mem_takeWhile_imp h
  simp at this

/-- What the first part leaves is empty or starts with the separator. -/
theorem partition_prefix (sep : Char) (s : List Char) :
    ∃ r, s = (partition sep s).1 ++ r ∧ (r = [] ∨ ∃ t, r = sep :: t) := by
  refine ⟨s.dropWhile (· ≠ sep), List.takeWhile_append_dropWhile.symm, ?_⟩
  cases hd : s.dropWhile (· ≠ sep) with
  | nil => exact .inl rfl
  | cons a t =>
    have ha := List.head?_dropWhile_not (fun c => decide (c ≠ sep)) s
    rw [hd] at ha
    have he : a = sep := by simpa using ha
    exact .inr ⟨t, by rw [he]⟩

theorem hasScheme_of_prefix {s q : List Char} (h : hasScheme s = true) : hasScheme (s ++ q) = true := by
  have hc : ':' ∈ s := by
    by_contra hc
    simp [hasScheme, hc] at h
  obtain ⟨a, b, rfl, ha⟩ := List.eq_append_cons_of_mem hc
  have htake (t : List Char) : (a ++ ':' :: t).takeWhile (· ≠ ':') = a :=
    congrArg Prod.fst (partition_append ha (t := t))
  rw [hasScheme, htake] at h
  rw [hasScheme, List.append_assoc, List.cons_append, htake]
  simpa using h

theorem splitScheme_cases (url : List Char) :
    (hasScheme url = false ∧ splitScheme url = ([], url)) ∨
    (∃ s, isScheme s = true ∧ (splitScheme url).1 = s.map Char.toLower ∧ (splitScheme url).2 ⊆ url) := by
  by_cases h : hasScheme url = true
  · right
    refine ⟨(partition ':' url).1, ?_, ?_, ?_⟩
    · simp only [hasScheme, Bool.and_eq_true] at h
      exact h.2
    · rw [splitScheme, if_pos h]
    · rw [splitScheme, if_pos h]
      exact (partition_subset ':' url).2
  · left
    have h : hasScheme url = false := by simpa using h
    exact ⟨h, splitScheme_none h⟩

/-- A location is followed by an end character or by nothing; without one the
URL is as it was, or starts over behind two slashes. -/
theorem splitNetloc_cases (url : List Char) :
    (splitNetloc url = ([], url) ∧ doubleRooted url = false) ∨
    (∃ rest, url = '/' :: '/' :: (splitNetloc url).1 ++ (splitNetloc url).2 ∧
      (splitNetloc url).2 = rest ∧ (rest = [] ∨ ∃ c t, rest = c :: t ∧ netlocEnd c = true)) := by
  by_cases h : doubleRooted url = true
  · right
    obtain ⟨t, rfl⟩ := doubleRooted_iff.mp h
    refine ⟨_, ?_, rfl, ?_⟩
    · rw [splitNetloc, List.cons_append, List.cons_append, List.takeWhile_append_dropWhile]
    · rw [splitNetloc]
      cases hd : t.dropWhile (fun c => !netlocEnd c) with
      | nil => exact .inl rfl
      | cons a r =>
        have ha := List.head?_dropWhile_not (fun c => !netlocEnd c) t
        rw [hd] at ha
        exact .inr ⟨a, r, rfl, by simpa using ha⟩
  · left
    have h : doubleRooted url = false := by simpa using h
    exact ⟨splitNetloc_of_not h, h⟩

theorem netloc_chars {url : List Char} {c : Char} (h : c ∈ (splitNetloc url).1) : netlocEnd c = false := by
  unfold splitNetloc at h
  split at h
  · simpa using List.mem_takeWhile_imp h
  · cases h

/-- The path of what follows the location. -/
def pathOf (rest : List Char) : List Char := (partition '?' (partition '#' rest).1).1

theorem pathOf_spec (rest : List Char) : ('?' ∉ pathOf rest ∧ '#' ∉ pathOf rest) ∧ ∃ r, rest = pathOf rest ++ r := by
  obtain ⟨r, hr, -⟩ := partition_prefix '#' rest
  obtain ⟨t, ht, -⟩ := partition_prefix '?' (partition '#' rest).1
  refine ⟨⟨not_mem_partition _ _, ?_⟩, t ++ r, ?_⟩
  · exact fun h => not_mem_partition '#' rest ((partition_subset '?' _).1 h)
  · rw [pathOf, ← List.append_assoc, ← ht, ← hr]

/-- Behind an end character the path is empty or rooted. -/
theorem pathOf_located {rest : List Char} (h : rest = [] ∨ ∃ c t, rest = c :: t ∧ netlocEnd c = true) :
    pathOf rest = [] ∨ rooted (pathOf rest) = true := by
  obtain ⟨⟨hq, hf⟩, r, hr⟩ := pathOf_spec rest
  generalize pathOf rest = path at *
  cases path with
  | nil => exact .inl rfl
  | cons a path =>
    right
    obtain rfl | ⟨c, t, rfl, hc⟩ := h
    · cases hr
    · cases hr
      simp only [netlocEnd, Bool.or_eq_true, decide_eq_true_eq] at hc
      obtain ((rfl | rfl) | rfl) := hc
      · rfl
      · exact absurd (List.mem_cons_self ..) hq
      · exact absurd (List.mem_cons_self ..) hf

theorem splitNetloc_subset (url : List Char) : (splitNetloc url).1 ⊆ url ∧ (splitNetloc url).2 ⊆ url := by
  cases splitNetloc_cases url with
  | inl h => rw [h.1]; simp
  | inr h =>
    obtain ⟨rest, hurl, -, -⟩ := h
    constructor
    · intro c hc
      rw [hurl]
      simp [hc]
    · intro c hc
      rw [hurl]
      simp [hc]

/-- The components of a URL that splits. -/
theorem urlsplit_eq {valid : List Char → Bool} {url : List Char} {p : SplitResult} (h : urlsplit valid url = some p) :
    p.scheme = (splitScheme (strip url)).1 ∧ p.netloc = (splitNetloc (splitScheme (strip url)).2).1 ∧
      p.path = pathOf (splitNetloc (splitScheme (strip url)).2).2 ∧ (p.netloc = [] ∨ valid p.netloc = true) := by
  simp only [urlsplit] at h
  split at h
  · rename_i hok
    cases h
    exact ⟨rfl, rfl, rfl, by simpa using hok⟩
  · cases h

theorem wellSplit {valid : List Char → Bool} {url : List Char} {p : SplitResult} (h : urlsplit valid url = some p) :
    WellSplit p := by
  obtain ⟨hscheme, hnetloc, hpath, -⟩ := urlsplit_eq h
  have hsub : (splitScheme (strip url)).2 ⊆ strip url := by
    obtain ⟨-, he⟩ | ⟨s, -, -, hs⟩ := splitScheme_cases (strip url)
    · rw [he]; simp
    · exact hs
  obtain ⟨hnsub, hrsub⟩ := splitNetloc_subset (splitScheme (strip url)).2
  obtain ⟨hmarks, r, hr⟩ := pathOf_spec (splitNetloc (splitScheme (strip url)).2).2
  constructor
  · obtain ⟨-, he⟩ | ⟨s, hs, he, -⟩ := splitScheme_cases (strip url)
    · exact .inl (by rw [hscheme, he])
    · right
      rw [hscheme, he]
      exact ⟨isScheme_toLower hs, by simp⟩
  · intro c hc
    rw [hnetloc, hpath, List.mem_append] at hc
    cases hc with
    | inl hc => exact strip_clean (hsub (hnsub hc))
    | inr hc => exact strip_clean (hsub (hrsub (by rw [hr]; exact List.mem_append_left _ hc)))
  · intro c hc
    rw [hnetloc] at hc
    exact netloc_chars hc
  · rw [hpath]
    exact hmarks
  · intro hne
    rw [hpath]
    rw [hnetloc] at hne
    obtain ⟨he, -⟩ | ⟨rest, -, he, hrest⟩ := splitNetloc_cases (splitScheme (strip url)).2
    · rw [he] at hne
      exact absurd rfl hne
    · rw [he]
      exact pathOf_located hrest
  · intro hs hn hne
    obtain ⟨hnone, he⟩ | ⟨s, hs', he, -⟩ := splitScheme_cases (strip url)
    · rw [he] at hpath hr
      rw [hpath] at hne ⊢
      obtain ⟨hsplit, -⟩ | ⟨rest, -, hsplit, hrest⟩ := splitNetloc_cases (strip url)
      · rw [hsplit] at hr hne ⊢
        generalize pathOf (strip url) = path at *
        cases path with
        | nil => exact absurd rfl hne
        | cons a path =>
          refine ⟨⟨a, path, rfl, strip_head hr⟩, ?_⟩
          by_contra hhas
          have := hasScheme_of_prefix (q := r) (by simpa using hhas : hasScheme (a :: path) = true)
          rw [← hr, hnone] at this
          cases this
      · have hroot := (pathOf_located hrest).resolve_left (by rwa [← hsplit])
        rw [← hsplit] at hroot
        obtain ⟨t, ht⟩ := rooted_iff.mp hroot
        rw [ht]
        exact ⟨⟨_, _, rfl, by decide⟩, hasScheme_rooted t⟩
    · rw [hscheme, he] at hs
      obtain ⟨c, t, rfl, -, -⟩ := isScheme_cons hs'
      cases hs

end UrlParse
