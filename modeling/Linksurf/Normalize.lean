import Linksurf.Lowercase
import Linksurf.UrlParse

/-!
# Normalized URLs

`normalize_url` and the `URL` class. Strings are lists of characters. A URL is
normalized by every constructor call on its way through the pipeline, so what
matters is that a normalized address is left alone.
-/
namespace Linksurf

open Lowercase UrlParse Percent

/-- What the pipeline takes from its libraries besides splitting and joining
URLs: the case mappings, the checks of a network location that depend on the
Unicode data and on `ipaddress`, the hexadecimal SHA-256 of octets, `urljoin`
with `none` where it raises, and `mmh3.hash`. -/
structure Runtime extends CaseTable where
  netlocValid : List Char → Bool
  sha256 : List Nat → String
  urljoin : List Char → List Char → Option (List Char)
  mmh3 : String → Nat

/-- `_TRACKING_PARAMS`. -/
def TRACKING_PARAMS : List String :=
  [ "utm_source", "utm_medium", "utm_campaign", "utm_term", "utm_content",
    "utm_id", "utm_source_platform", "utm_creative_format", "utm_marketing_tactic",
    "gclid", "gclsrc", "gbraid", "wbraid", "dclid",
    "fbclid", "fb_action_ids", "fb_action_types", "fb_source",
    "msclkid",
    "hsa_acc", "hsa_cam", "hsa_grp", "hsa_ad", "hsa_src", "hsa_tgt",
    "hsa_kw", "hsa_mt", "hsa_net", "hsa_ver",
    "mc_cid", "mc_eid",
    "yclid", "igshid", "twclid", "_hsenc", "_hsmi",
    "ref", "referrer" ]

def http : List Char := "http".toList
def https : List Char := "https".toList

/-- The default port is split off at the last colon. -/
def stripDefaultPort (scheme domain : List Char) : List Char :=
  if ':' ∈ domain then
    let parts := rpartition ':' domain
    if (scheme = http && parts.2 = "80".toList) || (scheme = https && parts.2 = "443".toList) then parts.1
    else domain
  else domain

/-- Python's order of pairs of strings. -/
def PairLE (p q : List Char × List Char) : Prop := toLex p ≤ toLex q

instance : DecidableRel PairLE := fun p q => inferInstanceAs (Decidable (toLex p ≤ toLex q))

namespace Runtime

variable (rt : Runtime)

/-- `k.lower() in _TRACKING_PARAMS`. -/
def tracking (k : List Char) : Bool := (TRACKING_PARAMS.map String.toList).contains (rt.lower k)

/-- The parameters that stay, as they are written into the normalized query. -/
def keptParams (query : List Char) : List (List Char × List Char) :=
  ((parseQsl query).filter (fun p => !rt.tracking p.1)).insertionSort PairLE

/-- The components `normalize_url` joins. -/
def normalizeParts (split : SplitResult) : SplitResult where
  scheme := rt.lower split.scheme
  netloc := stripDefaultPort (rt.lower split.scheme) (rt.lower split.netloc)
  path := if split.path = [] then ['/'] else split.path
  query := urlencode (rt.keptParams split.query)
  fragment := []

/-- `normalize_url`, `none` where it raises. -/
def normalizeUrl (url : List Char) : Option (List Char) :=
  (urlsplit rt.netlocValid url).map (fun split => urlunsplit (rt.normalizeParts split))

/-- `SplitResult.hostname`: in lower case up to the zone of an address. -/
def hostname (netloc : List Char) : Option (List Char) :=
  let host := (hostinfo netloc).1
  if host = [] then none
  else some (rt.lower (host.takeWhile (· ≠ '%')) ++ host.dropWhile (· ≠ '%'))

end Runtime

/-- The attributes of a `URL`. -/
structure URL where
  scheme : List Char
  domain : Option (List Char)
  netloc : List Char
  path : List Char
  query : List Char
  fragment : List Char
  port : Nat
  deriving DecidableEq

namespace URL

/-- `split.port` where it is given and not zero, else the default. -/
def portOr (scheme : List Char) : Option Nat → Nat
  | some (n + 1) => n + 1
  | _ => if scheme = http then 80 else 443

/-- The attributes taken from the split of a normalized address. -/
def ofSplit (rt : Runtime) (split : SplitResult) (port : Option Nat) : URL where
  scheme := split.scheme
  domain := rt.hostname split.netloc
  netloc := split.netloc
  path := split.path
  query := split.query
  fragment := split.fragment
  port := portOr split.scheme port

/-- `URL(address)`, `none` where it raises. -/
def ofAddress (rt : Runtime) (address : List Char) : Option URL := do
  let normalized ← rt.normalizeUrl address
  let split ← urlsplit rt.netlocValid normalized
  let port ← UrlParse.port split.netloc
  return ofSplit rt split port

def address (url : URL) : List Char := urlunsplit ⟨url.scheme, url.netloc, url.path, url.query, url.fragment⟩

/-- `hash_url` of the address. -/
def hash (rt : Runtime) (url : URL) : String := rt.sha256 (Utf8.encode url.address)

end URL

/-- The runtime for texts whose only letters are ASCII ones. -/
def asciiRuntime : Runtime where
  toCaseTable := asciiTable
  netlocValid _ := true
  sha256 bytes := toString bytes
  urljoin _ url := some url
  mmh3 s := s.length

/-! ## The default port -/

/-- The written default port of a scheme. -/
def portSuffix (scheme : List Char) : Option (List Char) :=
  if scheme = http then some "80".toList else if scheme = https then some "443".toList else none

theorem rpartition_append {sep : Char} {t : List Char} (h : sep ∉ t) (s : List Char) :
    rpartition sep (s ++ sep :: t) = (s, t) := by
  have hnot : sep ∉ t.reverse := fun hc => h (List.mem_reverse.mp hc)
  have ht := forall_ne_of_not_mem hnot
  have hrev : (s ++ sep :: t).reverse = t.reverse ++ sep :: s.reverse := by simp
  rw [rpartition, if_pos (by simp), hrev, List.takeWhile_append_of_pos ht, List.dropWhile_append_of_pos ht]
  simp

theorem rpartition_spec {sep : Char} {s : List Char} (h : sep ∈ s) :
    s = (rpartition sep s).1 ++ sep :: (rpartition sep s).2 := by
  obtain ⟨a, b, hab, hb⟩ := List.eq_append_cons_of_mem (List.mem_reverse.mpr h)
  have hs : s = b.reverse ++ sep :: a.reverse := by
    rw [← List.reverse_reverse s, hab]
    simp
  rw [hs, rpartition_append (by simpa using hb)]

theorem portSuffix_digits {scheme t : List Char} (h : portSuffix scheme = some t) : ':' ∉ t := by
  unfold portSuffix at h
  split at h
  · cases h; decide
  split at h
  · cases h; decide
  · cases h

theorem http_ne_https : http ≠ https := by decide

theorem isDefault_iff {scheme t : List Char} :
    ((scheme = http && t = "80".toList) || (scheme = https && t = "443".toList)) = true ↔
      portSuffix scheme = some t := by
  unfold portSuffix
  simp only [Bool.or_eq_true, Bool.and_eq_true, decide_eq_true_eq]
  split
  · rename_i h
    simp [h, http_ne_https, eq_comm]
  split
  · rename_i h₁ h₂
    simp [h₂, http_ne_https.symm, eq_comm]
  · rename_i h₁ h₂
    simp [h₁, h₂]

/-- The default port is taken off where it is the end of the location. -/
theorem stripDefaultPort_of_suffix {scheme t : List Char} (h : portSuffix scheme = some t) (s : List Char) :
    stripDefaultPort scheme (s ++ ':' :: t) = s := by
  rw [stripDefaultPort, if_pos (by simp), rpartition_append (portSuffix_digits h)]
  exact if_pos (isDefault_iff.mpr h)

/-- Anything else stays. -/
theorem stripDefaultPort_of_not {scheme domain : List Char}
    (h : ∀ t s, portSuffix scheme = some t → domain ≠ s ++ ':' :: t) : stripDefaultPort scheme domain = domain := by
  unfold stripDefaultPort
  split
  · rename_i hc
    apply if_neg
    intro hp
    exact h _ _ (isDefault_iff.mp hp) (rpartition_spec hc)
  · rfl

/-- The location is the result followed by the default port, or by nothing. -/
theorem stripDefaultPort_cases (scheme domain : List Char) :
    (∃ t, portSuffix scheme = some t ∧ domain = stripDefaultPort scheme domain ++ ':' :: t) ∨
    stripDefaultPort scheme domain = domain := by
  by_cases h : ∃ t s, portSuffix scheme = some t ∧ domain = s ++ ':' :: t
  · obtain ⟨t, s, ht, rfl⟩ := h
    exact .inl ⟨t, ht, by rw [stripDefaultPort_of_suffix ht]⟩
  · right
    apply stripDefaultPort_of_not
    intro t s ht hs
    exact h ⟨t, s, ht, hs⟩

theorem stripDefaultPort_subset (scheme domain : List Char) : stripDefaultPort scheme domain ⊆ domain := by
  cases stripDefaultPort_cases scheme domain with
  | inl h =>
    obtain ⟨t, -, h⟩ := h
    intro c hc
    rw [h]
    exact List.mem_append_left _ hc
  | inr h => rw [h]; exact fun c hc => hc

/-- A location that ends in its default port twice. -/
def DoubledPort (scheme domain : List Char) : Prop :=
  ∃ t s, portSuffix scheme = some t ∧ domain = s ++ ':' :: t ++ ':' :: t

/-- Taking the default port off once is enough unless it stands there twice. -/
theorem stripDefaultPort_twice_iff (scheme domain : List Char) :
    stripDefaultPort scheme (stripDefaultPort scheme domain) = stripDefaultPort scheme domain ↔
      ¬ DoubledPort scheme domain := by
  constructor
  · rintro h ⟨t, s, ht, rfl⟩
    rw [stripDefaultPort_of_suffix ht, stripDefaultPort_of_suffix ht] at h
    have := congrArg List.length h
    simp at this
  · intro h
    cases stripDefaultPort_cases scheme domain with
    | inr he => rw [he, he]
    | inl he =>
      obtain ⟨t, ht, hd⟩ := he
      apply stripDefaultPort_of_not
      intro t' s ht' hs
      obtain rfl := Option.some.inj (ht.symm.trans ht')
      exact h ⟨t, s, ht, by rw [hd, hs]⟩

/-! ## The parameters -/

instance : Std.Total PairLE := ⟨fun p q => le_total (toLex p) (toLex q)⟩

instance : IsTrans _ PairLE := ⟨fun _ _ _ h₁ h₂ => le_trans h₁ h₂⟩

instance : Std.Antisymm PairLE := ⟨fun _ _ h₁ h₂ => toLex.injective (le_antisymm h₁ h₂)⟩

namespace Runtime

variable (rt : Runtime)

/-- The parameters that stay, in the order of the query. -/
def retained (query : List Char) : List (List Char × List Char) := (parseQsl query).filter (fun p => !rt.tracking p.1)

theorem keptParams_perm (query : List Char) : (rt.keptParams query).Perm (rt.retained query) :=
  List.perm_insertionSort PairLE _

theorem keptParams_sorted (query : List Char) : (rt.keptParams query).Pairwise PairLE :=
  List.pairwise_insertionSort PairLE _

/-- The order of the parameters does not matter, everything else does. -/
theorem keptParams_eq_iff (q q' : List Char) :
    rt.keptParams q = rt.keptParams q' ↔ (rt.retained q).Perm (rt.retained q') := by
  constructor
  · intro h
    calc (rt.retained q).Perm (rt.keptParams q) := (rt.keptParams_perm q).symm
      _ = rt.keptParams q' := h
      _ |>.Perm (rt.retained q') := rt.keptParams_perm q'
  · intro h
    have hperm := ((rt.keptParams_perm q).trans h).trans (rt.keptParams_perm q').symm
    exact hperm.eq_of_pairwise' (rt.keptParams_sorted q) (rt.keptParams_sorted q')

/-- A normalized query keeps its parameters in their order. -/
theorem keptParams_urlencode (query : List Char) :
    rt.keptParams (urlencode (rt.keptParams query)) = rt.keptParams query := by
  have hfilter : (rt.keptParams query).filter (fun p => !rt.tracking p.1) = rt.keptParams query := by
    apply List.filter_eq_self.mpr
    intro p hp
    exact (List.mem_filter.mp ((rt.keptParams_perm query).mem_iff.mp hp)).2
  conv_lhs => rw [keptParams, parseQsl_urlencode, hfilter]
  exact (rt.keptParams_sorted query).insertionSort_eq

/-! ## Normalized components -/

theorem toLower_of_map {s : List Char} (h : s.map Char.toLower = s) : ∀ c ∈ s, c.toLower = c := by
  induction s with
  | nil => intro c hc; cases hc
  | cons d s ih =>
    obtain ⟨hd, hs⟩ := List.cons.inj h
    intro c hc
    cases List.mem_cons.mp hc with
    | inl he => rw [he, hd]
    | inr hc => exact ih hs c hc

variable {rt}

/-- The scheme of a split is in lower case. -/
theorem lower_scheme {p : SplitResult} (h : WellSplit p) : rt.lower p.scheme = p.scheme := by
  cases h.scheme with
  | inl hs => rw [hs]; rfl
  | inr hs =>
    obtain ⟨hscheme, hlower⟩ := hs
    obtain ⟨c, t, -, -, hall⟩ := isScheme_cons hscheme
    apply CaseTable.lower_of_stable
    apply CaseTable.stable_of_ascii
    intro d hd
    exact ⟨(schemeChar_range (hall d hd)).2.1, toLower_of_map hlower d hd⟩

/-- Every delimiter of the normalized location stood in the location. -/
theorem mem_netloc {p : SplitResult} {c : Char} (h : c ∈ (rt.normalizeParts p).netloc) (hc : c.toNat < 0x80)
    (ha : c.isAlpha = false) : c ∈ p.netloc :=
  CaseTable.mem_of_mem_lower (stripDefaultPort_subset _ _ h) hc ha

theorem netlocEnd_delimiter {c : Char} (h : netlocEnd c = true) : c.toNat < 0x80 ∧ c.isAlpha = false := by
  simp only [netlocEnd, Bool.or_eq_true, decide_eq_true_eq] at h
  obtain ((rfl | rfl) | rfl) := h <;> decide

theorem isUnsafe_delimiter {c : Char} (h : isUnsafe c = true) : c.toNat < 0x80 ∧ c.isAlpha = false := by
  simp only [isUnsafe, Bool.or_eq_true, decide_eq_true_eq] at h
  obtain ((rfl | rfl) | rfl) := h <;> decide

theorem netloc_nil {p : SplitResult} (h : p.netloc = []) : (rt.normalizeParts p).netloc = [] := by
  have hlower : rt.lower p.netloc = [] := by rw [h]; rfl
  simp [normalizeParts, hlower, stripDefaultPort]

/-- What `normalize_url` joins is canonical. -/
theorem normalizeParts_canonical {p : SplitResult} (h : WellSplit p) : Canonical (rt.normalizeParts p) := by
  have hpath : (rt.normalizeParts p).path = ['/'] ∨ ((rt.normalizeParts p).path = p.path ∧ p.path ≠ []) := by
    unfold normalizeParts
    dsimp only
    split
    · exact .inl rfl
    · rename_i hne
      exact .inr ⟨rfl, hne⟩
  constructor
  · change rt.lower p.scheme = [] ∨ _
    rw [show (rt.normalizeParts p).scheme = rt.lower p.scheme from rfl, lower_scheme h]
    exact h.scheme
  · intro c hc
    by_contra hu
    obtain ⟨hascii, halpha⟩ := isUnsafe_delimiter (by simpa using hu)
    rw [List.mem_append, List.mem_append] at hc
    obtain (hc | hc) | hc := hc
    · exact hu (h.clean c (List.mem_append_left _ (mem_netloc hc hascii halpha)))
    · cases hpath with
      | inl hp =>
        rw [hp] at hc
        obtain rfl := List.mem_singleton.mp hc
        exact hu (by decide)
      | inr hp =>
        rw [hp.1] at hc
        exact hu (h.clean c (List.mem_append_right _ hc))
    · have hq := mem_urlencode hc
      simp only [isUnsafe, Bool.or_eq_true, decide_eq_true_eq, Bool.not_eq_false] at hu
      obtain ((rfl | rfl) | rfl) := hu <;> simp at hq
  · intro c hc
    by_contra he
    have he : netlocEnd c = true := by simpa using he
    obtain ⟨hascii, halpha⟩ := netlocEnd_delimiter he
    rw [h.netloc c (mem_netloc hc hascii halpha)] at he
    cases he
  · cases hpath with
    | inl hp => rw [hp]; decide
    | inr hp => rw [hp.1]; exact h.path
  · constructor
    · intro hc
      have := mem_urlencode hc
      simp at this
    · intro hc
      have := mem_urlencode hc
      simp at this
  · intro hne
    cases hpath with
    | inl hp => rw [hp]; rfl
    | inr hp =>
      rw [hp.1]
      exact (h.located (fun hn => hne (netloc_nil hn))).resolve_left hp.2
  · intro hs hn
    rw [show (rt.normalizeParts p).scheme = rt.lower p.scheme from rfl, lower_scheme h] at hs
    cases hpath with
    | inl hp => rw [hp]; exact ⟨⟨_, _, rfl, by decide⟩, hasScheme_rooted []⟩
    | inr hp =>
      rw [hp.1]
      by_cases hloc : p.netloc = []
      · exact h.bare hs hloc hp.2
      · obtain ⟨t, ht⟩ := rooted_iff.mp ((h.located hloc).resolve_left hp.2)
        rw [ht]
        exact ⟨⟨_, _, rfl, by decide⟩, hasScheme_rooted t⟩
  · rfl

/-- A normalized location is in lower case. -/
theorem lower_netloc (p : SplitResult) : rt.lower (rt.normalizeParts p).netloc = (rt.normalizeParts p).netloc :=
  CaseTable.lower_of_stable ((CaseTable.lower_stable p.netloc).of_subset (stripDefaultPort_subset _ _))

/-- Normalizing again can only take a default port off. -/
theorem normalizeParts_twice {p : SplitResult} (h : WellSplit p) :
    rt.normalizeParts (rt.normalizeParts p) =
      { rt.normalizeParts p with netloc := stripDefaultPort p.scheme (rt.normalizeParts p).netloc } := by
  have hscheme : rt.lower (rt.normalizeParts p).scheme = p.scheme := by
    rw [show (rt.normalizeParts p).scheme = rt.lower p.scheme from rfl, CaseTable.lower_lower, lower_scheme h]
  have hpath : (rt.normalizeParts p).path ≠ [] := by
    unfold normalizeParts
    dsimp only
    split
    · simp
    · assumption
  have hquery : urlencode (rt.keptParams (rt.normalizeParts p).query) = (rt.normalizeParts p).query :=
    congrArg urlencode (rt.keptParams_urlencode p.query)
  have hs : (rt.normalizeParts p).scheme = p.scheme := lower_scheme h
  conv_lhs => rw [normalizeParts, hscheme, lower_netloc, if_neg hpath, hquery]
  change _ = SplitResult.mk (rt.normalizeParts p).scheme _ _ _ []
  rw [hs]

theorem normalizeParts_twice_iff {p : SplitResult} (h : WellSplit p) :
    rt.normalizeParts (rt.normalizeParts p) = rt.normalizeParts p ↔ ¬ DoubledPort p.scheme (rt.lower p.netloc) := by
  rw [normalizeParts_twice h, ← stripDefaultPort_twice_iff]
  have hnetloc : (rt.normalizeParts p).netloc = stripDefaultPort p.scheme (rt.lower p.netloc) := by
    rw [normalizeParts, lower_scheme h]
  constructor
  · intro he
    have := congrArg SplitResult.netloc he
    rwa [hnetloc] at this
  · intro he
    rw [hnetloc, he, ← hnetloc]

variable (rt) in
/-- The location of a URL ends in the default port of its scheme twice. -/
def DoublesPort (url : List Char) : Prop :=
  ∃ p, urlsplit rt.netlocValid url = some p ∧ DoubledPort p.scheme (rt.lower p.netloc)

/-- The normalized address splits into the normalized components. -/
theorem ofAddress_eq_some {s : List Char} {url : URL} (h : URL.ofAddress rt s = some url) :
    ∃ p port, urlsplit rt.netlocValid s = some p ∧ rt.normalizeUrl s = some (urlunsplit (rt.normalizeParts p)) ∧
      urlsplit rt.netlocValid (urlunsplit (rt.normalizeParts p)) = some (rt.normalizeParts p) ∧
      UrlParse.port (rt.normalizeParts p).netloc = some port ∧ url = URL.ofSplit rt (rt.normalizeParts p) port := by
  obtain ⟨n, hn, h⟩ := Option.bind_eq_some_iff.mp h
  obtain ⟨q, hq, h⟩ := Option.bind_eq_some_iff.mp h
  obtain ⟨port, hport, h⟩ := Option.bind_eq_some_iff.mp h
  obtain ⟨p, hp, rfl⟩ := Option.map_eq_some_iff.mp hn
  have hcanonical : Canonical (rt.normalizeParts p) := normalizeParts_canonical (wellSplit hp)
  have hsplit := urlsplit_urlunsplit rt.netlocValid hcanonical
  rw [hq] at hsplit
  split at hsplit
  · cases hsplit
    exact ⟨p, port, hp, hn, hq, hport, (Option.some.inj h).symm⟩
  · cases hsplit

end Runtime

/-- The location of a URL ends in the default port of its scheme. -/
def URL.EndsInDefaultPort (url : URL) : Prop :=
  ∃ t s, portSuffix url.scheme = some t ∧ url.netloc = s ++ ':' :: t

theorem URL.not_endsInDefaultPort_iff {url : URL} :
    ¬ url.EndsInDefaultPort ↔ stripDefaultPort url.scheme url.netloc = url.netloc := by
  constructor
  · intro h
    apply stripDefaultPort_of_not
    exact fun t s ht hs => h ⟨t, s, ht, hs⟩
  · rintro h ⟨t, s, ht, hs⟩
    rw [hs, stripDefaultPort_of_suffix ht] at h
    have := congrArg List.length h
    simp at this

/-- URLs with one address are the same. -/
theorem URL.eq_of_address {rt : Runtime} {s s' : List Char} {u v : URL} (hu : URL.ofAddress rt s = some u)
    (hv : URL.ofAddress rt s' = some v) (h : u.address = v.address) : u = v := by
  obtain ⟨p, port, hp, -, -, hport, rfl⟩ := Runtime.ofAddress_eq_some hu
  obtain ⟨q, port', hq, -, -, hport', rfl⟩ := Runtime.ofAddress_eq_some hv
  have hparts : rt.normalizeParts p = rt.normalizeParts q := urlunsplit_injective
    (Runtime.normalizeParts_canonical (wellSplit hp)) (Runtime.normalizeParts_canonical (wellSplit hq)) h
  rw [hparts, hport'] at hport
  rw [hparts, Option.some.inj hport]

/-- Built from its address, a URL only loses a default port. -/
theorem URL.ofAddress_address {rt : Runtime} {s : List Char} {u v : URL} (hu : URL.ofAddress rt s = some u)
    (hv : URL.ofAddress rt u.address = some v) : v.scheme = u.scheme ∧
      v.netloc = stripDefaultPort u.scheme u.netloc ∧ v.path = u.path ∧ v.query = u.query ∧ v.fragment = u.fragment := by
  obtain ⟨p, port, hp, -, hq, -, rfl⟩ := Runtime.ofAddress_eq_some hu
  obtain ⟨q, port', hq', -, -, -, rfl⟩ := Runtime.ofAddress_eq_some hv
  obtain rfl : rt.normalizeParts p = q := Option.some.inj (hq.symm.trans hq')
  have hscheme : (rt.normalizeParts p).scheme = p.scheme := Runtime.lower_scheme (wellSplit hp)
  simp only [URL.ofSplit, Runtime.normalizeParts_twice (wellSplit hp), hscheme, and_self]

/-- Two URLs that end in their default ports and arrive as one are the same. -/
theorem URL.eq_of_rebuilt {rt : Runtime} {s s' : List Char} {u u' v : URL} (hu : URL.ofAddress rt s = some u)
    (hu' : URL.ofAddress rt s' = some u') (hv : URL.ofAddress rt u.address = some v)
    (hv' : URL.ofAddress rt u'.address = some v) (h : u.EndsInDefaultPort) (h' : u'.EndsInDefaultPort) :
    u.address = u'.address := by
  obtain ⟨t, r, ht, hr⟩ := h
  obtain ⟨t', r', ht', hr'⟩ := h'
  obtain ⟨hscheme, hnetloc, hpath, hquery, hfragment⟩ := URL.ofAddress_address hu hv
  obtain ⟨hscheme', hnetloc', hpath', hquery', hfragment'⟩ := URL.ofAddress_address hu' hv'
  rw [hr, stripDefaultPort_of_suffix ht] at hnetloc
  rw [hr', stripDefaultPort_of_suffix ht'] at hnetloc'
  have hsame : u.scheme = u'.scheme := hscheme.symm.trans hscheme'
  rw [← hsame, ht] at ht'
  obtain rfl := Option.some.inj ht'
  rw [URL.address, URL.address, hr, hr', ← hnetloc, ← hnetloc', ← hsame, ← hpath, ← hpath', ← hquery, ← hquery',
    ← hfragment, ← hfragment']

/-- The URL of an address is the URL the address was read from exactly where
no default port is left to take off. -/
theorem URL.ofAddress_address_iff {rt : Runtime} {s : List Char} {url : URL} (h : URL.ofAddress rt s = some url) :
    URL.ofAddress rt url.address = some url ↔ ¬ url.EndsInDefaultPort := by
  rw [URL.not_endsInDefaultPort_iff]
  constructor
  · intro hagain
    obtain ⟨-, hnetloc, -⟩ := URL.ofAddress_address h hagain
    exact hnetloc.symm
  · intro hstrip
    obtain ⟨p, port, hp, hn, hq, hport, rfl⟩ := Runtime.ofAddress_eq_some h
    have hscheme : (rt.normalizeParts p).scheme = p.scheme := Runtime.lower_scheme (wellSplit hp)
    have hnetloc : stripDefaultPort p.scheme (rt.normalizeParts p).netloc = (rt.normalizeParts p).netloc :=
      hscheme ▸ hstrip
    have hfix : rt.normalizeParts (rt.normalizeParts p) = rt.normalizeParts p := by
      rw [Runtime.normalizeParts_twice (wellSplit hp), hnetloc]
    have hagain : rt.normalizeUrl (urlunsplit (rt.normalizeParts p)) = some (urlunsplit (rt.normalizeParts p)) := by
      rw [Runtime.normalizeUrl, hq, Option.map_some, hfix]
    have haddress : (URL.ofSplit rt (rt.normalizeParts p) port).address = urlunsplit (rt.normalizeParts p) := rfl
    rw [haddress, URL.ofAddress, hagain]
    change (urlsplit rt.netlocValid (urlunsplit (rt.normalizeParts p))).bind _ = _
    rw [hq]
    change (UrlParse.port (rt.normalizeParts p).netloc).bind _ = _
    rw [hport]
    rfl

/-- A constructed URL is normalized for good exactly where its string does not
end its location in the default port twice: then normalizing the address again
changes nothing, and the URL of the address is the same in every attribute. -/
theorem normalize_idempotent_iff (rt : Runtime) {s : List Char} {url : URL} (h : URL.ofAddress rt s = some url) :
    ((rt.normalizeUrl s).bind rt.normalizeUrl = rt.normalizeUrl s ∧ URL.ofAddress rt url.address = some url) ↔
      ¬ rt.DoublesPort s := by
  rw [URL.ofAddress_address_iff h, URL.not_endsInDefaultPort_iff]
  obtain ⟨p, port, hp, hn, hq, -, rfl⟩ := Runtime.ofAddress_eq_some h
  have hwell := wellSplit hp
  have hscheme : rt.lower p.scheme = p.scheme := Runtime.lower_scheme hwell
  have hiff : rt.normalizeParts (rt.normalizeParts p) = rt.normalizeParts p ↔ _ := Runtime.normalizeParts_twice_iff hwell
  have hdoubles : rt.DoublesPort s ↔ DoubledPort p.scheme (rt.lower p.netloc) := by
    constructor
    · rintro ⟨p', hp', hd⟩
      rw [hp] at hp'
      cases hp'
      exact hd
    · exact fun hd => ⟨p, hp, hd⟩
  have hagain : rt.normalizeUrl (urlunsplit (rt.normalizeParts p)) =
      some (urlunsplit (rt.normalizeParts (rt.normalizeParts p))) := by rw [Runtime.normalizeUrl, hq]; rfl
  rw [hdoubles, ← hiff, hn, Option.bind_some, hagain]
  constructor
  · rintro ⟨he, -⟩
    exact urlunsplit_injective (Runtime.normalizeParts_canonical (wellSplit hq))
      (Runtime.normalizeParts_canonical hwell) (Option.some.inj he)
  · intro he
    refine ⟨by rw [he], ?_⟩
    have hstrip := (stripDefaultPort_twice_iff _ _).mpr (hiff.mp he)
    change stripDefaultPort (rt.lower p.scheme) (stripDefaultPort (rt.lower p.scheme) (rt.lower p.netloc)) = _
    rw [hscheme, hstrip]
    change _ = stripDefaultPort (rt.lower p.scheme) (rt.lower p.netloc)
    rw [hscheme]

/-! A location with its default port once, and one with it twice. -/

def singlePort : List Char := "HTTP://Site:80/?b=1&a=2".toList
def doublePort : List Char := "http://site:80:80/".toList

theorem not_doubled_of_test {rt : Runtime} {s : List Char} {p : SplitResult}
    (hp : urlsplit rt.netlocValid s = some p)
    (h : stripDefaultPort p.scheme (stripDefaultPort p.scheme (rt.lower p.netloc)) =
      stripDefaultPort p.scheme (rt.lower p.netloc)) : ¬ rt.DoublesPort s := by
  rintro ⟨p', hp', hd⟩
  rw [hp] at hp'
  cases hp'
  exact (stripDefaultPort_twice_iff _ _).mp h hd

theorem normalize_idempotent_single : ∃ url, URL.ofAddress asciiRuntime singlePort = some url ∧
    (asciiRuntime.normalizeUrl singlePort).bind asciiRuntime.normalizeUrl = asciiRuntime.normalizeUrl singlePort ∧
    URL.ofAddress asciiRuntime url.address = some url := by
  have hsome : (URL.ofAddress asciiRuntime singlePort).isSome := by decide +kernel
  obtain ⟨url, hurl⟩ := Option.isSome_iff_exists.mp hsome
  have hp : urlsplit asciiRuntime.netlocValid singlePort =
      some ⟨http, "Site:80".toList, "/".toList, "b=1&a=2".toList, []⟩ := by decide +kernel
  exact ⟨url, hurl, (normalize_idempotent_iff asciiRuntime hurl).mpr (not_doubled_of_test hp (by decide +kernel))⟩

/-- `http://site:80:80/` is constructed with the address `http://site:80/`, and
that with `http://site/`. -/
theorem normalize_not_idempotent :
    (URL.ofAddress asciiRuntime doublePort).map (fun url => (url.address, url.netloc)) =
      some ("http://site:80/".toList, "site:80".toList) ∧
    ((URL.ofAddress asciiRuntime doublePort).bind (fun url => URL.ofAddress asciiRuntime url.address)).map
      (fun url => (url.address, url.netloc)) = some ("http://site/".toList, "site".toList) ∧
    (asciiRuntime.normalizeUrl doublePort).bind asciiRuntime.normalizeUrl ≠ asciiRuntime.normalizeUrl doublePort := by
  refine ⟨?_, ?_, ?_⟩ <;> decide +kernel

end Linksurf
