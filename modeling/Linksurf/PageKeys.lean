import Linksurf.Normalize

/-!
# Pages and their keys

The normalized address is the key pages are told apart by. What makes two
addresses one page is stated on their components, with the parameters as pairs
of octet strings; the key sees the parameters as text, in which ill-formed
octets are all alike.
-/
namespace Linksurf

open Lowercase UrlParse Percent

/-- The authority that remains of a location without the default port. -/
def BareAuthority (scheme netloc host : List Char) : Prop :=
  (∃ t, portSuffix scheme = some t ∧ netloc = host ++ ':' :: t) ∨
    (netloc = host ∧ ∀ t s, portSuffix scheme = some t → netloc ≠ s ++ ':' :: t)

theorem bareAuthority_iff {scheme netloc host : List Char} :
    BareAuthority scheme netloc host ↔ stripDefaultPort scheme netloc = host := by
  constructor
  · intro h
    obtain ⟨t, ht, rfl⟩ | ⟨rfl, hnot⟩ := h
    · exact stripDefaultPort_of_suffix ht host
    · exact stripDefaultPort_of_not hnot
  · rintro rfl
    by_cases h : ∃ t s, portSuffix scheme = some t ∧ netloc = s ++ ':' :: t
    · obtain ⟨t, s, ht, rfl⟩ := h
      exact .inl ⟨t, ht, by rw [stripDefaultPort_of_suffix ht]⟩
    · have hnot : ∀ t s, portSuffix scheme = some t → netloc ≠ s ++ ':' :: t :=
        fun t s ht hs => h ⟨t, s, ht, hs⟩
      exact .inr ⟨(stripDefaultPort_of_not hnot).symm, hnot⟩

/-- The path, empty counting as the root. -/
def pagePath (p : SplitResult) : List Char := if p.path = [] then ['/'] else p.path

namespace Runtime

variable (rt : Runtime)

/-- The octets of the parameters that are not tracking ones. -/
def octets (p : SplitResult) : List (List Nat × List Nat) :=
  (formPairs p.query).filter (fun pair => !rt.tracking (Utf8.decode pair.1))

/-- Their text. -/
def texts (p : SplitResult) : List (List Char × List Char) := (rt.octets p).map (Prod.map Utf8.decode Utf8.decode)

/-- The same scheme, authority and path. -/
structure SameResource (p q : SplitResult) : Prop where
  scheme : p.scheme = q.scheme
  authority : ∃ host, BareAuthority p.scheme (rt.lower p.netloc) host ∧ BareAuthority q.scheme (rt.lower q.netloc) host
  path : pagePath p = pagePath q

/-- The same resource with the same parameters, octet for octet, in any order. -/
def SamePage (p q : SplitResult) : Prop := rt.SameResource p q ∧ (rt.octets p).Perm (rt.octets q)

variable {rt}

theorem texts_eq (p : SplitResult) : rt.texts p = rt.retained p.query := by
  rw [texts, octets, retained, parseQsl_eq, List.filter_map]
  rfl

theorem sameResource_iff {p q : SplitResult} (hp : WellSplit p) (hq : WellSplit q) :
    rt.SameResource p q ↔ (rt.normalizeParts p).scheme = (rt.normalizeParts q).scheme ∧
      (rt.normalizeParts p).netloc = (rt.normalizeParts q).netloc ∧
      (rt.normalizeParts p).path = (rt.normalizeParts q).path := by
  simp only [normalizeParts, lower_scheme hp, lower_scheme hq]
  constructor
  · rintro ⟨hs, ⟨host, h₁, h₂⟩, hpath⟩
    exact ⟨hs, (bareAuthority_iff.mp h₁).trans (bareAuthority_iff.mp h₂).symm, hpath⟩
  · rintro ⟨hs, hn, hpath⟩
    exact ⟨hs, ⟨_, bareAuthority_iff.mpr hn, bareAuthority_iff.mpr rfl⟩, hpath⟩

/-- Two strings have one normalized address exactly if they name one resource
with parameters of the same text. -/
theorem normalizeUrl_eq_iff {u v : List Char} {p q : SplitResult} (hu : urlsplit rt.netlocValid u = some p)
    (hv : urlsplit rt.netlocValid v = some q) :
    rt.normalizeUrl u = rt.normalizeUrl v ↔ rt.SameResource p q ∧ (rt.texts p).Perm (rt.texts q) := by
  have hp := wellSplit hu
  have hq := wellSplit hv
  rw [sameResource_iff hp hq, texts_eq, texts_eq, ← keptParams_eq_iff, normalizeUrl, normalizeUrl, hu, hv]
  simp only [Option.map_some, Option.some.injEq]
  constructor
  · intro h
    have he := urlunsplit_injective (normalizeParts_canonical hp) (normalizeParts_canonical hq) h
    have hquery := congrArg (fun parts => parseQsl (SplitResult.query parts)) he
    simp only [normalizeParts, parseQsl_urlencode] at hquery
    exact ⟨⟨congrArg SplitResult.scheme he, congrArg SplitResult.netloc he, congrArg SplitResult.path he⟩, hquery⟩
  · rintro ⟨⟨hs, hn, hpath⟩, hquery⟩
    have he : rt.normalizeParts p = rt.normalizeParts q := by
      have h₁ : (rt.normalizeParts p).query = (rt.normalizeParts q).query := congrArg urlencode hquery
      have h₂ : (rt.normalizeParts p).fragment = (rt.normalizeParts q).fragment := rfl
      generalize rt.normalizeParts p = a at *
      generalize rt.normalizeParts q = b at *
      cases a
      cases b
      simp_all
    rw [he]

end Runtime

/-- The key tells pages apart for two strings unless they name one resource and
their parameters agree as text but not in their octets. -/
theorem key_faithful_iff (rt : Runtime) {u v : List Char} {p q : SplitResult}
    (hu : urlsplit rt.netlocValid u = some p) (hv : urlsplit rt.netlocValid v = some q) :
    (rt.normalizeUrl u = rt.normalizeUrl v ↔ rt.SamePage p q) ↔
      (rt.SameResource p q → (rt.texts p).Perm (rt.texts q) → (rt.octets p).Perm (rt.octets q)) := by
  rw [Runtime.normalizeUrl_eq_iff hu hv, Runtime.SamePage]
  constructor
  · intro h hres htext
    exact (h.mp ⟨hres, htext⟩).2
  · intro h
    constructor
    · rintro ⟨hres, htext⟩
      exact ⟨hres, h hres htext⟩
    · rintro ⟨hres, hoct⟩
      exact ⟨hres, hoct.map _⟩

/-- Parameters that are well-formed UTF-8 are never confused. -/
theorem key_faithful_of_wellFormed (rt : Runtime) {u v : List Char} {p q : SplitResult}
    (hu : urlsplit rt.netlocValid u = some p) (hv : urlsplit rt.netlocValid v = some q)
    (h : ∀ pair ∈ rt.octets p ++ rt.octets q, Prod.map Utf8.encode Utf8.encode
      (Prod.map Utf8.decode Utf8.decode pair) = pair) :
    rt.normalizeUrl u = rt.normalizeUrl v ↔ rt.SamePage p q := by
  have hback : ∀ r : SplitResult, rt.octets r ⊆ rt.octets p ++ rt.octets q →
      (rt.texts r).map (Prod.map Utf8.encode Utf8.encode) = rt.octets r := by
    intro r hr
    rw [Runtime.texts, List.map_map]
    conv_rhs => rw [← List.map_id (rt.octets r)]
    exact List.map_congr_left (fun pair hpair => h pair (hr hpair))
  rw [Runtime.normalizeUrl_eq_iff hu hv, Runtime.SamePage]
  apply and_congr_right
  intro _
  constructor
  · intro htext
    have hperm := htext.map (Prod.map Utf8.encode Utf8.encode)
    rwa [hback p (List.subset_append_left _ _), hback q (List.subset_append_right _ _)] at hperm
  · exact fun hoct => hoct.map _

/-! One page in two spellings, and two pages that differ in one octet. -/

def spelling₁ : List Char := "http://site/?b=2&utm_id=1&a=%78".toList
def spelling₂ : List Char := "HTTP://SITE:80?a=x&b=2#top".toList
def pageFF : List Char := "http://site/?a=%FF".toList
def pageFE : List Char := "http://site/?a=%FE".toList

def split₁ : SplitResult := ⟨http, "site".toList, "/".toList, "b=2&utm_id=1&a=%78".toList, []⟩
def split₂ : SplitResult := ⟨http, "SITE:80".toList, [], "a=x&b=2".toList, "top".toList⟩
def splitFF : SplitResult := ⟨http, "site".toList, "/".toList, "a=%FF".toList, []⟩
def splitFE : SplitResult := ⟨http, "site".toList, "/".toList, "a=%FE".toList, []⟩

theorem key_faithful_spellings :
    asciiRuntime.normalizeUrl spelling₁ = asciiRuntime.normalizeUrl spelling₂ ↔ asciiRuntime.SamePage split₁ split₂ := by
  have h₁ : urlsplit asciiRuntime.netlocValid spelling₁ = some split₁ := by decide +kernel
  have h₂ : urlsplit asciiRuntime.netlocValid spelling₂ = some split₂ := by decide +kernel
  apply (key_faithful_iff asciiRuntime h₁ h₂).mpr
  intro _ _
  decide +kernel

/-- `a=%FF` and `a=%FE` are different parameters, and both become `a=%EF%BF%BD`. -/
theorem pages_merged :
    urlsplit asciiRuntime.netlocValid pageFF = some splitFF ∧ urlsplit asciiRuntime.netlocValid pageFE = some splitFE ∧
    asciiRuntime.normalizeUrl pageFF = some "http://site/?a=%EF%BF%BD".toList ∧
    asciiRuntime.normalizeUrl pageFE = some "http://site/?a=%EF%BF%BD".toList ∧
    ¬ asciiRuntime.SamePage splitFF splitFE := by
  refine ⟨by decide +kernel, by decide +kernel, by decide +kernel, by decide +kernel, fun h => ?_⟩
  exact absurd h.2 (by decide +kernel)

end Linksurf
