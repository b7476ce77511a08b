import Linksurf.Interleaving

/-!
# The links of a page

What `_filter_and_publish_links` publishes, and what the Frontier receives of
it. The links are told apart by their addresses, and the Frontier builds its
URLs from these again: an address that ends in a default port arrives without
it, and may then be the address of another link or of the page.
-/
namespace Linksurf.Pipeline

open Coroutine
open Dicts (Dict)
open Json (Plain Compatible throughJson throughJson_of_compatible)

/-- `hash_url`. -/
def hashUrl (rt : Runtime) (url : String) : String := rt.sha256 (Utf8.encode url.toList)

section

variable {rt : Runtime}

theorem BuiltURL.hash_eq (url : BuiltURL rt) : url.hash = hashUrl rt url.address := by
  rw [hashUrl, BuiltURL.address, String.toList_ofList]
  rfl

theorem BuiltURL.eq_of_address {u v : BuiltURL rt} (h : u.address = v.address) : u = v := by
  obtain ⟨s, hs⟩ := u.property
  obtain ⟨s', hs'⟩ := v.property
  exact Subtype.ext (URL.eq_of_address hs hs' (String.ofList_injective h))

/-- The URL on the other side of the broker. -/
def BuiltURL.rebuilt (url : BuiltURL rt) : Option (BuiltURL rt) := BuiltURL.ofAddress rt url.val.address

theorem BuiltURL.rebuilt_of_not_ends {url : BuiltURL rt} (h : ¬ url.val.EndsInDefaultPort) : url.rebuilt = some url := by
  obtain ⟨s, hs⟩ := url.property
  exact BuiltURL.ofAddress_eq_some.mpr ((URL.ofAddress_address_iff hs).mpr h)

theorem BuiltURL.eq_of_rebuilt {u w v : BuiltURL rt} (hu : u.rebuilt = some v) (hw : w.rebuilt = some v)
    (hends : u.val.EndsInDefaultPort) (hends' : w.val.EndsInDefaultPort) : u.address = w.address := by
  obtain ⟨s, hs⟩ := u.property
  obtain ⟨s', hs'⟩ := w.property
  exact congrArg String.ofList (URL.eq_of_rebuilt hs hs' (BuiltURL.ofAddress_eq_some.mp hu)
    (BuiltURL.ofAddress_eq_some.mp hw) hends hends')

/-! ## What is to be published -/

/-- The URL of a link; anything else has none. -/
def linkURL (rt : Runtime) : Json.Value Link → Option (BuiltURL rt)
  | .record link => BuiltURL.ofAddress rt link.target.toList
  | _ => none

/-- All targets of the links parse. -/
def Parses (rt : Runtime) (links : List (Json.Value Link)) : Prop :=
  ∀ link, .record link ∈ links → ∃ url, BuiltURL.ofAddress rt link.target.toList = some url

/-- Each target address once, in the order they stand there, without the
page's own and those that were seen. -/
def dueAddresses (page : BuiltURL rt) (seen : List String) (links : List (Json.Value Link)) : List String :=
  let addresses := (links.filterMap (linkURL rt)).map BuiltURL.address
  ((addresses.filter (fun a => a ≠ page.address)).eraseDups).filter (fun a => hashUrl rt a ∉ seen)

/-- A target that is neither the page nor seen. -/
structure Due (page : BuiltURL rt) (seen : List String) (links : List (Json.Value Link)) (url : BuiltURL rt) : Prop where
  linked : url ∈ links.filterMap (linkURL rt)
  other : url.address ≠ page.address
  unseen : url.hash ∉ seen

theorem mem_dueAddresses {page url : BuiltURL rt} {seen : List String} {links : List (Json.Value Link)} :
    url.address ∈ dueAddresses page seen links ↔ Due page seen links url := by
  simp only [dueAddresses, List.mem_filter, List.mem_eraseDups, List.mem_map, decide_eq_true_eq, ← url.hash_eq]
  constructor
  · rintro ⟨⟨⟨url', hurl', he⟩, hother⟩, hunseen⟩
    obtain rfl := BuiltURL.eq_of_address he
    exact ⟨hurl', hother, hunseen⟩
  · exact fun h => ⟨⟨⟨url, h.linked, rfl⟩, h.other⟩, h.unseen⟩

/-- `Payload(url)`. -/
def Payload.Fresh (p : Payload rt) : Prop :=
  p = { url := p.url, correlationId := p.correlationId, discoveredAt := p.discoveredAt }

/-! ## The conversation -/

/-- What is noted of the services: whether the lookup failed or the broker
refused a payload, and what it took. -/
structure Posted (rt : Runtime) where
  lookupFailed : Bool := false
  refused : Bool := false
  taken : List (Topic × Payload rt) := []

namespace Posted

/-- Nothing is asked for but the lookup, the broker and what a payload needs. -/
def Permits : Call rt → Prop
  | .uuid | .now | .areUrlsSeen _ | .brokerPublish _ _ _ => True
  | _ => False

/-- The lookup answers for each URL in its place. -/
def Follows (seen : List String) (s : Posted rt) : (call : Call rt) → call.Reply → Posted rt → Prop
  | .areUrlsSeen urls, .ok answers, s' => answers = urls.map (fun url => decide (url.hash ∈ seen)) ∧ s' = s
  | .areUrlsSeen _, .error _, s' => s' = { s with lookupFailed := true }
  | .brokerPublish topic p _, .ok (), s' => s' = { s with taken := s.taken ++ [(topic, p)] }
  | .brokerPublish _ _ _, .error _, s' => s' = { s with refused := true }
  | _, _, s' => s' = s

def rules (seen : List String) : Coro.Rules (Call rt) Call.Reply (Posted rt) :=
  ⟨fun _ call => Permits call, fun s call reply s' => Follows seen s call reply s'⟩

/-- The addresses of the payloads the broker took. -/
def addresses (s : Posted rt) : List String := s.taken.map (fun m => m.2.url.address)

/-- The payloads the Frontier reads off its topic. -/
def received (s : Posted rt) (defaults : Defaults) : List (Payload rt) :=
  (s.taken.filter (fun m => m.1 = .process)).filterMap
    (fun m => (throughJson m.2.toDict).bind (Payload.fromDict rt defaults))

/-- A run for the links of a page has ended. -/
def Runs (p : Payload rt) (seen : List String) (links : List (Json.Value Link)) (outcome : Except Raised Unit)
    (q : Payload rt) (s : Posted rt) : Prop :=
  Coro.Ends (rules seen) (Parser.filterAndPublishLinks (.list links) p) {} (outcome, q) s

/-- The broker takes a payload of its own for each address that is due. -/
structure Publishes (page : BuiltURL rt) (seen : List String) (links : List (Json.Value Link)) (s : Posted rt) : Prop where
  fresh : ∀ m ∈ s.taken, m.1 = .process ∧ m.2.Fresh
  within : s.addresses <+: dueAddresses page seen links
  failed : s.lookupFailed = true → s.taken = []
  due : s.lookupFailed = false → s.refused = false → s.addresses = dueAddresses page seen links

/-- What is due is published, and arrives under hashes of its own. -/
structure Exact (page : BuiltURL rt) (seen : List String) (links : List (Json.Value Link)) (s : Posted rt) : Prop
    extends Publishes page seen links s where
  distinct : ∀ defaults, ((s.received defaults).map (fun q => q.url.hash)).Nodup
  foreign : ∀ defaults, ∀ q ∈ s.received defaults, q.url.hash ≠ page.hash

end Posted

/-! ## One page -/

namespace Parser

variable {p : Payload rt} {seen : List String} {s : Posted rt}

/-- `unique_urls.setdefault(normalized_target, url)`. -/
def setDefault (unique : Dict String (BuiltURL rt)) (url : BuiltURL rt) : Dict String (BuiltURL rt) :=
  if url.address ∈ unique.keys then unique else unique.set url.address url

/-- The URLs of the links that lead away from the page. -/
def linkURLs (page : BuiltURL rt) (links : List (Json.Value Link)) : List (BuiltURL rt) :=
  (links.filterMap (linkURL rt)).filter (fun url => url.address ≠ page.address)

theorem uniqueUrls_eq {page : BuiltURL rt} {links : List (Json.Value Link)} (hparses : Parses rt links)
    (unique : Dict String (BuiltURL rt)) : uniqueUrls page.val.address links unique =
      pure (((linkURLs page links).foldl setDefault unique).entries.map Prod.snd) := by
  induction links generalizing unique with
  | nil => rfl
  | cons value links ih =>
    have hrest : Parses rt links := fun link hlink => hparses link (List.mem_cons_of_mem _ hlink)
    cases value with
    | record link =>
      obtain ⟨url, hurl⟩ := hparses link (List.mem_cons_self ..)
      have hlinked : linkURL rt (.record link) = some url := hurl
      have hpage : url.val.address = page.val.address ↔ url.address = page.address := String.ofList_inj.symm
      have hbuild : (buildURL link.target.toList : Task rt _) = pure url := by rw [buildURL, hurl]
      have hstep : uniqueUrls page.val.address (.record link :: links) unique =
          if url.val.address = page.val.address || url.address ∈ unique.keys then
            uniqueUrls page.val.address links unique
          else uniqueUrls page.val.address links (unique.set url.address url) := by
        funext q
        rw [uniqueUrls, hbuild]
        rfl
      have hurls : linkURLs page (.record link :: links) =
          if url.address = page.address then linkURLs page links else url :: linkURLs page links := by
        simp only [linkURLs, List.filterMap_cons, hlinked]
        split
        · rename_i h
          exact List.filter_cons_of_neg (by simpa using h)
        · rename_i h
          exact List.filter_cons_of_pos (by simpa using h)
      rw [hstep, ih hrest, ih hrest, hurls]
      by_cases hother : url.address = page.address
      · rw [if_pos (by simp [hpage, hother]), if_pos hother]
      · by_cases hmem : url.address ∈ unique.keys
        · rw [if_pos (by simp [hmem]), if_neg hother, List.foldl_cons, setDefault, if_pos hmem]
        · rw [if_neg (by simp [hpage, hother, hmem]), if_neg hother, List.foldl_cons, setDefault, if_neg hmem]
    | _ => exact ih hrest unique

theorem setDefault_keys (unique : Dict String (BuiltURL rt)) (url : BuiltURL rt) : (setDefault unique url).keys =
    if url.address ∈ unique.keys then unique.keys else unique.keys ++ [url.address] := by
  unfold setDefault
  split
  · rfl
  · rename_i hnew
    rw [Dict.keys_set, if_neg hnew]

/-- A URL stands under its address. -/
theorem setDefault_addresses (urls : List (BuiltURL rt)) : ∀ e ∈ (urls.foldl setDefault .empty).entries,
    e.1 = e.2.address := by
  induction urls using List.reverseRecOn with
  | nil => exact fun e he => absurd he List.not_mem_nil
  | append_singleton urls url ih =>
    rw [List.foldl_append, List.foldl_cons, List.foldl_nil, setDefault]
    split
    · exact ih
    · rintro ⟨address, url'⟩ he
      cases Dict.mem_set.mp he with
      | inl hnew => rw [hnew.1, hnew.2]
      | inr hold => exact ih _ hold.2

/-- Every address that leads away from the page, once. -/
theorem exists_uniqueUrls (page : BuiltURL rt) {links : List (Json.Value Link)} (hparses : Parses rt links) :
    ∃ urls : List (BuiltURL rt), uniqueUrls page.val.address links .empty = pure urls ∧
      urls.map BuiltURL.address = ((linkURLs page links).map BuiltURL.address).eraseDups := by
  refine ⟨_, uniqueUrls_eq hparses .empty, ?_⟩
  rw [← Dict.keys_foldl setDefault_keys, Dict.keys, List.map_map]
  apply List.map_congr_left
  exact fun e he => (setDefault_addresses _ e he).symm

theorem linkURLs_addresses (page : BuiltURL rt) (links : List (Json.Value Link)) :
    (linkURLs page links).map BuiltURL.address =
      ((links.filterMap (linkURL rt)).map BuiltURL.address).filter (fun a => a ≠ page.address) := by
  rw [List.filter_map]
  rfl

/-- The answers of the lookup in the places of their URLs. -/
theorem zip_unseen (urls : List (BuiltURL rt)) (seen : List String) :
    ((urls.zip (urls.map (fun url => decide (url.hash ∈ seen)))).filter (fun e => !e.2)).map Prod.fst =
      urls.filter (fun url => url.hash ∉ seen) := by
  induction urls with
  | nil => rfl
  | cons url urls ih =>
    rw [List.map_cons, List.zip_cons_cons, List.filter_cons, List.filter_cons]
    by_cases h : url.hash ∈ seen <;> simp [h, ih]

theorem keeps_newPayloads_fresh {urls : List (BuiltURL rt)} {Q : Except Raised (List (Payload rt)) → Payload rt → Posted rt → Prop}
    (hQ : ∀ payloads : List (Payload rt), payloads.map Payload.url = urls → (∀ q ∈ payloads, q.Fresh) →
      Q (.ok payloads) p s) : Proc.Keeps (Posted.rules seen) Q (newPayloads urls) p s := by
  induction urls generalizing Q with
  | nil => exact hQ [] rfl (fun q hq => absurd hq List.not_mem_nil)
  | cons url urls ih =>
    unfold newPayloads newPayload
    simp only [Proc.keeps_bind]
    refine Proc.keeps_ask ⟨trivial, fun _ _ h => h⟩ (fun id => ?_)
    refine Proc.keeps_ask ⟨trivial, fun _ _ h => h⟩ (fun time => ?_)
    rw [Proc.keeps_pure, Proc.after_ok, Proc.keeps_bind]
    apply ih
    intro payloads hurls hfresh
    apply hQ
    · rw [List.map_cons, hurls]
    · exact List.forall_mem_cons.mpr ⟨rfl, hfresh⟩

/-- The broker takes the payloads in their order, up to one it refuses. -/
theorem keeps_publish_taken {payloads : List (Payload rt)} {Q : Except Raised Unit → Payload rt → Posted rt → Prop}
    (hs : s.refused = false)
    (hQ : ∀ r taken refused, taken <+: payloads → (refused = false → taken = payloads) →
      Q r p { s with refused := refused, taken := s.taken ++ taken.map (fun q => (Topic.process, q)) }) :
    Proc.Keeps (Posted.rules seen) Q (publish .process payloads) p s := by
  induction payloads generalizing s with
  | nil =>
    have hnone := hQ (.ok ()) [] false (List.nil_prefix) (fun _ => rfl)
    rw [List.map_nil, List.append_nil, ← hs] at hnone
    exact hnone
  | cons q payloads ih =>
    unfold publish
    refine Proc.keeps_step trivial (fun reply s' hfollows => ?_)
    cases reply with
    | error e =>
      obtain rfl : s' = { s with refused := true } := hfollows
      have hrefused := hQ (.error e) [] true (List.nil_prefix) (by simp)
      rw [List.map_nil, List.append_nil] at hrefused
      exact hrefused
    | ok _ =>
      obtain rfl : s' = { s with taken := s.taken ++ [(.process, q)] } := hfollows
      rw [Proc.keeps_bind, Proc.keeps_value, Proc.after_ok]
      have hs' : ({ s with taken := s.taken ++ [(.process, q)] } : Posted rt).refused = false := hs
      apply ih hs'
      intro r taken refused hpart hall
      have hmore := hQ r (q :: taken) refused ((List.prefix_cons_inj q).mpr hpart) (fun h => by rw [hall h])
      rw [List.map_cons, List.append_cons] at hmore
      exact hmore

/-- Nothing but what is due is published, and all of it unless a service fails. -/
theorem keeps_filterAndPublishLinks_publishes (p : Payload rt) (seen : List String) {links : List (Json.Value Link)}
    (hparses : Parses rt links) :
    Proc.Keeps (Posted.rules seen) (fun _ _ t => t.Publishes p.url seen links) (filterAndPublishLinks (.list links)) p {} := by
  obtain ⟨urls, hurls, haddresses⟩ := exists_uniqueUrls p.url hparses
  unfold filterAndPublishLinks
  rw [Proc.keeps_bind, Proc.keeps_read, Proc.after_ok, hurls, Proc.keeps_bind, Proc.keeps_pure, Proc.after_ok]
  refine Proc.keeps_step trivial (fun reply t hfollows => ?_)
  cases reply with
  | error e =>
    obtain rfl : t = { lookupFailed := true } := hfollows
    exact ⟨fun m hm => absurd hm List.not_mem_nil, List.nil_prefix, fun _ => rfl, fun h => absurd h Bool.noConfusion⟩
  | ok answers =>
    obtain ⟨rfl, rfl⟩ := hfollows
    dsimp only
    rw [zip_unseen, Proc.keeps_bind]
    apply keeps_newPayloads_fresh
    intro payloads hunseen hfresh
    have hdue : payloads.map (fun q => q.url.address) = dueAddresses p.url seen links := by
      calc payloads.map (fun q => q.url.address) = (payloads.map Payload.url).map BuiltURL.address := by
            rw [List.map_map]; rfl
        _ = (urls.map BuiltURL.address).filter (fun a => hashUrl rt a ∉ seen) := by
            rw [hunseen, List.filter_map]
            simp only [BuiltURL.hash_eq]
            rfl
        _ = dueAddresses p.url seen links := by rw [haddresses, linkURLs_addresses]; rfl
    rw [Proc.after_ok]
    apply keeps_publish_taken rfl
    intro r taken refused hpart hall
    have htaken : (taken.map (fun q => (Topic.process, q))).map (fun m => m.2.url.address) =
        taken.map (fun q => q.url.address) := by rw [List.map_map]; rfl
    constructor
    · intro m hm
      obtain ⟨q, hq, rfl⟩ := List.mem_map.mp hm
      exact ⟨rfl, hfresh q (hpart.subset hq)⟩
    · have hwithin := hpart.map (fun q => q.url.address)
      rw [hdue, ← htaken] at hwithin
      exact hwithin
    · exact fun h => absurd h Bool.noConfusion
    · intro _ hrefused
      rw [← hall hrefused, ← htaken] at hdue
      exact hdue

end Parser

/-! ## The other side -/

theorem Payload.Fresh.compatible {q : Payload rt} (h : q.Fresh) : Compatible q.toDict := by
  rw [h, Payload.toDict]
  apply Json.compatible_object
  · simp [Payload.members]
  · have hmetadata : Compatible (Json.object (Dict.empty : Dict String Plain).entries) := ⟨⟨[], List.nodup_nil, rfl⟩, trivial⟩
    simp [Payload.members, Json.optional, timestamp, Compatible, Json.CompatibleList, hmetadata]

/-- A new payload arrives with the URL of its address. -/
theorem Payload.Fresh.arrives {q : Payload rt} (h : q.Fresh) (defaults : Defaults) :
    ((throughJson q.toDict).bind (Payload.fromDict rt defaults)).map Payload.url = q.url.rebuilt := by
  have hcontent : ∀ c ∈ q.content, c.Loaded := by
    rw [h]
    exact fun c hc => absurd hc (by simp)
  rw [throughJson_of_compatible h.compatible, Option.bind_some, Payload.fromDict_toDict defaults hcontent, Option.map_map]
  exact Option.map_id'

namespace Posted

variable {page : BuiltURL rt} {seen : List String} {links : List (Json.Value Link)} {s : Posted rt}

def urls (s : Posted rt) : List (BuiltURL rt) := s.taken.map (fun m => m.2.url)

theorem urls_addresses (s : Posted rt) : s.urls.map BuiltURL.address = s.addresses := by
  rw [urls, List.map_map]
  rfl

theorem Publishes.received (h : s.Publishes page seen links) (defaults : Defaults) :
    (s.received defaults).map Payload.url = s.urls.filterMap BuiltURL.rebuilt := by
  have hall : s.taken.filter (fun m => m.1 = .process) = s.taken :=
    List.filter_eq_self.mpr (fun m hm => by simpa using (h.fresh m hm).1)
  rw [Posted.received, hall, List.map_filterMap, urls, List.filterMap_map]
  exact List.filterMap_congr (fun m hm => (h.fresh m hm).2.arrives defaults)

end Posted

/-- A due address that ends in its default port is neither the page's without
it nor that of another due link, and the hash tells apart what arrives. -/
structure KeptApart (page : BuiltURL rt) (seen : List String) (links : List (Json.Value Link)) : Prop where
  ports : ∀ url v, Due page seen links url → url.val.EndsInDefaultPort → url.rebuilt = some v →
    v.address ≠ page.address ∧ ∀ w, Due page seen links w → ¬ w.val.EndsInDefaultPort → v.address ≠ w.address
  hashes : Set.InjOn (hashUrl rt)
    {a | a = page.address ∨ ∃ url v, Due page seen links url ∧ url.rebuilt = some v ∧ a = v.address}

section

variable {page : BuiltURL rt} {seen : List String} {links : List (Json.Value Link)} {urls : List (BuiltURL rt)}

/-- Two due URLs that arrive under one hash are one. -/
theorem KeptApart.address_eq (h : KeptApart page seen links) {u w v v' : BuiltURL rt} (hu : Due page seen links u)
    (hw : Due page seen links w) (hv : u.rebuilt = some v) (hv' : w.rebuilt = some v') (he : v.hash = v'.hash) :
    u.address = w.address := by
  rw [v.hash_eq, v'.hash_eq] at he
  have haddress : v.address = v'.address := h.hashes (.inr ⟨u, v, hu, hv, rfl⟩) (.inr ⟨w, v', hw, hv', rfl⟩) he
  have hsame : v = v' := BuiltURL.eq_of_address haddress
  by_cases hends : u.val.EndsInDefaultPort
  · by_cases hends' : w.val.EndsInDefaultPort
    · exact BuiltURL.eq_of_rebuilt hv (hsame ▸ hv') hends hends'
    · obtain rfl := Option.some.inj (hv'.symm.trans (BuiltURL.rebuilt_of_not_ends hends'))
      exact absurd haddress ((h.ports u v hu hends hv).2 v' hw hends')
  · obtain rfl := Option.some.inj (hv.symm.trans (BuiltURL.rebuilt_of_not_ends hends))
    by_cases hends' : w.val.EndsInDefaultPort
    · exact absurd haddress.symm ((h.ports w v' hw hends' hv').2 v hu hends)
    · obtain rfl := Option.some.inj (hv'.symm.trans (BuiltURL.rebuilt_of_not_ends hends'))
      exact haddress

theorem KeptApart.foreign (h : KeptApart page seen links) {u v : BuiltURL rt} (hu : Due page seen links u)
    (hv : u.rebuilt = some v) : v.hash ≠ page.hash := by
  intro he
  rw [v.hash_eq, page.hash_eq] at he
  have haddress : v.address = page.address := h.hashes (.inr ⟨u, v, hu, hv, rfl⟩) (.inl rfl) he
  by_cases hends : u.val.EndsInDefaultPort
  · exact (h.ports u v hu hends hv).1 haddress
  · obtain rfl := Option.some.inj (hv.symm.trans (BuiltURL.rebuilt_of_not_ends hends))
    exact hu.other haddress

theorem KeptApart.distinct (h : KeptApart page seen links) (hdue : ∀ url ∈ urls, Due page seen links url)
    (hnodup : (urls.map BuiltURL.address).Nodup) : ((urls.filterMap BuiltURL.rebuilt).map BuiltURL.hash).Nodup := by
  rw [List.Nodup, List.pairwise_map, List.pairwise_filterMap]
  apply (List.pairwise_map.mp hnodup).imp_of_mem
  intro u w hu hw hne v hv v' hv' he
  exact hne (h.address_eq (hdue u hu) (hdue w hw) hv hv' he)

theorem keptApart_of_arrivals (urls : List (BuiltURL rt)) (hdue : ∀ url, Due page seen links url → url ∈ urls)
    (hdistinct : ((urls.filterMap BuiltURL.rebuilt).map BuiltURL.hash).Nodup)
    (hforeign : ∀ v ∈ urls.filterMap BuiltURL.rebuilt, v.hash ≠ page.hash) : KeptApart page seen links := by
  rw [List.Nodup, List.pairwise_map, List.pairwise_filterMap] at hdistinct
  have hapart : ∀ {u w v v' : BuiltURL rt}, Due page seen links u → Due page seen links w → u.rebuilt = some v →
      w.rebuilt = some v' → u ≠ w → v.hash ≠ v'.hash := by
    intro u w v v' hu hw hv hv' hne
    have hsymm : Std.Symm (fun a a' : BuiltURL rt =>
        ∀ b, a.rebuilt = some b → ∀ b', a'.rebuilt = some b' → b.hash ≠ b'.hash) :=
      ⟨fun a a' hd b hb b' hb' => (hd b' hb' b hb).symm⟩
    exact hdistinct.forall (hdue u hu) (hdue w hw) hne v hv v' hv'
  have hother : ∀ {u v : BuiltURL rt}, Due page seen links u → u.rebuilt = some v → v.hash ≠ page.hash :=
    fun hu hv => hforeign _ (List.mem_filterMap.mpr ⟨_, hdue _ hu, hv⟩)
  constructor
  · intro u v hu hends hv
    constructor
    · intro he
      exact hother hu hv (by rw [v.hash_eq, page.hash_eq, he])
    · intro w hw hends' he
      have hne : u ≠ w := fun hsame => hends' (hsame ▸ hends)
      exact hapart hu hw hv (BuiltURL.rebuilt_of_not_ends hends') hne (by rw [v.hash_eq, w.hash_eq, he])
  · rintro a (rfl | ⟨u, v, hu, hv, rfl⟩) b (rfl | ⟨w, v', hw, hv', rfl⟩) he
    · rfl
    · rw [← page.hash_eq, ← v'.hash_eq] at he
      exact absurd he.symm (hother hw hv')
    · rw [← page.hash_eq, ← v.hash_eq] at he
      exact absurd he (hother hu hv)
    · rw [← v.hash_eq, ← v'.hash_eq] at he
      by_cases hsame : u = w
      · subst hsame
        rw [Option.some.inj (hv.symm.trans hv')]
      · exact absurd he (hapart hu hw hv hv' hsame)

end

theorem dueAddresses_nodup (page : BuiltURL rt) (seen : List String) (links : List (Json.Value Link)) :
    (dueAddresses page seen links).Nodup := (Dict.nodup_eraseDups _).filter _

namespace Posted

variable {p : Payload rt} {page : BuiltURL rt} {seen : List String} {links : List (Json.Value Link)} {s : Posted rt}

theorem Publishes.urls_due (h : s.Publishes page seen links) : ∀ url ∈ s.urls, Due page seen links url := by
  intro url hurl
  have haddress : url.address ∈ s.addresses := s.urls_addresses ▸ List.mem_map_of_mem hurl
  exact mem_dueAddresses.mp (h.within.subset haddress)

/-- What is kept apart arrives under hashes of its own. -/
theorem Publishes.exact (h : s.Publishes page seen links) (hapart : KeptApart page seen links) :
    s.Exact page seen links where
  toPublishes := h
  distinct defaults := by
    have hnodup : (s.urls.map BuiltURL.address).Nodup := by
      rw [s.urls_addresses]
      exact (dueAddresses_nodup page seen links).sublist h.within.sublist
    have hdistinct := hapart.distinct h.urls_due hnodup
    rw [← h.received defaults, List.map_map] at hdistinct
    exact hdistinct
  foreign defaults q hq := by
    have hurl : q.url ∈ s.urls.filterMap BuiltURL.rebuilt := h.received defaults ▸ List.mem_map_of_mem hq
    obtain ⟨u, hu, hv⟩ := List.mem_filterMap.mp hurl
    exact hapart.foreign (h.urls_due u hu) hv

/-- Where all that is due was published, its hashes tell that it is kept apart. -/
theorem Exact.keptApart (h : s.Exact page seen links) (hall : s.addresses = dueAddresses page seen links)
    (defaults : Defaults) : KeptApart page seen links := by
  have hreceived := h.received defaults
  apply keptApart_of_arrivals s.urls
  · intro url hdue
    have haddress : url.address ∈ s.urls.map BuiltURL.address := by
      rw [s.urls_addresses, hall]
      exact mem_dueAddresses.mpr hdue
    obtain ⟨url', hurl', he⟩ := List.mem_map.mp haddress
    exact BuiltURL.eq_of_address he ▸ hurl'
  · rw [← hreceived, List.map_map]
    exact h.distinct defaults
  · intro v hv
    rw [← hreceived] at hv
    obtain ⟨q, hq, rfl⟩ := List.mem_map.mp hv
    exact h.foreign defaults q hq

/-- Services that do not fail. -/
theorem exists_answer (seen : List String) (call : Call rt) (t : Posted rt)
    (ht : t.lookupFailed = false ∧ t.refused = false) (hpermits : Permits call) :
    ∃ r u, Follows seen t call r u ∧ u.lookupFailed = false ∧ u.refused = false := by
  cases call with
  | uuid => exact ⟨⟨"0", by decide⟩, t, rfl, ht⟩
  | now => exact ⟨exampleTime, t, rfl, ht⟩
  | areUrlsSeen urls => exact ⟨.ok _, t, ⟨rfl, rfl⟩, ht⟩
  | brokerPublish topic p _ => exact ⟨.ok (), { t with taken := t.taken ++ [(topic, p)] }, rfl, ht⟩
  | _ => exact hpermits.elim

/-- The links of a page whose targets parse are published exactly, in every run
for it, where those that are due are kept apart. -/
theorem filter_and_publish_links_exact_iff (seen : List String) (hparses : Parses rt links) :
    (∀ outcome q s, Runs p seen links outcome q s → s.Exact p.url seen links) ↔ KeptApart p.url seen links := by
  have hkeeps := Parser.keeps_filterAndPublishLinks_publishes p seen hparses
  constructor
  · intro hexact
    obtain ⟨⟨outcome, q⟩, s, hrun, hpublishes, hlookup, hrefused⟩ :=
      Coro.exists_ends (I := fun t : Posted rt => t.lookupFailed = false ∧ t.refused = false)
        (fun call t => exists_answer seen call t) hkeeps ⟨rfl, rfl⟩
    exact (hexact outcome q s hrun).keptApart (hpublishes.due hlookup hrefused) exampleDefaults
  · intro hapart outcome q s hrun
    have hpublishes : s.Publishes p.url seen links := hrun.keeps hkeeps
    exact hpublishes.exact hapart

end Posted

end

/-! A page with a link to `http://site/`, and with another to the same site with
its default port twice. -/

def otherURL : BuiltURL asciiRuntime :=
  ⟨⟨http, some "other".toList, "other".toList, "/".toList, [], [], 80⟩, "http://other/".toList, by decide +kernel⟩

def otherPage : Payload asciiRuntime where
  url := otherURL
  correlationId := sitePage.correlationId
  discoveredAt := exampleTime

def linkTo (target : String) : Link := ⟨"http://other/", target, target, .external, none, none⟩

def siteLinks : List (Json.Value Link) := [.record (linkTo "http://site/")]
def portLinks : List (Json.Value Link) := [.record (linkTo "http://site:80:80/"), .record (linkTo "http://site/")]

namespace Posted

/-- Nothing was seen, and nothing fails. -/
def serve : (call : Call asciiRuntime) → Posted asciiRuntime → call.Reply × Posted asciiRuntime
  | .areUrlsSeen urls, s => (.ok (urls.map (fun url => decide (url.hash ∈ []))), s)
  | .brokerPublish topic p _, s => (.ok (), { s with taken := s.taken ++ [(topic, p)] })
  | call, s => (exampleReply call, s)

theorem serve_follows (call : Call asciiRuntime) (s : Posted asciiRuntime) :
    (rules []).follows s call (serve call s).1 (serve call s).2 := by
  cases call <;> first | exact ⟨rfl, rfl⟩ | rfl

def ran (links : List (Json.Value Link)) : (Except Raised Unit × Payload asciiRuntime) × Posted asciiRuntime :=
  Coro.run serve (Parser.filterAndPublishLinks (.list links) otherPage) {}

theorem runs_ran (links : List (Json.Value Link)) :
    Runs otherPage [] links (ran links).1.1 (ran links).1.2 (ran links).2 := Coro.ends_run serve_follows _ _

theorem linkURL_site : linkURL asciiRuntime (.record (linkTo "http://site/")) = some siteURL :=
  BuiltURL.ofAddress_eq_some.mpr (by decide +kernel)

theorem siteLinks_parse : Parses asciiRuntime siteLinks := by
  intro link hlink
  obtain rfl : link = linkTo "http://site/" := Json.Value.record.inj (List.mem_singleton.mp hlink)
  exact ⟨siteURL, linkURL_site⟩

theorem due_site {url : BuiltURL asciiRuntime} (h : Due otherURL [] siteLinks url) : url = siteURL := by
  have hlinked := h.linked
  rw [siteLinks, List.filterMap_cons_some linkURL_site] at hlinked
  exact List.mem_singleton.mp hlinked

theorem siteLinks_keptApart : KeptApart otherURL [] siteLinks where
  ports url v hdue hends := absurd hends (due_site hdue ▸ site_not_endsInDefaultPort)
  hashes := by
    have haddress : ∀ {u v : BuiltURL asciiRuntime}, Due otherURL [] siteLinks u → u.rebuilt = some v →
        v.address = "http://site/" := by
      intro u v hu hv
      obtain rfl := due_site hu
      obtain rfl := Option.some.inj (hv.symm.trans (BuiltURL.rebuilt_of_not_ends site_not_endsInDefaultPort))
      exact siteURL_address
    have hother : hashUrl asciiRuntime otherURL.address ≠ hashUrl asciiRuntime "http://site/" := by decide +kernel
    rintro a (rfl | ⟨u, v, hu, hv, rfl⟩) b (rfl | ⟨w, v', hw, hv', rfl⟩) he
    · rfl
    · exact absurd (haddress hw hv' ▸ he) hother
    · exact absurd (haddress hu hv ▸ he).symm hother
    · rw [haddress hu hv, haddress hw hv']

theorem filter_and_publish_links_exact_site : ∃ outcome q s, Runs otherPage [] siteLinks outcome q s ∧
    s.addresses = ["http://site/"] ∧ s.Exact otherURL [] siteLinks :=
  ⟨_, _, _, runs_ran siteLinks, by decide +kernel,
    (filter_and_publish_links_exact_iff [] siteLinks_parse).mpr siteLinks_keptApart _ _ _ (runs_ran siteLinks)⟩

/-- `http://site:80:80/` and `http://site/` are published as two addresses and
arrive as one. -/
theorem links_merged : ∃ outcome q s, Runs otherPage [] portLinks outcome q s ∧ s.lookupFailed = false ∧
    s.refused = false ∧ s.addresses = ["http://site:80/", "http://site/"] ∧
    (s.received exampleDefaults).map (fun q => q.url.address) = ["http://site/", "http://site/"] ∧
    ¬ s.Exact otherURL [] portLinks := by
  have hreceived : ((ran portLinks).2.received exampleDefaults).map (fun q => q.url.address) =
      ["http://site/", "http://site/"] := by decide +kernel
  refine ⟨_, _, _, runs_ran portLinks, rfl, rfl, by decide +kernel, hreceived, ?_⟩
  intro hexact
  have hnodup := hexact.distinct exampleDefaults
  have hhashes : ((ran portLinks).2.received exampleDefaults).map (fun q => q.url.hash) =
      (((ran portLinks).2.received exampleDefaults).map (fun q => q.url.address)).map (hashUrl asciiRuntime) := by
    rw [List.map_map]
    exact List.map_congr_left (fun q _ => q.url.hash_eq)
  rw [hhashes, hreceived] at hnodup
  simp at hnodup

end Posted

end Linksurf.Pipeline
