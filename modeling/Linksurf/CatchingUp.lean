import Linksurf.Ancestry
import Linksurf.Streams

/-!
# Browsers that keep up

A browser shows the tables as soon as what it has merged since its last load and
what is on its way reach back to the snapshot it loaded. A browser that reloads
while its stream is up gets there, and stays there until an update for it is
dropped, its stream is lost, or it loads a snapshot that comes too late.
-/
namespace Linksurf.Visualization

open Execution

/-- What a browser has merged since it loaded its page, and what is on its way to it,
are all updates from some place on that is not after its snapshot. -/
def Browser.Covered (b : Browser) (sent : Nat) : Prop :=
  ∃ start ≤ b.loaded.seen, (b.merged ++ b.onWay).map Prod.fst = List.range' start (sent - start)

/-- Every update from some place on is on its way to a subscribed browser. -/
def Browser.Attached (b : Browser) (sent : Nat) : Prop :=
  b.subscribed = true ∧ ∃ next ≤ sent, b.onWay.map Prod.fst = List.range' next (sent - next)

/-- A step that leaves the stream of a browser up and its queue short of its bound, and
does not load a snapshot that an update already merged is missing from. -/
def Undisturbed (id : BrowserId) (s : Service) : StreamAction → Prop
  | .disconnect other => other ≠ id
  | .deliver other => other = id → (s.browsers id).queue.length < MAX_PENDING_UPDATES
  | .load other i => other = id → ∀ response, (s.browsers id).responses[i]? = some response →
    ∀ place, response.seen ≤ place → place < s.sent.length → place ∈ (s.browsers id).onWay.map Prod.fst
  | _ => True

section

variable {valid : List Char → Bool} {sent : List Update} {b b' : Browser} {s t : Service}

/-! ## The page of a covered browser -/

/-- What an undisturbed step does to a subscribed browser. -/
inductive Advanced (b : Browser) (sent : Nat) : Browser → Nat → Prop
  | moved {b' : Browser} (hsubscribed : b'.subscribed = b.subscribed) (hloaded : b'.loaded = b.loaded)
      (hall : b'.merged ++ b'.onWay = b.merged ++ b.onWay) (hway : b'.onWay <:+ b.onWay) : Advanced b sent b' sent
  | scheduled {b' : Browser} {update : Update} (hsubscribed : b'.subscribed = b.subscribed) (hloaded : b'.loaded = b.loaded)
      (hmerged : b'.merged = b.merged) (hway : b'.onWay = b.onWay ++ [(sent, update)]) : Advanced b sent b' (sent + 1)
  | loaded {b' : Browser} (hsubscribed : b'.subscribed = b.subscribed) (hmerged : b'.merged = []) (hway : b'.onWay = b.onWay)
      (hplaces : ∀ place, b'.loaded.seen ≤ place → place < sent → place ∈ b.onWay.map Prod.fst) : Advanced b sent b' sent

theorem Advanced.refl (b : Browser) (sent : Nat) : Advanced b sent b sent := .moved rfl rfl rfl (List.suffix_refl _)

namespace Advanced

variable {sent sent' : Nat}

/-- A browser that loads a snapshot while every update that is missing from it is on its
way is covered. -/
theorem covers (hb : b.Attached sent) (hmerged : b'.merged = []) (hway : b'.onWay = b.onWay)
    (hlater : ∀ place, b'.loaded.seen ≤ place → place < sent → place ∈ b.onWay.map Prod.fst)
    (hseen : b'.loaded.seen ≤ sent) : b'.Covered sent := by
  obtain ⟨-, next, hle, hplaces⟩ := hb
  by_cases hold : next ≤ b'.loaded.seen
  · exact ⟨next, hold, by rw [hmerged, hway, List.nil_append, hplaces]⟩
  · have hin := hlater b'.loaded.seen le_rfl (by omega)
    rw [hplaces, List.mem_range'_1] at hin
    omega

theorem covered (h : Advanced b sent b' sent') (hb : b.Attached sent) (hseen : b.loaded.seen ≤ sent)
    (hseen' : b'.loaded.seen ≤ sent') (hcovered : b.Covered sent) : b'.Covered sent' := by
  obtain ⟨start, hstart, hplaces⟩ := hcovered
  cases h with
  | moved _ hloaded hall _ => exact ⟨start, hloaded ▸ hstart, hall ▸ hplaces⟩
  | scheduled _ hloaded hmerged hnew =>
    refine ⟨start, hloaded ▸ hstart, ?_⟩
    have hle := hstart.trans hseen
    rw [hmerged, hnew, ← List.append_assoc, List.map_append, hplaces, Nat.succ_sub hle, List.range'_concat]
    simp [hle]
  | loaded _ hmerged hway hlater => exact covers hb hmerged hway hlater hseen'

end Advanced

theorem Service.Sound.seen (h : s.Sound valid) (id : BrowserId) : (s.browsers id).loaded.seen ≤ s.sent.length :=
  ((h.browsers id).reads _ (.inr rfl)).2

theorem Service.subscribed {id : BrowserId} (hs : s.step valid (.subscribe id) = some t) :
    (t.browsers id).Attached t.sent.length := by
  simp only [Service.step] at hs
  split at hs
  · cases hs
  · cases hs
    rw [Service.setBrowser_same]
    exact ⟨rfl, s.sent.length, le_rfl, by simp [Browser.onWay, Browser.subscribe, Service.setBrowser]⟩

theorem Service.loaded {id : BrowserId} {i : Nat} (hattached : (s.browsers id).Attached s.sent.length)
    (hp : Undisturbed id s (.load id i)) (hs : s.step valid (.load id i) = some t)
    (hseen : (t.browsers id).loaded.seen ≤ t.sent.length) : (t.browsers id).Covered t.sent.length := by
  obtain ⟨b, hb, rfl⟩ := Option.map_eq_some_iff.mp hs
  obtain ⟨response, hresponse, hb⟩ := Option.bind_eq_some_iff.mp hb
  obtain ⟨page, -, hb⟩ := Option.bind_eq_some_iff.mp hb
  cases hb
  rw [Service.setBrowser_same] at hseen ⊢
  exact Advanced.covers hattached rfl rfl (hp rfl response hresponse) hseen

end

end Linksurf.Visualization
