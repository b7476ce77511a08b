import Linksurf.Interleaving

/-!
# URLs that are found again

The Frontier marks a URL as seen before it enriches, judges and registers it,
and a failure does not take the mark back. The payload that failed passes the
deduplicator by its flag; another payload of the URL is held up by the mark.
-/
namespace Linksurf.Pipeline

open Coroutine

/-- How far a run of `Frontier.process` has come: to the check and the mark in
the cache, with the mark to what `processNew` asks of executors, and to the two
writes to the database. -/
inductive Point where
  | rules | check | mark | admission | registration | domain
  deriving DecidableEq

/-- The hashes marked in the cache and those of the documents in the database,
with the point a run has come to. -/
structure Marks where
  seen : List String
  registered : List String
  point : Point := .rules
  deriving DecidableEq

namespace Marks

variable {rt : Runtime}

/-- `SADD`. -/
def mark (m : Marks) (hash : String) : Marks := { m with seen := hash :: m.seen }

/-- `register_url`: a document that is there stays. -/
def register (m : Marks) (hash : String) : Marks :=
  if hash ∈ m.registered then m else { m with registered := hash :: m.registered }

def reach (m : Marks) (point : Point) : Marks := { m with point }

/-- A failed write may have taken effect. -/
def Follows (m : Marks) : (call : Call rt) → call.Reply → Marks → Prop
  | .isUrlSeen url, .ok seen, m' => seen = decide (url.hash ∈ m.seen) ∧ m' = m.reach .check
  | .isUrlSeen _, .error _, m' => m' = m.reach .check
  | .markUrlSeen url, .ok (), m' => m' = (m.mark url.hash).reach .admission
  | .markUrlSeen url, .error _, m' => m' = m.reach .mark ∨ m' = (m.mark url.hash).reach .mark
  | .registerUrl url, .ok (), m' => m' = (m.register url.hash).reach .domain
  | .registerUrl url, .error _, m' => m' = m.reach .registration ∨ m' = (m.register url.hash).reach .registration
  | _, _, m' => m' = m

def rules : Coro.Rules (Call rt) Call.Reply Marks := ⟨fun _ _ => True, Follows⟩

/-- Runs of the Frontier. -/
def Runs (p : Payload rt) (m : Marks) (outcome : Except Raised (Option Error)) (q : Payload rt) (m' : Marks) : Prop :=
  Coro.Ends rules (Frontier.process p) (m.reach .rules) (outcome, q) m'

/-- What a run leaves of a URL that was new, by the point it came to. -/
def Leaves (hash : String) (deduplicated : Bool) (m : Marks) : Prop :=
  match m.point with
  | .rules | .check => hash ∉ m.seen ∧ hash ∉ m.registered ∧ deduplicated = false
  | .mark => hash ∉ m.registered ∧ deduplicated = false
  | .admission => hash ∈ m.seen ∧ hash ∉ m.registered ∧ deduplicated = true
  | .registration => hash ∈ m.seen ∧ deduplicated = true
  | .domain => hash ∈ m.seen ∧ hash ∈ m.registered ∧ deduplicated = true

@[simp] theorem reach_seen (m : Marks) (point : Point) : (m.reach point).seen = m.seen := rfl
@[simp] theorem reach_registered (m : Marks) (point : Point) : (m.reach point).registered = m.registered := rfl
@[simp] theorem reach_point (m : Marks) (point : Point) : (m.reach point).point = point := rfl
@[simp] theorem mark_seen (m : Marks) (hash : String) : (m.mark hash).seen = hash :: m.seen := rfl
@[simp] theorem mark_registered (m : Marks) (hash : String) : (m.mark hash).registered = m.registered := rfl
@[simp] theorem register_seen (m : Marks) (hash : String) : (m.register hash).seen = m.seen := by
  unfold register
  split <;> rfl

theorem mem_register (m : Marks) (hash : String) : hash ∈ (m.register hash).registered := by
  unfold register
  split
  · assumption
  · exact List.mem_cons_self ..

theorem rules_executes {m : Marks} (call : Call rt) (h : call.Executes) : rules.Ignores m call := by
  refine ⟨trivial, ?_⟩
  intro reply m' hfollows
  cases call <;> first | exact h.elim | exact hfollows

end Marks

section

variable {rt : Runtime} {p : Payload rt} {m : Marks}

open Marks

/-! ## Where a run ends -/

/-- The URL was new when the run began, and is marked. -/
structure Admitted (p : Payload rt) (m : Marks) : Prop where
  seen : p.url.hash ∈ m.seen
  registered : p.url.hash ∉ m.registered
  point : m.point = .admission
  deduplicated : p.deduplicated = true

theorem Admitted.leaves (h : Admitted p m) : Leaves p.url.hash p.deduplicated m := by
  rw [Leaves, h.point]
  exact ⟨h.seen, h.registered, h.deduplicated⟩

/-- The URL is neither marked nor registered, and the payload is not flagged. -/
structure Unseen (p : Payload rt) (m : Marks) : Prop where
  seen : p.url.hash ∉ m.seen
  registered : p.url.hash ∉ m.registered
  deduplicated : p.deduplicated = false

/-- What a run is shown to leave. -/
abbrev Leaving (hash : String) : Except Raised (Option Error) → Payload rt → Marks → Prop :=
  fun _ q m => Leaves hash q.deduplicated m

namespace Frontier

theorem keeps_register_marks (h : Admitted p m) : Proc.Keeps rules (Leaving p.url.hash) register p m := by
  rw [register, Proc.keeps_bind, Proc.keeps_read, Proc.after_ok, Proc.keeps_bind]
  cases p.url.domain with
  | none => exact h.leaves
  | some domain =>
    rw [bucketize, Proc.keeps_pure, Proc.after_ok]
    refine Proc.keeps_step trivial (fun registered m' hfollows => ?_)
    cases registered with
    | error e =>
      obtain rfl | rfl := hfollows
      · exact ⟨h.seen, h.deduplicated⟩
      · exact ⟨by simpa using h.seen, h.deduplicated⟩
    | ok _ =>
      obtain rfl := hfollows
      have hleft : Leaves p.url.hash p.deduplicated ((m.register p.url.hash).reach .domain) :=
        ⟨by simpa using h.seen, mem_register m _, h.deduplicated⟩
      refine Proc.keeps_ask (by exact ⟨trivial, fun _ _ hfollows => hfollows⟩) (fun saved => ?_)
      cases saved with
      | error e => exact hleft
      | ok _ => exact Proc.keeps_ask (by exact ⟨trivial, fun _ _ hfollows => hfollows⟩) (fun _ => hleft)

theorem keeps_processNew_marks (h : Admitted p m) : Proc.Keeps rules (Leaving p.url.hash) processNew p m := by
  rw [processNew, Proc.keeps_bind]
  apply keeps_filter rules_executes
  intro r metadata
  have h' : Admitted { p with metadata } m := ⟨h.seen, h.registered, h.point, h.deduplicated⟩
  cases r with
  | error e => exact h'.leaves
  | ok proceed =>
    cases proceed with
    | error e => exact h'.leaves
    | ok proceed =>
      cases proceed with
      | false => exact h'.leaves
      | true =>
        change Proc.Keeps _ _ (Component.prioritize frontier >>= _) _ _
        rw [Proc.keeps_bind]
        apply keeps_prioritize rules_executes
        intro r metadata
        have h' : Admitted { p with metadata } m := ⟨h.seen, h.registered, h.point, h.deduplicated⟩
        cases r with
        | error e => exact h'.leaves
        | ok priority =>
          cases priority with
          | error e => exact h'.leaves
          | ok priority =>
            exact keeps_register_marks (p := { p with metadata, priority }) ⟨h.seen, h.registered, h.point, h.deduplicated⟩

/-- A new URL is marked and flagged, or the cache failed. -/
theorem keeps_deduplicate_marks {Q : Except Raised (Except Error Bool) → Payload rt → Marks → Prop} (h : Unseen p m)
    (hok : Admitted { p with deduplicated := true } ((m.mark p.url.hash).reach .admission) →
      Q (.ok (.ok false)) { p with deduplicated := true } ((m.mark p.url.hash).reach .admission))
    (herror : ∀ e m', Leaves p.url.hash false m' → Q (.ok (.error e)) p m') :
    Proc.Keeps rules Q frontier.deduplicate p m := by
  unfold Component.deduplicate
  rw [if_neg (by decide), Proc.keeps_bind, Proc.keeps_read, Proc.after_ok, if_neg (by rw [h.deduplicated]; decide),
    Proc.keeps_bind, Proc.keeps_read, Proc.after_ok]
  refine Proc.keeps_step trivial (fun seen m' hfollows => ?_)
  cases seen with
  | error e =>
    obtain rfl := hfollows
    exact herror _ _ ⟨h.seen, h.registered, rfl⟩
  | ok seen =>
    obtain ⟨rfl, rfl⟩ := hfollows
    rw [decide_eq_false h.seen]
    change Proc.Keeps _ _ (payload >>= fun q => await (.markUrlSeen q.url) >>= _) _ _
    rw [Proc.keeps_bind, Proc.keeps_read, Proc.after_ok]
    refine Proc.keeps_step trivial (fun marked m' hfollows => ?_)
    cases marked with
    | error e =>
      obtain rfl | rfl := hfollows
      · exact herror _ _ ⟨h.registered, rfl⟩
      · exact herror _ _ ⟨h.registered, rfl⟩
    | ok _ =>
      obtain rfl := hfollows
      exact hok ⟨List.mem_cons_self .., h.registered, rfl, rfl⟩

theorem keeps_process_marks (h : Unseen p m) :
    Proc.Keeps rules (Leaving p.url.hash) process p (m.reach .rules) := by
  rw [process, Proc.keeps_bind]
  apply keeps_judgeAll rules_executes
  intro r metadata
  have hstay : Leaves p.url.hash p.deduplicated (m.reach .rules) := ⟨h.seen, h.registered, h.deduplicated⟩
  cases r with
  | error e => exact hstay
  | ok proceed =>
    cases proceed with
    | error e => exact hstay
    | ok proceed =>
      cases proceed with
      | false => exact hstay
      | true =>
        change Proc.Keeps _ _ (Component.deduplicate frontier >>= _) _ _
        rw [Proc.keeps_bind]
        have h' : Unseen { p with metadata } (m.reach .rules) := ⟨h.seen, h.registered, h.deduplicated⟩
        apply keeps_deduplicate_marks h'
        · exact fun hadmitted => keeps_processNew_marks hadmitted
        · intro e m' hleaves
          change Leaves _ p.deduplicated _
          rw [h.deduplicated]
          exact hleaves

end Frontier

/-! ## The next payload -/

/-- The deduplicator does not take the payload for a duplicate. -/
def Passes (p : Payload rt) (m : Marks) : Prop :=
  ∀ r q m', Coro.Ends rules (frontier.deduplicate p) m (r, q) m' → r ≠ .ok (.ok true)

/-- The Frontier does not get past the deduplicator with the payload. -/
def Dropped (p : Payload rt) (m : Marks) : Prop :=
  ∀ outcome q m', Runs p m outcome q m' → m' = m.reach .rules ∨ m' = m.reach .check

theorem passes_of_deduplicated (h : p.deduplicated = true) : Passes p m := by
  intro r q m' hends
  have hkeeps : Proc.Keeps rules (fun r _ _ => r ≠ .ok (.ok true)) frontier.deduplicate p m := by
    unfold Component.deduplicate
    rw [if_neg (by decide), Proc.keeps_bind, Proc.keeps_read, Proc.after_ok, if_pos h]
    exact nofun
  exact hends.keeps hkeeps

theorem passes_of_unseen (hseen : p.url.hash ∉ m.seen) : Passes p m := by
  intro r q m' hends
  have hkeeps : Proc.Keeps rules (fun r _ _ => r ≠ .ok (.ok true)) frontier.deduplicate p m := by
    unfold Component.deduplicate
    rw [if_neg (by decide), Proc.keeps_bind, Proc.keeps_read, Proc.after_ok]
    split
    · exact nofun
    rw [Proc.keeps_bind, Proc.keeps_read, Proc.after_ok]
    refine Proc.keeps_step trivial (fun seen m' hfollows => ?_)
    cases seen with
    | error e => exact nofun
    | ok seen =>
      obtain ⟨rfl, rfl⟩ := hfollows
      rw [decide_eq_false hseen]
      change Proc.Keeps _ _ (payload >>= fun q => await (.markUrlSeen q.url) >>= _) _ _
      rw [Proc.keeps_bind, Proc.keeps_read, Proc.after_ok]
      refine Proc.keeps_step trivial (fun marked m' _ => ?_)
      cases marked <;> exact nofun
  exact hends.keeps hkeeps

/-- A mark holds up every payload that is not flagged. -/
theorem dropped_of_seen (hseen : p.url.hash ∈ m.seen) (hp : p.deduplicated = false) : Dropped p m := by
  intro outcome q m' hruns
  have hkeeps : Proc.Keeps rules (fun _ _ m' => m' = m.reach .rules ∨ m' = m.reach .check) Frontier.process p
      (m.reach .rules) := by
    rw [Frontier.process, Proc.keeps_bind]
    apply keeps_judgeAll rules_executes
    intro r metadata
    cases r with
    | error e => exact .inl rfl
    | ok proceed =>
      cases proceed with
      | error e => exact .inl rfl
      | ok proceed =>
        cases proceed with
        | false => exact .inl rfl
        | true =>
          rw [Proc.after_ok]
          dsimp only
          rw [Proc.keeps_bind]
          unfold Component.deduplicate
          rw [if_neg (by decide), Proc.keeps_bind, Proc.keeps_read, Proc.after_ok, if_neg (by simp [hp]),
            Proc.keeps_bind, Proc.keeps_read, Proc.after_ok]
          refine Proc.keeps_step trivial (fun seen m' hfollows => ?_)
          cases seen with
          | error e =>
            obtain rfl := hfollows
            exact .inr rfl
          | ok seen =>
            obtain ⟨rfl, rfl⟩ := hfollows
            have hdecide : decide (p.url.hash ∈ (m.reach .rules).seen) = true := decide_eq_true hseen
            rw [hdecide]
            exact .inr rfl
  exact hruns.keeps hkeeps

/-- What a run of the Frontier leaves of a new URL, whether it fails or not: the
URL stays marked wherever the run came past its mark, and while it does a
payload of the URL is dropped unless it is the one that was flagged. -/
theorem process_leaves {outcome : Except Raised (Option Error)} {q : Payload rt} {m' : Marks}
    (h : Unseen p m) (hruns : Runs p m outcome q m') :
    Leaves p.url.hash q.deduplicated m' ∧ (q.deduplicated = true → Passes q m') ∧
      ∀ p' : Payload rt, p'.url.hash = p.url.hash → p'.deduplicated = false →
        (p.url.hash ∉ m'.seen → Passes p' m') ∧ (p.url.hash ∈ m'.seen → Dropped p' m') := by
  refine ⟨hruns.keeps (Frontier.keeps_process_marks h), passes_of_deduplicated, ?_⟩
  intro p' hhash hp'
  rw [← hhash]
  exact ⟨passes_of_unseen, fun hseen => dropped_of_seen hseen hp'⟩

end

/-! A URL whose first middleware fails. -/

/-- The stores answer, and the other services as given. -/
def Marks.serve (reply : (call : Call asciiRuntime) → call.Reply) :
    (call : Call asciiRuntime) → Marks → call.Reply × Marks
  | .isUrlSeen url, m => (.ok (decide (url.hash ∈ m.seen)), m.reach .check)
  | .markUrlSeen url, m => (.ok (), (m.mark url.hash).reach .admission)
  | .registerUrl url, m => (.ok (), (m.register url.hash).reach .domain)
  | call, m => (reply call, m)

theorem Marks.serve_follows (reply : (call : Call asciiRuntime) → call.Reply) (call : Call asciiRuntime) (m : Marks) :
    rules.follows m call (serve reply call m).1 (serve reply call m).2 := by
  cases call <;> first | exact ⟨rfl, rfl⟩ | rfl

def unreachableReply : (call : Call asciiRuntime) → call.Reply
  | .executeMiddleware _ p =>
    ⟨p.metadata, .ok ⟨none, some { message := "URL is invalid or unreachable.", delaySeconds := some 86400 }⟩⟩
  | call => exampleReply call

def sitePayload : Payload asciiRuntime where
  url := siteURL
  correlationId := ⟨"0e", by decide⟩
  discoveredAt := exampleTime

def unreachable (p : Payload asciiRuntime) (m : Marks) : (Except Raised (Option Error) × Payload asciiRuntime) × Marks :=
  Coro.run (Marks.serve unreachableReply) (Frontier.process p) (m.reach .rules)

theorem unreachable_runs (p : Payload asciiRuntime) (m : Marks) :
    Marks.Runs p m (unreachable p m).1.1 (unreachable p m).1.2 (unreachable p m).2 :=
  Coro.ends_run (Marks.serve_follows unreachableReply) _ _

/-- What the first run and another one after it leave. -/
def lostMarks : Marks := (unreachable sitePayload ⟨[], [], .rules⟩).2

def rediscovered : (Except Raised (Option Error) × Payload asciiRuntime) × Marks := unreachable sitePayload lostMarks

theorem sitePayload_unseen : Unseen sitePayload ⟨[], [], .rules⟩ := ⟨List.not_mem_nil, List.not_mem_nil, rfl⟩

theorem process_leaves_site : ∃ deduplicated, Marks.Leaves sitePayload.url.hash deduplicated lostMarks :=
  ⟨_, (process_leaves sitePayload_unseen (unreachable_runs sitePayload ⟨[], [], .rules⟩)).1⟩

/-- The URL of a failed run is marked and not registered, and another payload of
it ends without an error and without a document. -/
theorem url_lost : ∃ outcome q outcome' q' m'', Unseen sitePayload ⟨[], [], .rules⟩ ∧
    Marks.Runs sitePayload ⟨[], [], .rules⟩ outcome q lostMarks ∧ Component.errorOf outcome ≠ none ∧
    sitePayload.url.hash ∈ lostMarks.seen ∧ sitePayload.url.hash ∉ lostMarks.registered ∧
    Marks.Runs sitePayload lostMarks outcome' q' m'' ∧ Component.errorOf outcome' = none ∧
    sitePayload.url.hash ∉ m''.registered := by
  refine ⟨_, _, _, _, rediscovered.2, sitePayload_unseen, unreachable_runs _ _, ?_, ?_, ?_, unreachable_runs _ _, ?_, ?_⟩
    <;> decide +kernel

end Linksurf.Pipeline
