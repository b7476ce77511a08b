import Linksurf.Rediscovery

/-!
# Concurrent runs of the Frontier

Any number of runs of `Frontier.process` over one cache, whose operations are
atomic. Between the check of the deduplicator and its mark other runs take
their turns, and one of them may find the same URL unseen.
-/
namespace Linksurf.Pipeline

open Coroutine
open Execution

abbrev Rest (rt : Runtime) (α : Type) := Coro (Call rt) Call.Reply (Except Raised α × Payload rt)

/-- How far a run of `Frontier.process` has come: the rules, the deduplicator,
past the deduplicator with `seen = False`, or returned before. -/
inductive Stage (rt : Runtime) where
  | ruling (rest : Rest rt (Except Error Bool))
  | deduplicating (rest : Rest rt (Except Error Bool))
  | admitted (rest : Rest rt (Option Error))
  | returned (outcome : Except Raised (Option Error) × Payload rt)

namespace Frontier

variable {rt : Runtime}

/-- `process` from the answer of `deduplicate`. -/
def afterDeduplicate : Except Error Bool → Task rt (Option Error)
  | .error error => pure (some error)
  | .ok true => pure none
  | .ok false => processNew

/-- `process` from the answer of `rule`. -/
def afterRule : Except Error Bool → Task rt (Option Error)
  | .error error => pure (some error)
  | .ok false => pure none
  | .ok true => frontier.deduplicate >>= afterDeduplicate

theorem process_eq : (process : Task rt (Option Error)) = frontier.rule >>= afterRule := by
  rfl

end Frontier

namespace Stage

variable {rt : Runtime}

/-- After the answer of `deduplicate`. -/
def ofDeduplicate : Rest rt (Except Error Bool) → Stage rt
  | .ret (.ok (.ok false), p) => .admitted (Frontier.processNew p)
  | .ret (.ok (.ok true), p) => .returned (.ok none, p)
  | .ret (.ok (.error error), p) => .returned (.ok (some error), p)
  | .ret (.error e, p) => .returned (.error e, p)
  | rest => .deduplicating rest

/-- After the answer of `rule`. -/
def ofRule : Rest rt (Except Error Bool) → Stage rt
  | .ret (.ok (.ok true), p) => ofDeduplicate (frontier.deduplicate p)
  | .ret (.ok (.ok false), p) => .returned (.ok none, p)
  | .ret (.ok (.error error), p) => .returned (.ok (some error), p)
  | .ret (.error e, p) => .returned (.error e, p)
  | rest => .ruling rest

/-- A run with a payload. -/
def start (p : Payload rt) : Stage rt := ofRule (frontier.rule p)

/-- What is left of `Frontier.process`. -/
def text : Stage rt → Rest rt (Option Error)
  | .ruling rest => rest.bind (Proc.proceed Frontier.afterRule)
  | .deduplicating rest => rest.bind (Proc.proceed Frontier.afterDeduplicate)
  | .admitted rest => rest
  | .returned outcome => .ret outcome

/-- The answer to the operation a run waits for, and how the run goes on. -/
def next (serve : (call : Call rt) → call.Reply) : Stage rt → Option (Stage rt)
  | .ruling (.await call k) => some (ofRule (k (serve call)))
  | .deduplicating (.await call k) => some (ofDeduplicate (k (serve call)))
  | .admitted (.await call k) => some (.admitted (k (serve call)))
  | _ => none

/-- The operation a run waits for. -/
def awaited : Stage rt → Option (Call rt)
  | .ruling (.await call _) | .deduplicating (.await call _) | .admitted (.await call _) => some call
  | _ => none

theorem text_ofDeduplicate (rest : Rest rt (Except Error Bool)) :
    (ofDeduplicate rest).text = rest.bind (Proc.proceed Frontier.afterDeduplicate) := by
  cases rest with
  | await call k => rfl
  | ret r =>
    obtain ⟨r, p⟩ := r
    cases r with
    | error e => rfl
    | ok seen =>
      cases seen with
      | error error => rfl
      | ok seen => cases seen <;> rfl

theorem text_ofRule (rest : Rest rt (Except Error Bool)) :
    (ofRule rest).text = rest.bind (Proc.proceed Frontier.afterRule) := by
  cases rest with
  | await call k => rfl
  | ret r =>
    obtain ⟨r, p⟩ := r
    cases r with
    | error e => rfl
    | ok proceed =>
      cases proceed with
      | error error => rfl
      | ok proceed =>
        cases proceed with
        | false => rfl
        | true => exact text_ofDeduplicate (frontier.deduplicate p)

/-- The stages of a run are those of `Frontier.process`. -/
theorem text_start (p : Payload rt) : (start p).text = Frontier.process p := by
  rw [Frontier.process_eq]
  exact text_ofRule (frontier.rule p)

/-- A run goes on as `Frontier.process` does. -/
theorem text_next {serve : (call : Call rt) → call.Reply} {stage stage' : Stage rt}
    (h : stage.next serve = some stage') : ∃ call k, stage.awaited = some call ∧ stage.text = .await call k ∧
      stage'.text = k (serve call) := by
  cases stage with
  | ruling rest =>
    cases rest with
    | ret r => cases h
    | await call k =>
      obtain rfl := Option.some.inj h
      exact ⟨call, _, rfl, rfl, text_ofRule _⟩
  | deduplicating rest =>
    cases rest with
    | ret r => cases h
    | await call k =>
      obtain rfl := Option.some.inj h
      exact ⟨call, _, rfl, rfl, text_ofDeduplicate _⟩
  | admitted rest =>
    cases rest with
    | ret r => cases h
    | await call k =>
      obtain rfl := Option.some.inj h
      exact ⟨call, k, rfl, rfl, rfl⟩
  | returned outcome => cases h

/-- Past the deduplicator. -/
def Admitted : Stage rt → Prop
  | .admitted _ => True
  | _ => False

end Stage

/-! ## The cache -/

section

variable {rt : Runtime}

/-- The answers of the cache to the deduplicator; those of the other services
are given. -/
def serve (seen : List String) (reply : (call : Call rt) → call.Reply) : (call : Call rt) → call.Reply
  | .isUrlSeen url => .ok (decide (url.hash ∈ seen))
  | .markUrlSeen _ => .ok ()
  | call => reply call

/-- The marks after an operation. -/
def store (seen : List String) : Call rt → List String
  | .markUrlSeen url => url.hash :: seen
  | _ => seen

structure Run (rt : Runtime) where
  payload : Payload rt
  stage : Stage rt

/-- The marks of the shared cache and the runs over it. -/
structure Frontiers (rt : Runtime) where
  seen : List String
  runs : Nat → Option (Run rt)

/-- A run is started, or goes on with the answer to its operation. -/
inductive Turn (rt : Runtime) where
  | start (i : Nat) (payload : Payload rt)
  | next (i : Nat) (reply : (call : Call rt) → call.Reply)

def Turn.run : Turn rt → Nat
  | .start i _ | .next i _ => i

namespace Frontiers

def set (s : Frontiers rt) (seen : List String) (i : Nat) (run : Run rt) : Frontiers rt :=
  ⟨seen, Function.update s.runs i (some run)⟩

def step (s : Frontiers rt) : Turn rt → Option (Frontiers rt)
  | .start i payload =>
    match s.runs i with
    | some _ => none
    | none => some (s.set s.seen i ⟨payload, .start payload⟩)
  | .next i reply => do
    let run ← s.runs i
    let call ← run.stage.awaited
    let stage ← run.stage.next (serve s.seen reply)
    return s.set (store s.seen call) i { run with stage }

def At (s : Frontiers rt) (i : Nat) (P : Run rt → Prop) : Prop := ∃ run, s.runs i = some run ∧ P run

/-- A run was told that the URL is unseen and has yet to mark it. -/
def Marks (s : Frontiers rt) (i : Nat) (hash : String) : Prop :=
  s.At i (fun run => ∃ url, run.stage.awaited = some (.markUrlSeen url) ∧ url.hash = hash)

/-- A run with a payload of the URL that was not flagged is past the
deduplicator. -/
def Admits (s : Frontiers rt) (i : Nat) (hash : String) : Prop :=
  s.At i (fun run => run.payload.deduplicated = false ∧ run.payload.url.hash = hash ∧ run.stage.Admitted)

/-- An unmarked URL is not looked up before another run has marked it. -/
def Unraced (s : Frontiers rt) : Turn rt → Prop
  | .start _ _ => True
  | .next i _ => ∀ run url, s.runs i = some run → run.stage.awaited = some (.isUrlSeen url) →
      url.hash ∉ s.seen → ∀ j, ¬ s.Marks j url.hash

end Frontiers

/-! ## One run -/

/-- The operations of the deduplicator. -/
def Call.Deduplicates : Call rt → Prop
  | .isUrlSeen _ | .markUrlSeen _ => True
  | _ => False

/-- Conversations without the deduplicator. -/
def quiet : Coro.Rules (Call rt) Call.Reply Unit := ⟨fun _ call => ¬ call.Deduplicates, fun _ _ _ _ => True⟩

theorem quiet_ignores {call : Call rt} (h : ¬ call.Deduplicates) : quiet.Ignores () call := ⟨h, fun _ _ _ => rfl⟩

theorem quiet_executes (call : Call rt) (h : call.Executes) : quiet.Ignores () call := by
  apply quiet_ignores
  cases call <;> first | exact h.elim | exact id

/-- About to mark the URL. -/
def Marking (url : BuiltURL rt) (rest : Rest rt (Except Error Bool)) : Prop :=
  ∃ k p, rest = .await (.markUrlSeen url) k ∧ k (.ok ()) = .ret (.ok (.ok false), p)

/-- About to look the URL up. -/
def Checking (url : BuiltURL rt) (rest : Rest rt (Except Error Bool)) : Prop :=
  ∃ k p, rest = .await (.isUrlSeen url) k ∧ k (.ok true) = .ret (.ok (.ok true), p) ∧ Marking url (k (.ok false))

theorem checking_deduplicate {p : Payload rt} (h : p.deduplicated = false) : Checking p.url (frontier.deduplicate p) := by
  obtain ⟨⟩ := p
  subst h
  exact ⟨_, _, rfl, rfl, _, _, rfl, rfl⟩

theorem deduplicate_of_deduplicated {p : Payload rt} (h : p.deduplicated = true) :
    frontier.deduplicate p = .ret (.ok (.ok false), p) := by
  obtain ⟨⟩ := p
  subst h
  rfl

theorem keeps_register_quiet (p : Payload rt) : Proc.Keeps quiet (fun _ _ _ => True) Frontier.register p () := by
  rw [Frontier.register, Proc.keeps_bind, Proc.keeps_read, Proc.after_ok, Proc.keeps_bind]
  cases p.url.domain with
  | none => trivial
  | some domain =>
    rw [Frontier.bucketize, Proc.keeps_pure, Proc.after_ok]
    apply Proc.keeps_ask (quiet_ignores id)
    intro registered
    cases registered with
    | error e => trivial
    | ok _ =>
      apply Proc.keeps_ask (quiet_ignores id)
      intro saved
      cases saved with
      | error e => trivial
      | ok _ => exact Proc.keeps_ask (quiet_ignores id) (fun _ => trivial)

/-- Past the deduplicator the cache is not asked again. -/
theorem keeps_processNew_quiet (p : Payload rt) : Proc.Keeps quiet (fun _ _ _ => True) Frontier.processNew p () := by
  rw [Frontier.processNew, Proc.keeps_bind]
  apply keeps_filter quiet_executes
  intro r metadata
  cases r with
  | error e => trivial
  | ok proceed =>
    cases proceed with
    | error error => trivial
    | ok proceed =>
      cases proceed with
      | false => trivial
      | true =>
        rw [Proc.after_ok]
        dsimp only
        rw [Proc.keeps_bind]
        apply keeps_prioritize quiet_executes
        intro r metadata
        cases r with
        | error e => trivial
        | ok priority =>
          cases priority with
          | error error => trivial
          | ok priority => exact keeps_register_quiet { p with metadata, priority }

namespace Stage

/-- What the stage of a run with the payload looks like. -/
inductive Sound (p : Payload rt) : Stage rt → Prop
  | ruling {rest : Rest rt (Except Error Bool)} :
      Coro.Keeps quiet (fun r _ => r.2.url = p.url ∧ r.2.deduplicated = p.deduplicated) rest () → Sound p (.ruling rest)
  | checking {rest : Rest rt (Except Error Bool)} : p.deduplicated = false → Checking p.url rest →
      Sound p (.deduplicating rest)
  | marking {rest : Rest rt (Except Error Bool)} : p.deduplicated = false → Marking p.url rest →
      Sound p (.deduplicating rest)
  | admitted {rest : Rest rt (Option Error)} : Coro.Keeps quiet (fun _ _ => True) rest () → Sound p (.admitted rest)
  | returned {outcome : Except Raised (Option Error) × Payload rt} : Sound p (.returned outcome)

variable {p : Payload rt} {stage stage' : Stage rt}

/-- The only URL a run marks is its own, before it is past the deduplicator. -/
theorem Sound.marks (h : stage.Sound p) {url : BuiltURL rt} (hurl : stage.awaited = some (.markUrlSeen url)) :
    url = p.url ∧ p.deduplicated = false ∧ ∃ rest, stage = .deduplicating rest ∧ Marking p.url rest := by
  cases h with
  | @ruling rest hrest =>
    cases rest with
    | ret r => cases hurl
    | await call k =>
      obtain rfl : call = .markUrlSeen url := Option.some.inj hurl
      exact absurd trivial hrest.1
  | checking hp hrest =>
    obtain ⟨k, q, rfl, -⟩ := hrest
    cases hurl
  | marking hp hrest =>
    obtain ⟨k, q, rfl, hk⟩ := hrest
    cases hurl
    exact ⟨rfl, hp, _, rfl, k, q, rfl, hk⟩
  | @admitted rest hrest =>
    cases rest with
    | ret r => cases hurl
    | await call k =>
      obtain rfl : call = .markUrlSeen url := Option.some.inj hurl
      exact absurd trivial hrest.1
  | returned => cases hurl

theorem sound_admitted (p : Payload rt) {rest : Rest rt (Option Error)} (h : Coro.Keeps quiet (fun _ _ => True) rest ()) :
    (Stage.admitted rest).Sound p ∧ ∀ url, (Stage.admitted rest).awaited ≠ some (.markUrlSeen url) := by
  refine ⟨.admitted h, ?_⟩
  intro url hurl
  obtain ⟨-, -, rest', hstage, -⟩ := (Sound.admitted (p := p) h).marks hurl
  cases hstage

/-- A run of the payload that has not marked its URL and is past the
deduplicator only by its flag. -/
structure Early (p : Payload rt) (stage : Stage rt) : Prop where
  sound : stage.Sound p
  unmarked : ∀ url, stage.awaited ≠ some (.markUrlSeen url)
  flagged : stage.Admitted → p.deduplicated = true

theorem early_returned (outcome : Except Raised (Option Error) × Payload rt) : Early p (.returned outcome) :=
  ⟨.returned, nofun, False.elim⟩

theorem early_ofDeduplicate {q : Payload rt} (hurl : q.url = p.url) (hq : q.deduplicated = p.deduplicated) :
    Early p (ofDeduplicate (frontier.deduplicate q)) := by
  cases hflag : q.deduplicated with
  | true =>
    rw [deduplicate_of_deduplicated hflag]
    exact ⟨.admitted (keeps_processNew_quiet q), (sound_admitted p (keeps_processNew_quiet q)).2, fun _ => hq ▸ hflag⟩
  | false =>
    obtain ⟨k, q', hrest, hk⟩ := checking_deduplicate hflag
    rw [hrest]
    exact ⟨.checking (hq ▸ hflag) (hurl ▸ ⟨k, q', rfl, hk⟩), nofun, False.elim⟩

theorem early_ofRule {rest : Rest rt (Except Error Bool)}
    (h : Coro.Keeps quiet (fun r _ => r.2.url = p.url ∧ r.2.deduplicated = p.deduplicated) rest ()) :
    Early p (ofRule rest) := by
  cases rest with
  | await call k =>
    refine ⟨.ruling h, ?_, False.elim⟩
    intro url hurl
    obtain rfl : call = .markUrlSeen url := Option.some.inj hurl
    exact h.1 trivial
  | ret r =>
    obtain ⟨r, q⟩ := r
    cases r with
    | error e => exact early_returned _
    | ok proceed =>
      cases proceed with
      | error error => exact early_returned _
      | ok proceed =>
        cases proceed with
        | false => exact early_returned _
        | true => exact early_ofDeduplicate h.1 h.2

theorem early_start (p : Payload rt) : Early p (start p) := by
  apply early_ofRule
  have hkeeps : Proc.Keeps quiet (fun _ q _ => q.url = p.url ∧ q.deduplicated = p.deduplicated)
      (Component.rule frontier) p () := keeps_judgeAll quiet_executes (fun _ _ => ⟨rfl, rfl⟩)
  exact hkeeps

/-- What an answer makes of a run and of the marks. -/
inductive Moves (p : Payload rt) (seen : List String) (stage stage' : Stage rt) : List String → Prop
  | aside : stage'.Sound p → (∀ url, stage'.awaited ≠ some (.markUrlSeen url)) →
      (stage'.Admitted → stage.Admitted ∨ p.deduplicated = true) → Moves p seen stage stage' seen
  | checked : stage.awaited = some (.isUrlSeen p.url) → p.url.hash ∉ seen → stage'.Sound p → ¬ stage'.Admitted →
      Moves p seen stage stage' seen
  | marked : stage.awaited = some (.markUrlSeen p.url) → stage'.Sound p →
      (∀ url, stage'.awaited ≠ some (.markUrlSeen url)) → Moves p seen stage stage' (p.url.hash :: seen)

theorem Early.aside {seen : List String} (h : Early p stage') : Moves p seen stage stage' seen :=
  .aside h.sound h.unmarked (fun ha => .inr (h.flagged ha))

theorem store_quiet {call : Call rt} (h : ¬ call.Deduplicates) (seen : List String) : store seen call = seen := by
  cases call <;> first | exact absurd trivial h | rfl

theorem Sound.moves {seen : List String} {reply : (call : Call rt) → call.Reply} {call : Call rt} (h : stage.Sound p)
    (hcall : stage.awaited = some call) (hnext : stage.next (serve seen reply) = some stage') :
    Moves p seen stage stage' (store seen call) := by
  cases h with
  | @ruling rest hrest =>
    cases rest with
    | ret r => cases hcall
    | await op k =>
      obtain rfl := Option.some.inj hcall
      obtain rfl := Option.some.inj hnext
      rw [store_quiet hrest.1]
      exact (early_ofRule (hrest.2 _ () trivial)).aside
  | checking hp hrest =>
    obtain ⟨k, q, rfl, htrue, hfalse⟩ := hrest
    obtain rfl := Option.some.inj hcall
    obtain rfl := Option.some.inj hnext
    change Moves p seen _ (ofDeduplicate (k (.ok (decide (p.url.hash ∈ seen))))) seen
    by_cases hseen : p.url.hash ∈ seen
    · rw [decide_eq_true hseen, htrue]
      exact (early_returned _).aside
    · rw [decide_eq_false hseen]
      have hmarking : (ofDeduplicate (k (.ok false))) = .deduplicating (k (.ok false)) := by
        obtain ⟨k', q', hk, -⟩ := hfalse
        rw [hk]
        rfl
      rw [hmarking]
      exact .checked rfl hseen (.marking hp hfalse) id
  | marking hp hrest =>
    obtain ⟨k, q, rfl, hk⟩ := hrest
    obtain rfl := Option.some.inj hcall
    obtain rfl := Option.some.inj hnext
    change Moves p seen _ (ofDeduplicate (k (.ok ()))) (p.url.hash :: seen)
    rw [hk]
    have hadmitted := sound_admitted p (keeps_processNew_quiet q)
    exact .marked rfl hadmitted.1 hadmitted.2
  | @admitted rest hrest =>
    cases rest with
    | ret r => cases hcall
    | await op k =>
      obtain rfl := Option.some.inj hcall
      obtain rfl := Option.some.inj hnext
      rw [store_quiet hrest.1]
      have hadmitted := sound_admitted p (hrest.2 (serve seen reply op) () trivial)
      exact .aside hadmitted.1 hadmitted.2 (fun _ => .inl trivial)
  | returned => cases hcall

end Stage

/-! ## Any number of runs -/

namespace Frontiers

variable {s t : Frontiers rt} {i j : Nat} {run : Run rt}

/-- What holds between two operations. -/
structure Once (s : Frontiers rt) : Prop where
  sound : ∀ i run, s.runs i = some run → run.stage.Sound run.payload
  unmarked : ∀ i hash, s.Marks i hash → hash ∉ s.seen
  alone : ∀ i j hash, s.Marks i hash → s.Marks j hash → i = j
  marked : ∀ i hash, s.Admits i hash → hash ∈ s.seen
  once : ∀ i j hash, s.Admits i hash → s.Admits j hash → i = j

theorem at_set_same {seen : List String} {P : Run rt → Prop} : (s.set seen i run).At i P ↔ P run := by
  simp [At, set]

theorem at_set_other {seen : List String} {P : Run rt → Prop} (h : j ≠ i) : (s.set seen i run).At j P ↔ s.At j P := by
  simp [At, set, h]

theorem Once.sound_set {seen : List String} (h : Once s) (hrun : run.stage.Sound run.payload) (j : Nat) (r : Run rt)
    (hr : (s.set seen i run).runs j = some r) : r.stage.Sound r.payload := by
  by_cases hj : j = i
  · subst hj
    obtain rfl : run = r := by simpa [set] using hr
    exact hrun
  · exact h.sound j r (by simpa [set, hj] using hr)

/-- A run that neither marks a URL nor is newly admitted. -/
theorem Once.aside (h : Once s) (hrun : run.stage.Sound run.payload)
    (hmarks : ∀ url, run.stage.awaited ≠ some (.markUrlSeen url))
    (hadmits : ∀ hash, (s.set s.seen i run).Admits i hash → s.Admits i hash) : Once (s.set s.seen i run) := by
  have hold (j : Nat) (hash : String) (hj : (s.set s.seen i run).Marks j hash) : s.Marks j hash := by
    by_cases hji : j = i
    · subst hji
      obtain ⟨url, hurl, -⟩ := at_set_same.mp hj
      exact absurd hurl (hmarks url)
    · exact (at_set_other hji).mp hj
  have hpast (j : Nat) (hash : String) (hj : (s.set s.seen i run).Admits j hash) : s.Admits j hash := by
    by_cases hji : j = i
    · subst hji
      exact hadmits hash hj
    · exact (at_set_other hji).mp hj
  exact {
    sound := h.sound_set hrun
    unmarked := fun j hash hj => h.unmarked j hash (hold j hash hj)
    alone := fun j k hash hj hk => h.alone j k hash (hold j hash hj) (hold k hash hk)
    marked := fun j hash hj => h.marked j hash (hpast j hash hj)
    once := fun j k hash hj hk => h.once j k hash (hpast j hash hj) (hpast k hash hk) }

/-- A run that found its URL unseen, and no other run about to mark it. -/
theorem Once.checked (h : Once s) (hrun : run.stage.Sound run.payload) (hadmitted : ¬ run.stage.Admitted)
    (hseen : run.payload.url.hash ∉ s.seen) (hraced : ∀ j, ¬ s.Marks j run.payload.url.hash) :
    Once (s.set s.seen i run) := by
  have hpast (j : Nat) (hash : String) (hj : (s.set s.seen i run).Admits j hash) : s.Admits j hash := by
    by_cases hji : j = i
    · subst hji
      exact absurd (at_set_same.mp hj).2.2 hadmitted
    · exact (at_set_other hji).mp hj
  have hmarks (j : Nat) (hash : String) (hj : (s.set s.seen i run).Marks j hash) :
      (j = i ∧ hash = run.payload.url.hash) ∨ (j ≠ i ∧ s.Marks j hash) := by
    by_cases hji : j = i
    · subst hji
      obtain ⟨url, hurl, rfl⟩ := at_set_same.mp hj
      exact .inl ⟨rfl, by rw [(hrun.marks hurl).1]⟩
    · exact .inr ⟨hji, (at_set_other hji).mp hj⟩
  exact {
    sound := h.sound_set hrun
    unmarked := by
      intro j hash hj
      obtain ⟨-, rfl⟩ | ⟨-, hold⟩ := hmarks j hash hj
      · exact hseen
      · exact h.unmarked j hash hold
    alone := by
      intro j k hash hj hk
      obtain ⟨rfl, rfl⟩ | ⟨-, hold⟩ := hmarks j hash hj
      · obtain ⟨rfl, -⟩ | ⟨-, hold⟩ := hmarks k _ hk
        · rfl
        · exact absurd hold (hraced k)
      · obtain ⟨rfl, rfl⟩ | ⟨-, hold'⟩ := hmarks k hash hk
        · exact absurd hold (hraced j)
        · exact h.alone j k hash hold hold'
    marked := fun j hash hj => h.marked j hash (hpast j hash hj)
    once := fun j k hash hj hk => h.once j k hash (hpast j hash hj) (hpast k hash hk) }

/-- A run that marks its URL. -/
theorem Once.marked_set (h : Once s) (hrun : run.stage.Sound run.payload)
    (hmarks : ∀ url, run.stage.awaited ≠ some (.markUrlSeen url)) (hi : s.Marks i run.payload.url.hash) :
    Once (s.set (run.payload.url.hash :: s.seen) i run) := by
  have hold (j : Nat) (hash : String) (hj : (s.set (run.payload.url.hash :: s.seen) i run).Marks j hash) :
      j ≠ i ∧ s.Marks j hash := by
    by_cases hji : j = i
    · subst hji
      obtain ⟨url, hurl, -⟩ := at_set_same.mp hj
      exact absurd hurl (hmarks url)
    · exact ⟨hji, (at_set_other hji).mp hj⟩
  have hpast (j : Nat) (hash : String) (hj : (s.set (run.payload.url.hash :: s.seen) i run).Admits j hash) :
      (j = i ∧ hash = run.payload.url.hash) ∨ (j ≠ i ∧ s.Admits j hash ∧ hash ≠ run.payload.url.hash) := by
    by_cases hji : j = i
    · subst hji
      exact .inl ⟨rfl, (at_set_same.mp hj).2.1.symm⟩
    · have hadmits : s.Admits j hash := (at_set_other hji).mp hj
      refine .inr ⟨hji, hadmits, ?_⟩
      rintro rfl
      exact h.unmarked i _ hi (h.marked j _ hadmits)
  exact {
    sound := h.sound_set hrun
    unmarked := by
      intro j hash hj hseen
      obtain ⟨hji, hmarks⟩ := hold j hash hj
      cases List.mem_cons.mp hseen with
      | inl heq =>
        subst heq
        exact hji (h.alone j i _ hmarks hi)
      | inr hseen => exact h.unmarked j hash hmarks hseen
    alone := fun j k hash hj hk => h.alone j k hash (hold j hash hj).2 (hold k hash hk).2
    marked := by
      intro j hash hj
      obtain ⟨-, rfl⟩ | ⟨-, hadmits, -⟩ := hpast j hash hj
      · exact List.mem_cons_self ..
      · exact List.mem_cons_of_mem _ (h.marked j hash hadmits)
    once := by
      intro j k hash hj hk
      obtain ⟨rfl, rfl⟩ | ⟨-, hadmits, hne⟩ := hpast j hash hj
      · obtain ⟨rfl, -⟩ | ⟨-, -, hne⟩ := hpast k _ hk
        · rfl
        · exact absurd rfl hne
      · obtain ⟨rfl, rfl⟩ | ⟨-, hadmits', -⟩ := hpast k hash hk
        · exact absurd rfl hne
        · exact h.once j k hash hadmits hadmits' }

theorem start_spec {payload : Payload rt} (hs : s.step (.start i payload) = some t) :
    s.runs i = none ∧ t = s.set s.seen i ⟨payload, .start payload⟩ := by
  cases hi : s.runs i with
  | some run => simp [Frontiers.step, hi] at hs
  | none => exact ⟨rfl, by simpa [Frontiers.step, hi] using hs.symm⟩

theorem next_spec {reply : (call : Call rt) → call.Reply} (hs : s.step (.next i reply) = some t) :
    ∃ run call stage, s.runs i = some run ∧ run.stage.awaited = some call ∧
      run.stage.next (serve s.seen reply) = some stage ∧ t = s.set (store s.seen call) i { run with stage } := by
  obtain ⟨run, hi, hrest⟩ := Option.bind_eq_some_iff.mp hs
  obtain ⟨call, hcall, hrest⟩ := Option.bind_eq_some_iff.mp hrest
  obtain ⟨stage, hnext, ht⟩ := Option.bind_eq_some_iff.mp hrest
  exact ⟨run, call, stage, hi, hcall, hnext, (Option.some.inj ht).symm⟩

/-- A run takes its own turns only. -/
theorem step_other {turn : Turn rt} (hs : s.step turn = some t) (hj : j ≠ turn.run) : t.runs j = s.runs j := by
  cases turn with
  | start i payload =>
    obtain ⟨-, rfl⟩ := start_spec hs
    exact Function.update_of_ne hj ..
  | next i reply =>
    obtain ⟨run, call, stage, -, -, -, rfl⟩ := next_spec hs
    exact Function.update_of_ne hj ..

theorem Once.step {turn : Turn rt} (h : Once s) (hturn : s.Unraced turn) (hs : s.step turn = some t) : Once t := by
  cases turn with
  | start i payload =>
    obtain ⟨-, rfl⟩ := start_spec hs
    have hearly := Stage.early_start payload
    apply h.aside hearly.sound hearly.unmarked
    intro hash hadmits
    obtain ⟨hflag, -, hadmitted⟩ := at_set_same.mp hadmits
    have hflagged := hearly.flagged hadmitted
    rw [hflag] at hflagged
    cases hflagged
  | next i reply =>
    obtain ⟨run, call, stage, hi, hcall, hnext, rfl⟩ := next_spec hs
    have hmoves := (h.sound i run hi).moves hcall hnext
    generalize store s.seen call = seen at hmoves
    cases hmoves with
    | aside hsound hmarks hadmitted =>
      apply h.aside hsound hmarks
      intro hash hadmits
      obtain ⟨hflag, hhash, hnow⟩ := at_set_same.mp hadmits
      cases hadmitted hnow with
      | inl hbefore => exact ⟨run, hi, hflag, hhash, hbefore⟩
      | inr hflagged =>
        rw [hflag] at hflagged
        cases hflagged
    | checked hcheck hseen hsound hadmitted => exact h.checked hsound hadmitted hseen (hturn run _ hi hcheck hseen)
    | marked hmark hsound hmarks =>
      have honce (r : Run rt) (hr : r = { run with stage }) : Once (s.set (r.payload.url.hash :: s.seen) i r) := by
        apply h.marked_set
        · rw [hr]; exact hsound
        · rw [hr]; exact hmarks
        · rw [hr]; exact ⟨run, hi, _, hmark, rfl⟩
      exact honce _ rfl

theorem once_of_no_runs (h : ∀ i, s.runs i = none) : Once s := by
  have hnone (i : Nat) (P : Run rt → Prop) : ¬ s.At i P := by
    rintro ⟨run, hrun, -⟩
    rw [h i] at hrun
    cases hrun
  exact {
    sound := by
      intro i run hrun
      rw [h i] at hrun
      cases hrun
    unmarked := fun i hash hi => absurd hi (hnone i _)
    alone := fun i j hash hi => absurd hi (hnone i _)
    marked := fun i hash hi => absurd hi (hnone i _)
    once := fun i j hash hi => absurd hi (hnone i _) }

end Frontiers

open Frontiers in
/-- As long as no URL that is not marked is looked up while another run has yet
to mark it, at most one run with an unflagged payload of the URL gets past the
deduplicator. -/
theorem deduplicate_admits_one {s₀ s : Frontiers rt} (h₀ : ∀ i, s₀.runs i = none)
    (h : Reaches Frontiers.step Unraced s₀ s) {i j : Nat} {hash : String} (hi : s.Admits i hash) (hj : s.Admits j hash) :
    i = j := by
  have honce : Once s := h.invariant Once (once_of_no_runs h₀) (fun _ _ _ honce hturn hs => honce.step hturn hs)
  exact honce.once i j hash hi hj

end

/-! Two payloads of one URL. -/

def noRuns : Frontiers asciiRuntime := ⟨[], fun _ => none⟩

/-- The four rules of the Frontier, and the two operations of the deduplicator. -/
def judged (i : Nat) : List (Turn asciiRuntime) := .start i sitePayload :: List.replicate 4 (.next i exampleReply)

def answered (i : Nat) : Turn asciiRuntime := .next i exampleReply

/-- The second run looks the URL up after the first has marked it. -/
def inTurn : List (Turn asciiRuntime) := judged 0 ++ judged 1 ++ [answered 0, answered 0, answered 1]

/-- The second run looks the URL up before the first has marked it. -/
def crossed : List (Turn asciiRuntime) := judged 0 ++ judged 1 ++ [answered 0, answered 1, answered 0, answered 1]

variable {rt : Runtime}

def Call.looksUp : Call rt → Bool
  | .isUrlSeen _ => true
  | _ => false

def Call.marks : Call rt → Bool
  | .markUrlSeen _ => true
  | _ => false

instance (stage : Stage rt) : Decidable stage.Admitted :=
  match stage with
  | .admitted _ => isTrue trivial
  | .ruling _ | .deduplicating _ | .returned _ => isFalse id

/-- One of two runs takes its turn, and where it looks a URL up neither is about
to mark one. -/
def unracedTest (s : Frontiers asciiRuntime) (turn : Turn asciiRuntime) : Bool :=
  turn.run < 2 && ((s.runs turn.run).all (fun run => !run.stage.awaited.any Call.looksUp) ||
    [0, 1].all (fun j => (s.runs j).all (fun run => !run.stage.awaited.any Call.marks)))

def admitsTest (s : Frontiers asciiRuntime) (i : Nat) : Bool :=
  (s.runs i).any (fun run => run.payload.deduplicated = false ∧ run.payload.url.hash = siteURL.hash ∧ run.stage.Admitted)

theorem admits_of_test {s : Frontiers asciiRuntime} {i : Nat} (h : admitsTest s i = true) : s.Admits i siteURL.hash := by
  obtain ⟨run, hrun, htest⟩ := (Option.any_eq_true ..).mp h
  exact ⟨run, hrun, of_decide_eq_true htest⟩

/-- Only the first two runs are ever started. -/
theorem unraced_of_test {s : Frontiers asciiRuntime}
    (h : Reaches Frontiers.step (fun s turn => unracedTest s turn = true) noRuns s) :
    Reaches Frontiers.step Frontiers.Unraced noRuns s := by
  apply h.weaken (fun s => ∀ j, 2 ≤ j → s.runs j = none) (fun _ _ => rfl)
  intro s turn t hnone htest hs
  obtain ⟨hrun, htest⟩ := Bool.and_eq_true_iff.mp htest
  have hlt : turn.run < 2 := of_decide_eq_true hrun
  constructor
  · cases turn with
    | start i payload => trivial
    | next i reply =>
      intro run url hi hcheck _ j hj
      obtain ⟨run', hj', url', hmark, -⟩ := hj
      cases Bool.or_eq_true_iff.mp htest with
      | inl h => simp [Turn.run, hi, hcheck, Call.looksUp] at h
      | inr h =>
        by_cases hj2 : 2 ≤ j
        · rw [hnone j hj2] at hj'
          cases hj'
        · have hall := List.all_eq_true.mp h j (by simp; omega)
          simp [hj', hmark, Call.marks] at hall
  · intro j hj
    rw [Frontiers.step_other hs (by omega)]
    exact hnone j hj

theorem deduplicate_admits_one_site : ∃ s, Reaches Frontiers.step Frontiers.Unraced noRuns s ∧
    s.Admits 0 siteURL.hash ∧ ¬ s.Admits 1 siteURL.hash := by
  obtain ⟨s, hs, htest⟩ := exists_reaches (P := fun s turn => unracedTest s turn = true) Frontiers.step noRuns unracedTest
    (fun _ _ => id) inTurn (fun s => admitsTest s 0) (by decide +kernel)
  have hadmits := admits_of_test htest
  exact ⟨s, unraced_of_test hs, hadmits,
    fun hsecond => absurd (deduplicate_admits_one (fun _ => rfl) (unraced_of_test hs) hadmits hsecond) (by decide)⟩

/-- Both runs find the URL unseen. -/
theorem both_admitted : ∃ s, Reaches Frontiers.step Free noRuns s ∧ s.Admits 0 siteURL.hash ∧ s.Admits 1 siteURL.hash := by
  obtain ⟨s, hs, htest⟩ := exists_reaches_free Frontiers.step noRuns crossed (fun s => admitsTest s 0 && admitsTest s 1)
    (by decide +kernel)
  obtain ⟨hfirst, hsecond⟩ := Bool.and_eq_true_iff.mp htest
  exact ⟨s, hs, admits_of_test hfirst, admits_of_test hsecond⟩

end Linksurf.Pipeline
