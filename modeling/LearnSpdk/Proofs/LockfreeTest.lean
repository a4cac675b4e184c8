import LearnSpdk.Proofs.LockfreeHistory
import LearnSpdk.Proofs.LockfreeProgress

/-! `test_queue` under every schedule: its four tests pass, its assertion holds, and when the
threads are joined each value was given out once, to one consumer, with those of a producer in
their order. -/

namespace LearnSpdk

open Lib

namespace LockfreeQueue

open Shared

variable {ι T : Type} {moved : T → T} {s s' : Shared T} {p : Point T} {r : Result T}

/-! ### Points of a call -/

/-- The thread is in the call `c`; the node of an `enqueue` holds its value. -/
def Point.Runs (s : Shared T) : Call T → Point T → Prop
  | .enqueue value, .enqueue n _ => n < s.size ∧ (s.heap n).given = value
  | .enqueue value, .returns (.enqueue n) => n < s.size ∧ (s.heap n).given = value
  | .dequeue, .dequeue _ => True
  | .dequeue, .returns (.dequeue _) => True
  | .empty, .empty _ => True
  | .empty, .returns (.empty _) => True
  | _, _ => False

theorem begin_runs (s : Shared T) (c : Call T) : (begin s c).2.Runs (begin s c).1 c := by
  cases c with
  | enqueue value => exact ⟨Nat.lt_succ_self _, by simp [begin, makeNode]⟩
  | dequeue => trivial
  | empty => trivial

theorem Point.Runs.of_enqueue {value : T} (h : (Point.returns r).Runs s (.enqueue value)) :
    ∃ n, r = .enqueue n := by
  match r with
  | .enqueue n => exact ⟨n, rfl⟩

theorem Point.Runs.of_dequeue (h : (Point.returns r).Runs s .dequeue) : ∃ taken, r = .dequeue taken := by
  match r with
  | .dequeue taken => exact ⟨taken, rfl⟩

theorem Point.Runs.of_empty (h : (Point.returns r).Runs s .empty) : ∃ answer, r = .empty answer := by
  match r with
  | .empty answer => exact ⟨answer, rfl⟩

theorem Point.Runs.stable {c : Call T} (h : p.Runs s c) (he : Evolves s s') : p.Runs s' c := by
  have hnode {n : ℕ} {v : T} (hn : n < s.size ∧ (s.heap n).given = v) : n < s'.size ∧ (s'.heap n).given = v :=
    ⟨hn.1.trans_le he.size, (he.given n hn.1).trans hn.2⟩
  match c, p with
  | .enqueue _, .enqueue _ _ => exact hnode h
  | .enqueue _, .returns (.enqueue _) => exact hnode h
  | .dequeue, .dequeue _ => trivial
  | .dequeue, .returns (.dequeue _) => trivial
  | .empty, .empty _ => trivial
  | .empty, .returns (.empty _) => trivial

theorem enqueueStep_point (fails : Bool) (n : ℕ) (s : Shared T) (e : EnqueuePoint) :
    (∃ e', (enqueueStep fails n s e).2 = .enqueue n e') ∨ (enqueueStep fails n s e).2 = .returns (.enqueue n) := by
  cases e with
  | checkTail tailPtr nextPtr =>
    left
    simp only [enqueueStep]
    split_ifs
    · cases nextPtr <;> exact ⟨_, rfl⟩
    · exact ⟨_, rfl⟩
  | link tailPtr =>
    left
    simp only [enqueueStep]
    split_ifs <;> exact ⟨_, rfl⟩
  | swingTail tailPtr => exact .inr rfl
  | _ => exact .inl ⟨_, rfl⟩

theorem dequeueStep_point (moved : T → T) (fails : Bool) (s : Shared T) (d : DequeuePoint T) :
    (∃ d', (dequeueStep moved fails s d).2 = .dequeue d') ∨
      ∃ o, (dequeueStep moved fails s d).2 = .returns (.dequeue o) := by
  cases d with
  | checkHead headPtr tailPtr nextPtr =>
    simp only [dequeueStep]
    split_ifs
    · cases nextPtr with
      | none => exact .inr ⟨_, rfl⟩
      | some nextPtr => exact .inl ⟨_, rfl⟩
    · cases nextPtr <;> exact .inl ⟨_, rfl⟩
    · exact .inl ⟨_, rfl⟩
  | swingHead headPtr nextPtr value =>
    simp only [dequeueStep]
    split_ifs
    · exact .inr ⟨_, rfl⟩
    · exact .inl ⟨_, rfl⟩
  | _ => exact .inl ⟨_, rfl⟩

theorem emptyStep_point (s : Shared T) (q : EmptyPoint) :
    (∃ q', (emptyStep s q).2 = .empty q') ∨ ∃ answer, (emptyStep s q).2 = .returns (.empty answer) := by
  cases q with
  | loadHead => exact .inl ⟨_, rfl⟩
  | loadTail headPtr =>
    simp only [emptyStep]
    split_ifs
    · exact .inl ⟨_, rfl⟩
    · exact .inr ⟨_, rfl⟩
  | loadNext headPtr => exact .inr ⟨_, rfl⟩

theorem Point.Runs.advance {c : Call T} {fails : Bool} (h : p.Runs s c) (hbusy : p.busy = true)
    (he : Evolves s (advance moved fails s p).1) :
    (LockfreeQueue.advance moved fails s p).2.Runs (LockfreeQueue.advance moved fails s p).1 c := by
  have hstable := h.stable he
  match c, p with
  | .enqueue _, .enqueue n e =>
    simp only [LockfreeQueue.advance] at hstable ⊢
    rcases enqueueStep_point fails n s e with ⟨e', he'⟩ | hreturns
    · rw [he']
      exact hstable
    · rw [hreturns]
      exact hstable
  | .dequeue, .dequeue d =>
    simp only [LockfreeQueue.advance]
    rcases dequeueStep_point moved fails s d with ⟨d', hd'⟩ | ⟨o, ho⟩
    · rw [hd']
      trivial
    · rw [ho]
      trivial
  | .empty, .empty q =>
    simp only [LockfreeQueue.advance]
    rcases emptyStep_point s q with ⟨q', hq'⟩ | ⟨answer, hanswer⟩
    · rw [hq']
      trivial
    · rw [hanswer]
      trivial
  | _, .returns _ => cases hbusy

/-! ### A thread alone -/

theorem dequeueStep_linked (moved : T → T) (fails : Bool) (s : Shared T) (d : DequeuePoint T) :
    (dequeueStep moved fails s d).1.linked = s.linked := by
  cases d with
  | checkHead headPtr tailPtr nextPtr =>
    simp only [dequeueStep]
    split_ifs
    · cases nextPtr <;> rfl
    · cases nextPtr <;> rfl
    · rfl
  | helpTail tailPtr nextPtr => exact linked_casTail fails
  | swingHead headPtr nextPtr value =>
    simp only [dequeueStep]
    split_ifs <;> rfl
  | _ => rfl

theorem emptyStep_shared (s : Shared T) (q : EmptyPoint) : (emptyStep s q).1 = s := by
  cases q with
  | loadTail headPtr =>
    simp only [emptyStep]
    split_ifs <;> rfl
  | _ => rfl

/-- What a thread knows about the queue of the moment, if no other makes a step. -/
def Point.Alone (s : Shared T) (p : Point T) : Prop := p.Ok s s.AllTaken ¬s.AllTaken

theorem act_alone (moved : T → T) (hs : s.Inv) (hp : p.Alone s) (a : Action ι T) :
    (act moved s p a).2.Alone (act moved s p a).1 := by
  cases a with
  | call i c =>
    by_cases hidle : p = .idle
    · subst hidle
      cases c <;> trivial
    · rw [act_call hidle]
      exact hp
  | advance i fails =>
    cases p with
    | idle => trivial
    | enqueue n e =>
      have hok : (Point.enqueue n e).Ok s False False := hp
      exact (act_ok hs hok (.advance i fails) (fun h => h.resolve_left id) fun h => h.resolve_left id).2
    | dequeue d =>
      have hok : (Point.dequeue d).Ok s s.AllTaken False := hp
      have hevolves : Evolves s (dequeueStep moved fails s d).1 :=
        (act_ok hs hok (.advance i fails) (fun _ => trivial) fun _ => trivial).1.evolves hs
      have hall (h : s.AllTaken) : (dequeueStep moved fails s d).1.AllTaken := by
        intro n hn
        rw [dequeueStep_linked] at hn
        exact hevolves.taken.subset (h n hn)
      exact (act_ok hs hok (.advance i fails) (fun h => h.elim hall id) fun h => h.resolve_left id).2
    | empty q =>
      have hok : (Point.empty q).Ok s False ¬s.AllTaken := hp
      have hsome (h : ¬s.AllTaken) : ¬(emptyStep s q).1.AllTaken := by rwa [emptyStep_shared]
      exact (act_ok hs hok (.advance i fails) (fun h => h.resolve_left id) fun h => h.elim hsome id).2
    | returns r => trivial

/-! ### The program -/

namespace Program

variable {z : Sizes} {S : Program z} {t u : Thread z} {r : Result ℤ}

def shared (S : Program z) : Shared ℤ := S.history.state.shared

inductive Turn (S : Program z) (t : Thread z) (fails : Bool) : Program z → Prop where
  | stay : Turn S t fails S
  | add (hidle : S.point t = .idle) (hadding : S.adding t = true) : Turn S t fails (S.add t)
  | call (c : Call ℤ) (hidle : S.point t = .idle) (hadding : S.adding t = false)
      (hcall : t.call (S.turn t) = some c) (hallowed : S.allowed t = true) : Turn S t fails (S.queue (.call t c))
  | advance (hbusy : (S.point t).busy = true) : Turn S t fails (S.queue (.advance t fails))
  | receive (r : Result ℤ) (hr : S.point t = .returns r) :
      Turn S t fails ((S.queue (.advance t fails)).receive t r)

theorem step_turn (S : Program z) (t : Thread z) (fails : Bool) : Turn S t fails (step (t, fails) S) := by
  simp only [step]
  split
  · exact .stay
  split
  · next hidle =>
    split
    · next hadding => exact .add hidle hadding
    next hadding =>
    split
    · next c hcall =>
      split
      · next hallowed => exact .call c hidle (by simpa using hadding) hcall hallowed
      · exact .stay
    · exact .stay
  · next r hr => exact .receive r hr
  · next hidle hreturns =>
    refine .advance ?_
    cases hp : S.point t with
    | idle => exact absurd hp hidle
    | returns r => exact absurd hp (hreturns r)
    | _ => rfl

theorem run_induct {I : Program z → Prop} (hinit : I (initial z))
    (hturn : ∀ S t fails S', I S → Turn S t fails S' → I S') (choices : List (Thread z × Bool)) :
    I (run z choices) :=
  sched_induct hinit (fun S choice h => hturn S choice.1 choice.2 _ h (step_turn S choice.1 choice.2)) choices

theorem receive_history (S : Program z) (t : Thread z) (r : Result ℤ) : (S.receive t r).history = S.history := by
  match t, r with
  | .main, _ => rfl
  | .consumer _, .dequeue (some _) => rfl
  | .consumer _, .dequeue none => rfl
  | .consumer _, .enqueue _ => rfl
  | .consumer _, .empty _ => rfl
  | .producer _, _ => rfl

theorem receive_of_ne (S : Program z) (r : Result ℤ) (hu : u ≠ t) :
    (S.receive t r).turn u = S.turn u ∧ (S.receive t r).adding u = S.adding u := by
  match t, r with
  | .main, _ => exact ⟨Function.update_of_ne hu _ _, rfl⟩
  | .consumer _, .dequeue (some _) => exact ⟨Function.update_of_ne hu _ _, Function.update_of_ne hu _ _⟩
  | .consumer _, .dequeue none => exact ⟨rfl, rfl⟩
  | .consumer _, .enqueue _ => exact ⟨rfl, rfl⟩
  | .consumer _, .empty _ => exact ⟨rfl, rfl⟩
  | .producer _, _ => exact ⟨rfl, Function.update_of_ne hu _ _⟩

theorem add_history (S : Program z) (t : Thread z) : (S.add t).history = S.history := by cases t <;> rfl

theorem add_of_ne (S : Program z) (hu : u ≠ t) :
    (S.add t).turn u = S.turn u ∧ (S.add t).adding u = S.adding u := by
  cases t with
  | main => exact ⟨rfl, rfl⟩
  | consumer i => exact ⟨rfl, Function.update_of_ne hu _ _⟩
  | producer i => exact ⟨Function.update_of_ne hu _ _, Function.update_of_ne hu _ _⟩

/-! ### The queue of the program -/

def Reached (S : Program z) : Prop := ∃ acts, S.history = LockfreeQueue.history id acts

theorem Reached.queue (h : Reached S) (a : Action (Thread z) ℤ) : Reached (S.queue a) := by
  obtain ⟨acts, hacts⟩ := h
  exact ⟨acts ++ [a], by rw [history_snoc, ← hacts]; rfl⟩

theorem Reached.turn {fails : Bool} {S' : Program z} (h : Reached S) (hturn : Turn S t fails S') : Reached S' := by
  cases hturn with
  | stay => exact h
  | add hidle hadding => exact h.imp fun acts hacts => (add_history S t).trans hacts
  | call c hidle hadding hcall hallowed => exact h.queue _
  | advance hbusy => exact h.queue _
  | receive r hr => exact (h.queue (.advance t fails)).imp fun acts hacts => (receive_history _ t r).trans hacts

theorem Reached.state (h : Reached S) : ∃ acts, S.history = LockfreeQueue.history id acts ∧
    S.history.state = LockfreeQueue.run id acts := by
  obtain ⟨acts, hacts⟩ := h
  exact ⟨acts, hacts, by rw [hacts, history_state]⟩

theorem Reached.inv (h : Reached S) : S.shared.Inv := by
  obtain ⟨acts, -, hstate⟩ := h.state
  rw [shared, hstate]
  exact (sound id acts).inv

theorem Reached.evolves (h : Reached S) (a : Action (Thread z) ℤ) : Evolves S.shared (S.queue a).shared := by
  obtain ⟨acts, -, hstate⟩ := h.state
  have hevolves := ((sound id acts).change a).evolves (sound id acts).inv
  rw [run_snoc, ← hstate] at hevolves
  exact hevolves

theorem queue_shared (S : Program z) (a : Action (Thread z) ℤ) :
    (S.queue a).shared = (act id S.shared (S.point a.thread) a).1 := rfl

theorem queue_point (S : Program z) (a : Action (Thread z) ℤ) :
    (S.queue a).point a.thread = (act id S.shared (S.point a.thread) a).2 := step_point a _

theorem queue_point_of_ne (S : Program z) {a : Action (Thread z) ℤ} (hu : u ≠ a.thread) :
    (S.queue a).point u = S.point u := step_point_of_ne hu _

theorem Reached.turn_evolves {fails : Bool} {S' : Program z} (h : Reached S) (hturn : Turn S t fails S') :
    Evolves S.shared S'.shared := by
  cases hturn with
  | stay => exact .refl S.shared
  | add hidle hadding =>
    rw [shared, shared, add_history]
    exact .refl S.shared
  | call c hidle hadding hcall hallowed => exact h.evolves _
  | advance hbusy => exact h.evolves _
  | receive r hr =>
    rw [shared, shared, receive_history]
    exact h.evolves (.advance t fails)

theorem Turn.of_ne {fails : Bool} {S' : Program z} (hturn : Turn S t fails S') (hu : u ≠ t) :
    S'.point u = S.point u ∧ S'.turn u = S.turn u ∧ S'.adding u = S.adding u := by
  cases hturn with
  | stay => exact ⟨rfl, rfl, rfl⟩
  | add hidle hadding => exact ⟨by rw [point, add_history, point], add_of_ne S hu⟩
  | call c hidle hadding hcall hallowed => exact ⟨queue_point_of_ne S hu, rfl, rfl⟩
  | advance hbusy => exact ⟨queue_point_of_ne S hu, rfl, rfl⟩
  | receive r hr =>
    refine ⟨?_, receive_of_ne _ r hu⟩
    rw [point, receive_history, ← point]
    exact queue_point_of_ne S hu

theorem queue_point_returns (fails : Bool) (hr : S.point t = .returns r) :
    (S.queue (.advance t fails)).point t = .idle := by
  have hnext := queue_point S (.advance t fails)
  rwa [Action.thread, hr] at hnext

theorem point_receive (fails : Bool) (hr : S.point t = .returns r) :
    ((S.queue (.advance t fails)).receive t r).point t = .idle := by
  rw [point, receive_history, ← point]
  exact queue_point_returns fails hr

theorem turn_receive_main (S : Program z) (fails : Bool) (r : Result ℤ) :
    ((S.queue (.advance .main fails)).receive .main r).turn .main = S.turn .main + 1 := by
  simp [Program.receive, queue]

theorem Turn.of_returns {fails : Bool} {S' : Program z} (hturn : Turn S t fails S') (hr : S.point t = .returns r) :
    S' = S ∨ S' = (S.queue (.advance t fails)).receive t r := by
  cases hturn with
  | stay => exact .inl rfl
  | add hidle hadding => rw [hr] at hidle; cases hidle
  | call c hidle hadding hcall hallowed => rw [hr] at hidle; cases hidle
  | advance hbusy => rw [hr] at hbusy; cases hbusy
  | receive r' hr' =>
    obtain rfl : r = r' := by simpa [hr] using hr'
    exact .inr rfl

/-! ### What a thread is at -/

/-- A thread is in the call that its turn asks for, and no thread makes more turns than it
should. -/
structure Calls (S : Program z) : Prop where
  reached : Reached S
  inCall : ∀ t, S.point t ≠ .idle →
    S.adding t = false ∧ ∃ c, t.call (S.turn t) = some c ∧ (S.point t).Runs S.shared c
  main : S.adding .main = false
  consumer : ∀ i, S.turn (.consumer i) ≤ z.share
  producer : ∀ i, S.turn (.producer i) + (S.adding (.producer i)).toNat ≤ z.itemsPerProducer

theorem calls_initial (z : Sizes) : Calls (initial z) where
  reached := ⟨[], rfl⟩
  inCall _ ht := absurd rfl ht
  main := rfl
  consumer _ := Nat.zero_le _
  producer _ := Nat.zero_le _

theorem ne_idle_of_returns (hr : S.point t = .returns r) : S.point t ≠ .idle := by
  rw [hr]
  nofun

theorem Calls.returns (h : Calls S) (hr : S.point t = .returns r) :
    S.adding t = false ∧ ∃ c, t.call (S.turn t) = some c ∧ (Point.returns r).Runs S.shared c := by
  rw [← hr]
  exact h.inCall t (ne_idle_of_returns hr)

theorem turn_lt_of_call_consumer {i : Fin z.numConsumers} {k : ℕ} {c : Call ℤ}
    (h : (Thread.consumer i).call k = some c) : k < z.share ∧ c = .dequeue := by
  simp only [Thread.call] at h
  split_ifs at h with hlt
  exact ⟨hlt, (Option.some.inj h).symm⟩

theorem turn_lt_of_call_producer {i : Fin z.numProducers} {k : ℕ} {c : Call ℤ}
    (h : (Thread.producer i).call k = some c) :
    k < z.itemsPerProducer ∧ c = .enqueue (i.val * z.itemsPerProducer + k : ℕ) := by
  simp only [Thread.call] at h
  split_ifs at h with hlt
  exact ⟨hlt, (Option.some.inj h).symm⟩

theorem Calls.turn_inCall {fails : Bool} {S' : Program z} (h : Calls S) (hturn : Turn S t fails S')
    (hp : S'.point t ≠ .idle) :
    S'.adding t = false ∧ ∃ c, t.call (S'.turn t) = some c ∧ (S'.point t).Runs S'.shared c := by
  cases hturn with
  | stay => exact h.inCall t hp
  | add hidle hadding =>
    rw [point, add_history] at hp
    exact absurd hidle hp
  | call c hidle hadding hcall hallowed =>
    refine ⟨hadding, c, hcall, ?_⟩
    have hpoint := queue_point S (.call t c)
    simp only [Action.thread, hidle, act] at hpoint
    rw [hpoint, queue_shared, Action.thread, hidle]
    exact begin_runs S.shared c
  | advance hbusy =>
    obtain ⟨hadding, c, hcall, hruns⟩ := h.inCall t fun hidle => by rw [hidle] at hbusy; cases hbusy
    refine ⟨hadding, c, hcall, ?_⟩
    have hpoint := queue_point S (.advance t fails)
    rw [Action.thread] at hpoint
    rw [hpoint, queue_shared, Action.thread]
    exact hruns.advance hbusy (h.reached.evolves (.advance t fails))
  | receive r hr => exact absurd (point_receive fails hr) hp

theorem Calls.turn_consumer {fails : Bool} {S' : Program z} {i : Fin z.numConsumers} (h : Calls S)
    (hturn : Turn S (.consumer i) fails S') : S'.turn (.consumer i) ≤ z.share := by
  cases hturn with
  | stay => exact h.consumer i
  | add hidle hadding => exact h.consumer i
  | call c hidle hadding hcall hallowed => exact h.consumer i
  | advance hbusy => exact h.consumer i
  | receive r hr =>
    obtain ⟨-, c, hcall, hruns⟩ := h.returns hr
    obtain ⟨hlt, rfl⟩ := turn_lt_of_call_consumer hcall
    obtain ⟨taken, rfl⟩ := hruns.of_dequeue
    cases taken with
    | none => exact h.consumer i
    | some taken => simpa [receive, queue] using Nat.succ_le_of_lt hlt

theorem Calls.turn_producer {fails : Bool} {S' : Program z} {i : Fin z.numProducers} (h : Calls S)
    (hturn : Turn S (.producer i) fails S') :
    S'.turn (.producer i) + (S'.adding (.producer i)).toNat ≤ z.itemsPerProducer := by
  cases hturn with
  | stay => exact h.producer i
  | add hidle hadding =>
    have hle := h.producer i
    rw [hadding] at hle
    simpa [add] using hle
  | call c hidle hadding hcall hallowed => exact h.producer i
  | advance hbusy => exact h.producer i
  | receive r hr =>
    obtain ⟨-, c, hcall, -⟩ := h.returns hr
    simpa [receive, queue] using Nat.succ_le_of_lt (turn_lt_of_call_producer hcall).1

theorem Turn.adding_main {fails : Bool} {S' : Program z} (hturn : Turn S .main fails S') :
    S'.adding .main = S.adding .main := by cases hturn <;> rfl

theorem Calls.turn {fails : Bool} {S' : Program z} (h : Calls S) (hturn : Turn S t fails S') : Calls S' where
  reached := h.reached.turn hturn
  inCall u hp := by
    by_cases hut : u = t
    · subst hut
      exact h.turn_inCall hturn hp
    · obtain ⟨hpoint, hturn', hadding'⟩ := hturn.of_ne hut
      rw [hpoint] at hp ⊢
      rw [hturn', hadding']
      obtain ⟨hadding, c, hcall, hruns⟩ := h.inCall u hp
      exact ⟨hadding, c, hcall, hruns.stable (h.reached.turn_evolves hturn)⟩
  main := by
    by_cases ht : .main = t
    · subst ht
      exact hturn.adding_main.trans h.main
    · exact (hturn.of_ne ht).2.2.trans h.main
  consumer i := by
    by_cases ht : .consumer i = t
    · subst ht
      exact h.turn_consumer hturn
    · exact (hturn.of_ne ht).2.1.trans_le (h.consumer i)
  producer i := by
    by_cases ht : .producer i = t
    · subst ht
      exact h.turn_producer hturn
    · obtain ⟨-, hturn', hadding'⟩ := hturn.of_ne ht
      rw [hturn', hadding']
      exact h.producer i

/-! ### The main thread and the others -/

/-- The main thread is alone with the queue whenever it is in a call. -/
structure Phases (S : Program z) : Prop where
  fresh : S.turn .main < prelude.length → ∀ t, t ≠ .main → S.point t = .idle ∧ S.turn t = 0 ∧ S.adding t = false
  waits : S.point .main ≠ .idle → S.turn .main < prelude.length ∨ S.joined = true
  past : prelude.length < S.turn .main → S.joined = true
  alone : (S.point .main).Alone S.shared

theorem phases_initial (z : Sizes) : Phases (initial z) where
  fresh _ _ _ := ⟨rfl, rfl, rfl⟩
  waits h := absurd rfl h
  past h := absurd h (Nat.not_lt_zero _)
  alone := trivial

theorem ended_iff : S.ended t = true ↔ S.point t = .idle ∧ S.adding t = false ∧ t.call (S.turn t) = none := by
  cases hp : S.point t <;> simp [ended, hp]

theorem joined_iff : S.joined = true ↔ ∀ t, t ≠ .main → S.ended t = true := by
  rw [joined, Bool.and_eq_true, decide_eq_true_iff, decide_eq_true_iff]
  refine ⟨?_, fun h => ⟨fun i => h _ nofun, fun i => h _ nofun⟩⟩
  rintro ⟨hconsumers, hproducers⟩ t ht
  cases t with
  | main => exact absurd rfl ht
  | consumer i => exact hconsumers i
  | producer i => exact hproducers i

/-- An idle thread that is not adding and that has no call to make, or may not make it. -/
theorem Turn.eq_of_still {fails : Bool} {S' : Program z} (hturn : Turn S t fails S') (hidle : S.point t = .idle)
    (hadding : S.adding t = false) (hcall : t.call (S.turn t) = none ∨ S.allowed t = false) : S' = S := by
  cases hturn with
  | stay => rfl
  | add hidle hadding' => rw [hadding] at hadding'; cases hadding'
  | call c hidle hadding hcall' hallowed =>
    rcases hcall with hcall | hcall
    · rw [hcall'] at hcall
      cases hcall
    · rw [hallowed] at hcall
      cases hcall
  | advance hbusy => rw [hidle] at hbusy; cases hbusy
  | receive r hr => rw [hidle] at hr; cases hr

/-- While the main thread is in a call, the others do nothing. -/
theorem Phases.still {fails : Bool} {S' : Program z} (h : Phases S) (ht : t ≠ .main)
    (hphase : S.turn .main < prelude.length ∨ S.joined = true) (hturn : Turn S t fails S') : S' = S := by
  rcases hphase with hlt | hjoined
  · obtain ⟨hidle, -, hadding⟩ := h.fresh hlt t ht
    refine hturn.eq_of_still hidle hadding (.inr ?_)
    cases t with
    | main => exact absurd rfl ht
    | consumer i => simpa [allowed] using hlt
    | producer i => simpa [allowed] using hlt
  · obtain ⟨hidle, hadding, hcall⟩ := ended_iff.1 (joined_iff.1 hjoined t ht)
    exact hturn.eq_of_still hidle hadding (.inl hcall)

theorem joined_turn {fails : Bool} {S' : Program z} (hjoined : S.joined = true) (h : Phases S)
    (hturn : Turn S t fails S') : S'.joined = true := by
  by_cases ht : t = .main
  · subst ht
    rw [joined_iff] at hjoined ⊢
    intro u hu
    obtain ⟨hpoint, hturn', hadding⟩ := hturn.of_ne hu
    rw [ended_iff, hpoint, hturn', hadding, ← ended_iff]
    exact hjoined u hu
  · rwa [h.still ht (.inr hjoined) hturn]

theorem Turn.turn_le {fails : Bool} {S' : Program z} (hturn : Turn S t fails S') : S.turn u ≤ S'.turn u := by
  by_cases hu : u = t
  · subst hu
    cases hturn with
    | add hidle hadding => cases u <;> simp [Program.add]
    | receive r hr =>
      match u, r with
      | .main, _ => simp [Program.receive, queue]
      | .consumer _, .dequeue (some _) => simp [Program.receive, queue]
      | .consumer _, .dequeue none => exact le_refl _
      | .consumer _, .enqueue _ => exact le_refl _
      | .consumer _, .empty _ => exact le_refl _
      | .producer _, _ => exact le_refl _
    | _ => exact le_refl _
  · exact (hturn.of_ne hu).2.1.ge

theorem Reached.alone (h : Reached S) (a : Action (Thread z) ℤ) (halone : (S.point a.thread).Alone S.shared) :
    ((S.queue a).point a.thread).Alone (S.queue a).shared := by
  rw [queue_point, queue_shared]
  exact act_alone id h.inv halone a

theorem Phases.turn_main {fails : Bool} {S' : Program z} (h : Phases S) (hc : Calls S)
    (hturn : Turn S .main fails S') : Phases S' where
  fresh hlt u hu := by
    obtain ⟨hpoint, hturn', hadding⟩ := hturn.of_ne hu
    rw [hpoint, hturn', hadding]
    exact h.fresh (hturn.turn_le.trans_lt hlt) u hu
  waits hbusy := by
    have hjoined (hjoined : S.joined = true) : S'.joined = true := joined_turn hjoined h hturn
    cases hturn with
    | stay => exact h.waits hbusy
    | add hidle hadding => exact h.waits hbusy
    | call c hidle hadding hcall hallowed =>
      have hphase : S.turn .main < prelude.length ∨ S.joined = true := by simpa [allowed] using hallowed
      exact hphase.imp id hjoined
    | advance hbusy' =>
      have hphase := h.waits fun hidle => by rw [hidle] at hbusy'; cases hbusy'
      exact hphase.imp id hjoined
    | receive r hr => exact absurd (point_receive fails hr) hbusy
  past hpast := by
    refine joined_turn ?_ h hturn
    cases hturn with
    | stay => exact h.past hpast
    | add hidle hadding => exact h.past hpast
    | call c hidle hadding hcall hallowed => exact h.past hpast
    | advance hbusy => exact h.past hpast
    | receive r hr =>
      rw [turn_receive_main] at hpast
      exact (h.waits (ne_idle_of_returns hr)).resolve_left (Nat.not_lt.2 (Nat.le_of_lt_succ hpast))
  alone := by
    cases hturn with
    | stay => exact h.alone
    | add hidle hadding => exact h.alone
    | call c hidle hadding hcall hallowed => exact hc.reached.alone (.call .main c) h.alone
    | advance hbusy => exact hc.reached.alone (.advance .main fails) h.alone
    | receive r hr =>
      rw [point_receive fails hr]
      trivial

theorem Phases.turn {fails : Bool} {S' : Program z} (h : Phases S) (hc : Calls S) (hturn : Turn S t fails S') :
    Phases S' := by
  by_cases ht : t = .main
  · subst ht
    exact h.turn_main hc hturn
  · by_cases hbusy : S.point .main = .idle ∧ ¬S.turn .main < prelude.length
    · obtain ⟨hidle, hlt⟩ := hbusy
      obtain ⟨hpoint, hturn', -⟩ := hturn.of_ne (Ne.symm ht)
      rw [hidle] at hpoint
      refine ⟨fun hlt' => absurd (hturn'.symm.trans_lt hlt') hlt, fun hne => absurd hpoint hne, ?_, ?_⟩
      · intro hpast
        rw [hturn'] at hpast
        exact joined_turn (h.past hpast) h hturn
      · rw [hpoint]
        trivial
    · -- the main thread is in a call, or has yet to start the others
      have hphase : S.turn .main < prelude.length ∨ S.joined = true := by
        rw [not_and_or, not_not] at hbusy
        rcases hbusy with hbusy | hlt
        · exact h.waits hbusy
        · exact .inl hlt
      rwa [h.still ht hphase hturn]

/-! ### The results -/

theorem results_receive {fails : Bool} (hr : S.point t = .returns r) :
    ((S.queue (.advance t fails)).receive t r).history.results t = S.history.results t ++ [r] := by
  rw [receive_history]
  refine (results_step id S.history (.advance t fails)).trans ?_
  rw [Action.thread, show S.history.state.point t = .returns r from hr]
  rfl

theorem Turn.results_eq {fails : Bool} {S' : Program z} (hturn : Turn S t fails S')
    (h : u ≠ t ∨ ∀ r, S.point t ≠ .returns r) : S'.history.results u = S.history.results u := by
  have hqueue (a : Action (Thread z) ℤ) (ha : a.thread = t)
      (hnone : u ≠ t ∨ answered (S.history.state.point t) a = none) :
      (S.queue a).history.results u = S.history.results u := by
    by_cases hu : u = t
    · subst hu
      subst ha
      refine (results_step id S.history a).trans ?_
      rw [hnone.resolve_left fun hne => hne rfl]
      exact List.append_nil _
    · exact results_step_of_ne id S.history (ha ▸ hu)
  cases hturn with
  | stay => rfl
  | add hidle hadding => rw [add_history]
  | call c hidle hadding hcall hallowed => exact hqueue (.call t c) rfl (.inr rfl)
  | advance hbusy =>
    refine hqueue (.advance t fails) rfl (.inr ?_)
    change answered (S.point t) (.advance t fails) = none
    cases hp : S.point t with
    | returns r => rw [hp] at hbusy; cases hbusy
    | _ => rfl
  | receive r hr =>
    rw [receive_history]
    exact hqueue (.advance t fails) rfl (.inl (h.resolve_right fun hne => hne r hr))

theorem Reached.given {fails : Bool} {S' : Program z} (h : Reached S) (hturn : Turn S t fails S') {n : ℕ}
    (hn : n ∈ S.shared.linked) : (S'.shared.heap n).given = (S.shared.heap n).given := by
  have hlt := h.inv.lt n (List.mem_cons_of_mem _ hn)
  cases hturn with
  | stay => rfl
  | add hidle hadding => rw [shared, add_history, shared]
  | call c hidle hadding hcall hallowed => exact (h.evolves _).given n hlt
  | advance hbusy => exact (h.evolves _).given n hlt
  | receive r hr =>
    rw [shared, receive_history, ← shared]
    exact (h.evolves _).given n hlt

theorem Reached.mem_linked (h : Reached S) {n : ℕ} (hn : n ∈ S.history.enqueued t) : n ∈ S.shared.linked := by
  obtain ⟨acts, hacts, hstate⟩ := h.state
  rw [hacts] at hn
  rw [shared, hstate]
  exact mem_linked_of_enqueued hn

end Program

def Call.value : Call ℤ → Option ℤ
  | .enqueue value => some value
  | _ => none

/-- What a thread puts in its first `k` turns. -/
def Thread.values {z : Sizes} (t : Thread z) (k : ℕ) : List ℤ :=
  (List.range k).filterMap fun j => (t.call j).bind Call.value

theorem values_succ {z : Sizes} (t : Thread z) (k : ℕ) :
    t.values (k + 1) = t.values k ++ ((t.call k).bind Call.value).toList := by
  rw [Thread.values, List.range_succ, List.filterMap_append, Thread.values]
  cases hvalue : (t.call k).bind Call.value <;> simp [hvalue]

theorem values_consumer {z : Sizes} (i : Fin z.numConsumers) (k : ℕ) : (Thread.consumer i).values k = [] := by
  refine List.filterMap_eq_nil_iff.2 fun j _ => ?_
  simp only [Thread.call]
  split_ifs <;> rfl

theorem Point.Runs.put {s : Shared ℤ} {r : Result ℤ} {c : Call ℤ} (h : (Point.returns r).Runs s c) :
    r.put.toList.map (fun n => (s.heap n).given) = c.value.toList := by
  match c, r with
  | .enqueue value, .enqueue n => simpa [Result.put, Call.value] using h.2
  | .dequeue, .dequeue _ => rfl
  | .empty, .empty _ => rfl

namespace Program

variable {z : Sizes} {S : Program z} {t u : Thread z} {r : Result ℤ}

/-- The calls of a thread that are over: a producer counts a call before it makes the next. -/
def finished (S : Program z) : Thread z → ℕ
  | .producer i => S.turn (.producer i) + (S.adding (.producer i)).toNat
  | t => S.turn t

def givens (S : Program z) (nodes : List ℕ) : List ℤ := nodes.map fun n => (S.shared.heap n).given

def Puts (S : Program z) : Prop := ∀ t, S.givens (S.history.enqueued t) = t.values (S.finished t)

theorem Reached.givens_eq {fails : Bool} {S' : Program z} (h : Reached S) (hturn : Turn S t fails S') :
    S'.givens (S.history.enqueued u) = S.givens (S.history.enqueued u) :=
  List.map_congr_left fun _ hn => h.given hturn (h.mem_linked hn)

theorem Puts.turn {fails : Bool} {S' : Program z} (h : Puts S) (hc : Calls S) (hturn : Turn S t fails S') :
    Puts S' := by
  intro u
  have hsame (hresults : S'.history.results u = S.history.results u) (hfinished : S'.finished u = S.finished u) :
      S'.givens (S'.history.enqueued u) = u.values (S'.finished u) := by
    rw [History.enqueued, hresults, hfinished, ← h u]
    exact hc.reached.givens_eq hturn
  by_cases hu : u = t
  swap
  · obtain ⟨-, hturn', hadding⟩ := hturn.of_ne hu
    refine hsame (hturn.results_eq (.inl hu)) ?_
    cases u <;> simp only [finished, hturn', hadding]
  subst hu
  have hgivens := hc.reached.givens_eq (u := u) hturn
  cases hturn with
  | stay => exact h u
  | add hidle hadding =>
    refine hsame (by rw [add_history]) ?_
    cases u <;> simp [finished, add, hadding]
  | call c hidle hadding hcall hallowed =>
    exact hsame (Turn.results_eq (.call c hidle hadding hcall hallowed : Turn S u fails _)
      (.inr fun r hr => by rw [hidle] at hr; cases hr)) rfl
  | advance hbusy =>
    exact hsame (Turn.results_eq (.advance hbusy) (.inr fun r hr => by rw [hr] at hbusy; cases hbusy)) rfl
  | receive r hr =>
    obtain ⟨hadding, c, hcall, hruns⟩ := hc.returns hr
    have hput := (hruns.stable (hc.reached.evolves (.advance u fails))).put
    have hshared : ((S.queue (.advance u fails)).receive u r).shared = (S.queue (.advance u fails)).shared := by
      rw [shared, receive_history, shared]
    have hmap : ((S.queue (.advance u fails)).receive u r).givens ([r].filterMap Result.put) = c.value.toList := by
      rw [givens, hshared, ← hput]
      cases r <;> rfl
    rw [History.enqueued, results_receive hr, List.filterMap_append, givens, List.map_append, ← givens, ← givens,
      ← History.enqueued, hgivens, hmap, h u]
    -- the call that is over is the one of the turn
    have hsucc : u.values (S.turn u + 1) = u.values (S.turn u) ++ c.value.toList := by
      rw [values_succ, hcall]
      rfl
    cases u with
    | main => simpa [finished, receive, queue] using hsucc.symm
    | consumer i =>
      simp only [values_consumer] at hsucc ⊢
      exact hsucc.symm
    | producer i => simpa [finished, receive, queue, hadding] using hsucc.symm

/-- Each turn of a consumer took something, and no producer took anything. -/
structure Takes (S : Program z) : Prop where
  consumer : ∀ i, (S.history.dequeued (.consumer i)).length = S.turn (.consumer i)
  producer : ∀ i, S.history.dequeued (.producer i) = []

theorem Takes.receive {fails : Bool} (h : Takes S) (hc : Calls S) (hr : S.point t = .returns r) :
    Takes ((S.queue (.advance t fails)).receive t r) := by
  obtain ⟨-, c, hcall, hruns⟩ := hc.returns hr
  have hturn : Turn S t fails ((S.queue (.advance t fails)).receive t r) := .receive r hr
  refine ⟨fun i => ?_, fun i => ?_⟩
  · by_cases hi : Thread.consumer i = t
    · subst hi
      obtain ⟨-, rfl⟩ := turn_lt_of_call_consumer hcall
      rw [History.dequeued, results_receive hr, List.filterMap_append, List.length_append, ← History.dequeued,
        h.consumer i]
      obtain ⟨taken, rfl⟩ := hruns.of_dequeue
      cases taken <;> simp [Program.receive, queue, Result.got]
    · rw [History.dequeued, hturn.results_eq (.inl hi), ← History.dequeued, (hturn.of_ne hi).2.1]
      exact h.consumer i
  · by_cases hi : Thread.producer i = t
    · subst hi
      obtain ⟨-, rfl⟩ := turn_lt_of_call_producer hcall
      rw [History.dequeued, results_receive hr, List.filterMap_append, ← History.dequeued, h.producer i]
      obtain ⟨n, rfl⟩ := hruns.of_enqueue
      rfl
    · rw [History.dequeued, hturn.results_eq (.inl hi), ← History.dequeued]
      exact h.producer i

theorem Takes.turn {fails : Bool} {S' : Program z} (h : Takes S) (hc : Calls S) (hturn : Turn S t fails S') :
    Takes S' := by
  by_cases hreturns : ∃ r, S.point t = .returns r
  · obtain ⟨r, hr⟩ := hreturns
    rcases hturn.of_returns hr with rfl | rfl
    · exact h
    · exact h.receive hc hr
  · have hnone : ∀ r, S.point t ≠ .returns r := fun r hr => hreturns ⟨r, hr⟩
    have hdequeued (u : Thread z) : S'.history.dequeued u = S.history.dequeued u := by
      rw [History.dequeued, hturn.results_eq (.inr hnone), History.dequeued]
    refine ⟨fun i => ?_, fun i => (hdequeued _).trans (h.producer i)⟩
    rw [hdequeued, h.consumer i]
    cases hturn with
    | add hidle hadding => cases t <;> rfl
    | receive r hr => exact absurd hr (hnone r)
    | _ => rfl

structure Counts (S : Program z) : Prop where
  produced : S.produced = ∑ i, S.turn (.producer i)
  consumed : S.consumed + ∑ i, (S.adding (.consumer i)).toNat = ∑ i, S.turn (.consumer i)

theorem sum_update {n : ℕ} {f : Fin n → Thread z} (hf : Function.Injective f) {τ : Type} (F : τ → ℕ)
    (g : Thread z → τ) (i : Fin n) (x : τ) :
    ∑ j, F (Function.update g (f i) x (f j)) + F (g (f i)) = ∑ j, F (g (f j)) + F x := by
  have hsum := sum_update_add (p := g ∘ f) (i := i) (q := x) (F := F) (G := F) fun _ _ => rfl
  rw [← Function.update_comp_eq_of_injective g hf i x] at hsum
  exact hsum

theorem Counts.turn {fails : Bool} {S' : Program z} (h : Counts S) (hc : Calls S) (hturn : Turn S t fails S') :
    Counts S' := by
  obtain ⟨hproduced, hconsumed⟩ := h
  have hconsumer : Function.Injective (Thread.consumer (z := z)) := fun _ _ => Thread.consumer.inj
  have hproducer : Function.Injective (Thread.producer (z := z)) := fun _ _ => Thread.producer.inj
  cases hturn with
  | add hidle hadding =>
    cases t with
    | main => exact ⟨hproduced, hconsumed⟩
    | consumer i =>
      refine ⟨hproduced, ?_⟩
      have hsum := sum_update hconsumer Bool.toNat S.adding i false
      rw [hadding] at hsum
      simp only [add]
      simp only [Bool.toNat_true, Bool.toNat_false] at hsum
      omega
    | producer i =>
      refine ⟨?_, ?_⟩
      · have hsum := sum_update hproducer id S.turn i (S.turn (.producer i) + 1)
        simp only [id] at hsum
        simp only [add]
        omega
      · simpa [add] using hconsumed
  | receive r hr =>
    obtain ⟨hadding, -⟩ := hc.returns hr
    match t, r with
    | .main, _ => exact ⟨by simpa [receive, queue] using hproduced, by simpa [receive, queue] using hconsumed⟩
    | .consumer i, .dequeue (some taken) =>
      refine ⟨by simpa [receive, queue] using hproduced, ?_⟩
      have hturn := sum_update hconsumer id S.turn i (S.turn (.consumer i) + 1)
      have hsum := sum_update hconsumer Bool.toNat S.adding i true
      rw [hadding] at hsum
      simp only [id, Bool.toNat_true, Bool.toNat_false] at hturn hsum
      simp only [receive, queue]
      omega
    | .consumer i, .dequeue none => exact ⟨hproduced, hconsumed⟩
    | .consumer i, .enqueue _ => exact ⟨hproduced, hconsumed⟩
    | .consumer i, .empty _ => exact ⟨hproduced, hconsumed⟩
    | .producer i, _ => exact ⟨hproduced, by simpa [receive, queue] using hconsumed⟩
  | _ => exact ⟨hproduced, hconsumed⟩

end Program

end LockfreeQueue

end LearnSpdk
