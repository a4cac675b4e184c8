import LearnSpdk.Proofs.LockfreeShape
import LearnSpdk.Proofs.LockfreeTestRuns

/-! No schedule leads `test_queue` into a corner: from every state it reaches, the threads can
go on until the main thread has come to its end. -/

namespace LearnSpdk

open Lib

namespace LockfreeQueue

open Shared

namespace Program

variable {z : Sizes} {S S' : Program z} {t u : Thread z} {r : Result ℤ}

structure Good (S : Program z) : Prop where
  sane : Sane S
  answers : Answers S

theorem run_good (z : Sizes) (choices : List (Thread z × Bool)) : Good (run z choices) :=
  ⟨(run_answers z choices).1, (run_answers z choices).2⟩

theorem Good.step (h : Good S) (t : Thread z) (fails : Bool) : Good (step (t, fails) S) :=
  ⟨h.sane.turn (step_turn S t fails), h.answers.turn h.sane (step_turn S t fails)⟩

def Reaches (S S' : Program z) : Prop := ∃ choices, sched step S choices = S'

theorem Reaches.refl (S : Program z) : Reaches S S := ⟨[], rfl⟩

theorem Reaches.trans {S₁ S₂ S₃ : Program z} (h : Reaches S₁ S₂) (h' : Reaches S₂ S₃) : Reaches S₁ S₃ := by
  obtain ⟨choices, rfl⟩ := h
  obtain ⟨later, rfl⟩ := h'
  exact ⟨choices ++ later, List.foldl_append⟩

theorem Reaches.step (S : Program z) (t : Thread z) : Reaches S (step (t, false) S) := ⟨[(t, false)], rfl⟩

theorem Reaches.good (h : Reaches S S') (hS : Good S) : Good S' := by
  obtain ⟨choices, rfl⟩ := h
  exact sched_induct hS (fun S choice h => h.step choice.1 choice.2) choices

/-! ### Steps that are taken -/

theorem step_busy (h : Good S) (hbusy : (S.point t).busy = true) :
    step (t, false) S = S.queue (.advance t false) := by
  have hrunning := h.answers.running
  cases hp : S.point t with
  | idle => rw [hp] at hbusy; cases hbusy
  | returns r => rw [hp] at hbusy; cases hbusy
  | _ => simp [step, hrunning, hp]

theorem step_returns (h : Good S) (hr : S.point t = .returns r) :
    step (t, false) S = (S.queue (.advance t false)).receive t r := by
  have hrunning := h.answers.running
  simp [step, hrunning, hr]

theorem step_adds (h : Good S) (hidle : S.point t = .idle) (hadding : S.adding t = true) :
    step (t, false) S = S.add t := by
  have hrunning := h.answers.running
  simp [step, hrunning, hidle, hadding]

theorem step_calls (h : Good S) {c : Call ℤ} (hidle : S.point t = .idle) (hadding : S.adding t = false)
    (hcall : t.call (S.turn t) = some c) (hallowed : S.allowed t = true) :
    step (t, false) S = S.queue (.call t c) := by
  have hrunning := h.answers.running
  simp [step, hrunning, hidle, hadding, hcall, hallowed]

/-! ### A call that is run to its return -/

/-- Nothing but the call of `t` went on. -/
structure Solo (t : Thread z) (S S' : Program z) : Prop where
  reaches : Reaches S S'
  turn : S'.turn = S.turn
  adding : S'.adding = S.adding
  point : ∀ u, u ≠ t → S'.point u = S.point u
  alone : (S.point t).Alone S.shared → (S'.point t).Alone S'.shared

theorem Solo.refl (t : Thread z) (S : Program z) : Solo t S S := ⟨.refl S, rfl, rfl, fun _ _ => rfl, fun h => h⟩

theorem Solo.trans {S₁ S₂ S₃ : Program z} (h : Solo t S₁ S₂) (h' : Solo t S₂ S₃) : Solo t S₁ S₃ :=
  ⟨h.reaches.trans h'.reaches, h'.turn.trans h.turn, h'.adding.trans h.adding,
    fun u hu => (h'.point u hu).trans (h.point u hu), fun halone => h'.alone (h.alone halone)⟩

theorem Solo.queue (h : Good S) {a : Action (Thread z) ℤ} (ha : a.thread = t)
    (hstep : step (t, false) S = S.queue a) : Solo t S (S.queue a) := by
  refine ⟨hstep ▸ Reaches.step S t, rfl, rfl, fun u hu => queue_point_of_ne S (ha ▸ hu), ?_⟩
  subst ha
  exact h.sane.calls.reached.alone a

theorem Reached.left (h : Reached S) (hbusy : (S.point t).busy = true) :
    ((S.queue (.advance t false)).point t).left (S.queue (.advance t false)).shared + 1 ≤
      (S.point t).left S.shared := by
  obtain ⟨acts, -, hstate⟩ := h.state
  have hleft := advance_left id (sound id acts).inv ((sound id acts).ok t) (run_lone id acts t)
    (by rw [← hstate]; exact hbusy)
  rw [← hstate] at hleft
  have hpoint := queue_point S (.advance t false)
  rw [Action.thread] at hpoint
  rw [hpoint]
  exact hleft

theorem solo_returns (n : ℕ) (h : Good S) (hbusy : (S.point t).busy = true) (hn : (S.point t).left S.shared ≤ n) :
    ∃ S' r, Solo t S S' ∧ S'.point t = .returns r := by
  induction n generalizing S with
  | zero =>
    have hleft := h.sane.calls.reached.left hbusy
    omega
  | succ n ih =>
    have hleft := h.sane.calls.reached.left hbusy
    have hstep := step_busy h hbusy
    have hsolo := Solo.queue h (a := .advance t false) rfl hstep
    have hpoint : (S.queue (.advance t false)).point t = (advance id false S.shared (S.point t)).2 :=
      queue_point S (.advance t false)
    rcases advance_busy_or_returns id S.shared false hbusy with hbusy' | ⟨r, hr⟩
    · obtain ⟨S', r, hsolo', hr⟩ := ih (hsolo.reaches.good h) (by rw [hpoint]; exact hbusy') (by omega)
      exact ⟨S', r, hsolo.trans hsolo', hr⟩
    · exact ⟨_, r, hsolo, hpoint.trans hr⟩

theorem begin_busy (s : Shared ℤ) (c : Call ℤ) : (begin s c).2.busy = true := by cases c <;> rfl

/-- A thread that may make a call, or is in one, can come to the return of it. -/
theorem ready_returns (h : Good S) {c : Call ℤ} (hadding : S.adding t = false) (hcall : t.call (S.turn t) = some c)
    (hallowed : S.allowed t = true) : ∃ S' r, Solo t S S' ∧ S'.point t = .returns r := by
  cases hp : S.point t with
  | returns r => exact ⟨S, r, .refl t S, hp⟩
  | idle =>
    have hsolo := Solo.queue h (a := .call t c) rfl (step_calls h hp hadding hcall hallowed)
    have hpoint := queue_point S (.call t c)
    rw [Action.thread, hp] at hpoint
    have hbusy : ((S.queue (.call t c)).point t).busy = true := by
      rw [hpoint]
      exact begin_busy _ c
    obtain ⟨S', r, hsolo', hr⟩ := solo_returns _ (hsolo.reaches.good h) hbusy (le_refl _)
    exact ⟨S', r, hsolo.trans hsolo', hr⟩
  | _ => exact solo_returns _ h (by rw [hp]; rfl) (le_refl _)

/-! ### A consumer that waits -/

theorem length_taken (S : Program z) (t : Thread z) :
    (S.history.taken t).length = (S.history.dequeued t).length + (S.point t).got.length := by
  rw [History.taken, List.length_append, List.length_map, List.length_map]
  rfl

theorem sum_const (n k : ℕ) : ((List.finRange n).map fun _ => k).sum = n * k := by simp

theorem Point.Runs.got_eq_nil {s : Shared ℤ} {p : Point ℤ} {c : Call ℤ} (h : p.Runs s c) (hc : c ≠ .dequeue) :
    p.got = [] := by
  match c, p with
  | .enqueue _, .enqueue _ _ => rfl
  | .enqueue _, .returns (.enqueue _) => rfl
  | .dequeue, _ => exact absurd rfl hc
  | .empty, .empty _ => rfl
  | .empty, .returns (.empty _) => rfl

theorem Calls.got_eq_nil (h : Calls S) (hcall : t.call (S.turn t) ≠ some .dequeue) : (S.point t).got = [] := by
  by_cases hidle : S.point t = .idle
  · rw [hidle]
    rfl
  · obtain ⟨-, c, hc, hruns⟩ := h.inCall t hidle
    exact Point.Runs.got_eq_nil hruns fun heq => hcall (heq ▸ hc)

theorem got_length_le (p : Point ℤ) : p.got.length ≤ 1 := by
  cases p with
  | returns r => cases hr : r.got <;> simp [Point.got, hr]
  | _ => simp [Point.got]

theorem Calls.taken_le (h : Calls S) (i : Fin z.numConsumers) :
    S.turn (.consumer i) + (S.point (.consumer i)).got.length ≤ z.share := by
  by_cases hidle : S.point (.consumer i) = .idle
  · rw [hidle]
    exact h.consumer i
  · obtain ⟨-, c, hcall, -⟩ := h.inCall _ hidle
    have hlt := (turn_lt_of_call_consumer hcall).1
    have hgot := got_length_le (S.point (.consumer i))
    omega

theorem Good.le_linked (h : Good S) (hmain : prelude.length ≤ S.turn .main)
    (hproducers : ∀ i, S.turn (.producer i) = z.itemsPerProducer) :
    3 + z.numProducers * z.itemsPerProducer ≤ S.shared.linked.length := by
  obtain ⟨hcalls, -, hputs, -, -⟩ := h.sane
  have hlinked := (hcalls.reached.linked_interleaves.perm (nodup_threads z) fun t _ => mem_threads t).length_eq
  simp only [List.length_flatMap, threads, List.map_cons, List.map_append, List.map_map, List.sum_cons,
    List.sum_append, Function.comp_def] at hlinked
  have hput (t : Thread z) : (t.values (S.finished t)).length ≤ (S.history.linked t).length := by
    rw [← hputs t, givens, List.length_map, History.linked, List.length_append]
    exact Nat.le_add_right _ _
  have hput_main : 3 ≤ (S.history.linked .main).length := by
    have hle := hput .main
    rwa [show S.finished .main = S.turn .main from rfl, values_main (le_trans (by decide) hmain)] at hle
  have hput_producers : z.numProducers * z.itemsPerProducer ≤
      ((List.finRange z.numProducers).map fun j => (S.history.linked (.producer j)).length).sum := by
    rw [← sum_const]
    refine List.sum_le_sum fun j _ => ?_
    have hle := hput (.producer j)
    have hroom := hcalls.producer j
    rw [hproducers j] at hroom
    have hfinished : S.finished (.producer j) = z.itemsPerProducer := by
      rw [finished, hproducers j]
      omega
    rw [hfinished, values_producer] at hle
    simpa [sent] using hle
  omega

theorem Good.taken_lt (h : Good S) (hmain : prelude.length ≤ S.turn .main) {i : Fin z.numConsumers}
    (hwaits : S.turn (.consumer i) < z.share) (hgot : (S.point (.consumer i)).got = []) :
    S.shared.taken.length < 3 + z.numConsumers * z.share := by
  obtain ⟨hcalls, -, -, htakes, -⟩ := h.sane
  have htaken := (hcalls.reached.taken_interleaves.perm (nodup_threads z) fun t _ => mem_threads t).length_eq
  simp only [List.length_flatMap, threads, List.map_cons, List.map_append, List.map_map, List.sum_cons,
    List.sum_append, Function.comp_def] at htaken
  have htook_main : (S.history.taken .main).length = 3 := by
    have hcall : (Thread.main : Thread z).call (S.turn .main) ≠ some .dequeue := by
      intro heq
      cases (call_main_of_le hmain heq).2
    have hlength := congrArg List.length (h.answers.dequeued_main hmain)
    rw [List.length_map] at hlength
    rw [length_taken, hcalls.got_eq_nil hcall, hlength]
    rfl
  have htook_producers :
      ((List.finRange z.numProducers).map fun j => (S.history.taken (.producer j)).length).sum = 0 := by
    have hnone (j : Fin z.numProducers) : (S.history.taken (.producer j)).length = 0 := by
      have hcall : (Thread.producer j).call (S.turn (.producer j)) ≠ some .dequeue := by
        intro heq
        cases (turn_lt_of_call_producer heq).2
      rw [length_taken, htakes.producer j, hcalls.got_eq_nil hcall]
      rfl
    simp [hnone]
  have htook_consumers :
      ((List.finRange z.numConsumers).map fun j => (S.history.taken (.consumer j)).length).sum <
        z.numConsumers * z.share := by
    rw [← sum_const]
    refine List.sum_lt_sum _ _ (fun j _ => ?_) ⟨i, List.mem_finRange i, ?_⟩
    · rw [length_taken, htakes.consumer j]
      exact hcalls.taken_le j
    · rw [length_taken, htakes.consumer i, hgot]
      exact hwaits
  omega

theorem Good.not_allTaken (h : Good S) (hmain : prelude.length ≤ S.turn .main)
    (hproducers : ∀ i, S.turn (.producer i) = z.itemsPerProducer) {i : Fin z.numConsumers}
    (hwaits : S.turn (.consumer i) < z.share) (hgot : (S.point (.consumer i)).got = []) : ¬S.shared.AllTaken := by
  have hlinked := h.le_linked hmain hproducers
  have htaken := h.taken_lt hmain hwaits hgot
  have hshare : z.numConsumers * z.share ≤ z.itemsPerProducer * z.numProducers := Nat.mul_div_le _ _
  have hcomm := Nat.mul_comm z.itemsPerProducer z.numProducers
  rw [h.sane.calls.reached.inv.allTaken_iff]
  omega

/-! ### What remains to be done -/

def todo (S : Program z) : Thread z → ℕ
  | .main => prelude.length + 1 - S.turn .main
  | .consumer i => 2 * (z.share - S.turn (.consumer i)) + (S.adding (.consumer i)).toNat
  | .producer i => 2 * (z.itemsPerProducer - S.turn (.producer i)) - (S.adding (.producer i)).toNat

def remaining (S : Program z) : ℕ := ((threads z).map S.todo).sum

theorem todo_congr (hturn : S'.turn u = S.turn u) (hadding : S'.adding u = S.adding u) : S'.todo u = S.todo u := by
  cases u <;> simp only [todo, hturn, hadding]

theorem Solo.remaining (h : Solo t S S') : S'.remaining = S.remaining := by
  have htodo (u : Thread z) : S'.todo u = S.todo u := todo_congr (by rw [h.turn]) (by rw [h.adding])
  rw [Program.remaining, List.map_congr_left fun u _ => htodo u, Program.remaining]

theorem Turn.remaining_lt {fails : Bool} (hturn : Turn S t fails S') (h : S'.todo t < S.todo t) :
    S'.remaining < S.remaining := by
  refine List.sum_lt_sum _ _ (fun u _ => ?_) ⟨t, mem_threads t, h⟩
  by_cases hu : u = t
  · subst hu
    exact h.le
  · obtain ⟨-, hturn', hadding⟩ := hturn.of_ne hu
    exact (todo_congr hturn' hadding).le

theorem returns_lt (h : Good S) (hr : S.point t = .returns r) (hsome : r ≠ .dequeue none ∨ t = .main) :
    (step (t, false) S).remaining < S.remaining := by
  refine (step_turn S t false).remaining_lt ?_
  obtain ⟨hadding, c, hcall, hruns⟩ := h.sane.calls.returns hr
  rw [step_returns h hr]
  cases t with
  | main =>
    have hlt : S.turn .main < prelude.length + 1 := (List.getElem?_eq_some_iff.1 hcall).1
    simp only [todo, receive, queue, Function.update_self]
    omega
  | consumer i =>
    obtain ⟨hlt, rfl⟩ := turn_lt_of_call_consumer hcall
    obtain ⟨taken, rfl⟩ := hruns.of_dequeue
    cases taken with
    | none => exact absurd rfl (hsome.resolve_right fun heq => by cases heq)
    | some taken =>
      simp only [todo, receive, queue, Function.update_self, hadding, Bool.toNat_true, Bool.toNat_false]
      omega
  | producer i =>
    obtain ⟨hlt, -⟩ := turn_lt_of_call_producer hcall
    simp only [todo, receive, queue, Function.update_self, hadding, Bool.toNat_true, Bool.toNat_false]
    omega

theorem Solo.progress (hsolo : Solo t S S') (h : Good S) (hr : S'.point t = .returns r)
    (hsome : r ≠ .dequeue none ∨ t = .main) : ∃ S'', Reaches S S'' ∧ S''.remaining < S.remaining := by
  refine ⟨step (t, false) S', hsolo.reaches.trans (Reaches.step S' t), ?_⟩
  rw [← hsolo.remaining]
  exact returns_lt (hsolo.reaches.good h) hr hsome

theorem adds_lt (h : Good S) (hadding : S.adding t = true) : (step (t, false) S).remaining < S.remaining := by
  refine (step_turn S t false).remaining_lt ?_
  have hidle : S.point t = .idle := by
    by_contra hne
    rw [(h.sane.calls.inCall t hne).1] at hadding
    cases hadding
  rw [step_adds h hidle hadding]
  cases t with
  | main =>
    rw [h.sane.calls.main] at hadding
    cases hadding
  | consumer i => simp [todo, add, hadding]
  | producer i =>
    have hroom := h.sane.calls.producer i
    rw [hadding, Bool.toNat_true] at hroom
    simp only [todo, add, Function.update_self, hadding, Bool.toNat_true, Bool.toNat_false]
    omega

/-- A consumer whose call begins when all producers are done gets a value. -/
theorem Good.takes (h : Good S) (hmain : prelude.length ≤ S.turn .main)
    (hproducers : ∀ i, S.turn (.producer i) = z.itemsPerProducer) {i : Fin z.numConsumers}
    (hwaits : S.turn (.consumer i) < z.share) (hadding : S.adding (.consumer i) = false)
    (hidle : S.point (.consumer i) = .idle) :
    ∃ S' taken, Solo (.consumer i) S S' ∧ S'.point (.consumer i) = .returns (.dequeue (some taken)) := by
  have hcall : (Thread.consumer i).call (S.turn (.consumer i)) = some .dequeue := by
    rw [Thread.call, if_pos hwaits]
  obtain ⟨S', r, hsolo, hr⟩ := ready_returns h hadding hcall (decide_eq_true hmain)
  have hgood := hsolo.reaches.good h
  obtain ⟨-, c, hcall', hruns⟩ := hgood.sane.calls.returns hr
  obtain ⟨-, rfl⟩ := turn_lt_of_call_consumer hcall'
  obtain ⟨taken, rfl⟩ := hruns.of_dequeue
  cases taken with
  | none =>
    -- nobody else moved, so the queue would be empty now
    have halone := hsolo.alone (by rw [hidle]; trivial)
    rw [hr] at halone
    have hturn := hsolo.turn
    refine absurd halone (hgood.not_allTaken (by rwa [hturn]) (by rwa [hturn]) (by rwa [hturn]) ?_)
    rw [hr]
    rfl
  | some taken => exact ⟨S', taken, hsolo, hr⟩

theorem Good.consumer_progress (h : Good S) (hmain : prelude.length ≤ S.turn .main)
    (hproducers : ∀ i, S.turn (.producer i) = z.itemsPerProducer) {i : Fin z.numConsumers}
    (hwaits : S.turn (.consumer i) < z.share) (hadding : S.adding (.consumer i) = false) :
    ∃ S', Reaches S S' ∧ S'.remaining < S.remaining := by
  have hcall : (Thread.consumer i).call (S.turn (.consumer i)) = some .dequeue := by
    rw [Thread.call, if_pos hwaits]
  obtain ⟨S₁, r, hsolo, hr⟩ := ready_returns h hadding hcall (decide_eq_true hmain)
  have hgood := hsolo.reaches.good h
  by_cases hnone : r = .dequeue none
  swap
  · exact hsolo.progress h hr (.inl hnone)
  -- the call began too early; the next one does not
  subst hnone
  have hstep : Program.step (.consumer i, false) S₁ = S₁.queue (.advance (.consumer i) false) :=
    step_returns hgood hr
  have hgood₂ := hgood.step (.consumer i) false
  have hreaches := hsolo.reaches.trans (Reaches.step S₁ (.consumer i))
  rw [hstep] at hgood₂ hreaches
  have hidle : (S₁.queue (.advance (.consumer i) false)).point (.consumer i) = .idle :=
    queue_point_returns false hr
  have hturn : (S₁.queue (.advance (.consumer i) false)).turn = S.turn := hsolo.turn
  have hadding' : (S₁.queue (.advance (.consumer i) false)).adding = S.adding := hsolo.adding
  have hremaining : (S₁.queue (.advance (.consumer i) false)).remaining = S.remaining := hsolo.remaining
  obtain ⟨S₃, taken, hsolo₃, hr₃⟩ := hgood₂.takes (by rwa [hturn]) (by rwa [hturn]) (by rwa [hturn])
    (by rwa [hadding']) hidle
  obtain ⟨S₄, hreaches₄, hlt⟩ := hsolo₃.progress hgood₂ hr₃ (.inl fun heq => by cases heq)
  exact ⟨S₄, hreaches.trans hreaches₄, hlt.trans_eq hremaining⟩

theorem Calls.idle_of_call_eq_none (h : Calls S) (hcall : t.call (S.turn t) = none) : S.point t = .idle := by
  by_contra hne
  obtain ⟨-, c, hcall', -⟩ := h.inCall t hne
  rw [hcall] at hcall'
  cases hcall'

theorem Calls.joined_of_turns (h : Calls S) (hadding : ∀ t, S.adding t = false)
    (hproducers : ∀ i, S.turn (.producer i) = z.itemsPerProducer)
    (hconsumers : ∀ i, S.turn (.consumer i) = z.share) : S.joined = true := by
  rw [joined_iff]
  intro t ht
  have hcall : t.call (S.turn t) = none := by
    cases t with
    | main => exact absurd rfl ht
    | consumer i => rw [Thread.call, hconsumers, if_neg (lt_irrefl _)]
    | producer i => rw [Thread.call, hproducers, if_neg (lt_irrefl _)]
  exact ended_iff.2 ⟨h.idle_of_call_eq_none hcall, hadding t, hcall⟩

/-- As long as the main thread is not at its end, some steps bring the program nearer to it. -/
theorem Good.progress (h : Good S) (hend : S.ended .main = false) :
    ∃ S', Reaches S S' ∧ S'.remaining < S.remaining := by
  have hcalls := h.sane.calls
  have hreturn {t : Thread z} {c : Call ℤ} (hadding : S.adding t = false) (hcall : t.call (S.turn t) = some c)
      (hallowed : S.allowed t = true) (hdequeue : c ≠ .dequeue ∨ t = .main) :
      ∃ S', Reaches S S' ∧ S'.remaining < S.remaining := by
    obtain ⟨S', r, hsolo, hr⟩ := ready_returns h hadding hcall hallowed
    have hgood := hsolo.reaches.good h
    refine hsolo.progress h hr (hdequeue.imp ?_ id)
    rintro hne rfl
    obtain ⟨-, c', hcall', hruns⟩ := hgood.sane.calls.returns hr
    rw [hsolo.turn, hcall] at hcall'
    obtain rfl : c = c' := Option.some.inj hcall'
    match c with
    | .dequeue => exact hne rfl
  by_cases hmain : prelude.length ≤ S.turn .main
  swap
  · -- the main thread is in its prelude
    have hlt : S.turn .main < (prelude ++ [Call.empty]).length := by
      rw [List.length_append]
      omega
    exact hreturn hcalls.main (List.getElem?_eq_getElem hlt) (by simp [allowed, Nat.not_le.1 hmain]) (.inr rfl)
  by_cases hadd : ∃ t, S.adding t = true
  · obtain ⟨t, hadding⟩ := hadd
    exact ⟨_, Reaches.step S t, adds_lt h hadding⟩
  have hadding (t : Thread z) : S.adding t = false := by simpa using fun heq => hadd ⟨t, heq⟩
  by_cases hproducer : ∃ i, S.turn (.producer i) < z.itemsPerProducer
  · obtain ⟨i, hlt⟩ := hproducer
    have hcall : (Thread.producer i).call (S.turn (.producer i)) =
        some (.enqueue (i.val * z.itemsPerProducer + S.turn (.producer i) : ℕ)) := by rw [Thread.call, if_pos hlt]
    have hallowed : S.allowed (.producer i) = true := decide_eq_true hmain
    exact hreturn (hadding _) hcall hallowed (.inl fun heq => by cases heq)
  have hproducers (i : Fin z.numProducers) : S.turn (.producer i) = z.itemsPerProducer :=
    le_antisymm (le_trans (Nat.le_add_right _ _) (hcalls.producer i)) (not_lt.1 fun hlt => hproducer ⟨i, hlt⟩)
  by_cases hconsumer : ∃ i, S.turn (.consumer i) < z.share
  · obtain ⟨i, hlt⟩ := hconsumer
    exact h.consumer_progress hmain hproducers hlt (hadding _)
  have hconsumers (i : Fin z.numConsumers) : S.turn (.consumer i) = z.share :=
    le_antisymm (hcalls.consumer i) (not_lt.1 fun hlt => hconsumer ⟨i, hlt⟩)
  have hjoined := hcalls.joined_of_turns hadding hproducers hconsumers
  cases hcall : (Thread.main : Thread z).call (S.turn .main) with
  | none =>
    rw [ended_iff.2 ⟨hcalls.idle_of_call_eq_none hcall, hadding _, hcall⟩] at hend
    cases hend
  | some c => exact hreturn hcalls.main hcall (by simp [allowed, hjoined]) (.inr rfl)

/-- From every state of every run, `test_queue` can come to its end. -/
theorem test_queue_can_end (z : Sizes) (choices : List (Thread z × Bool)) :
    ∃ later, (run z (choices ++ later)).ended .main = true := by
  have hgo (n : ℕ) : ∀ S : Program z, Good S → S.remaining ≤ n → ∃ S', Reaches S S' ∧ S'.ended .main = true := by
    induction n with
    | zero =>
      intro S h hn
      cases hend : S.ended .main with
      | true => exact ⟨S, .refl S, hend⟩
      | false =>
        obtain ⟨S', -, hlt⟩ := h.progress hend
        omega
    | succ n ih =>
      intro S h hn
      cases hend : S.ended .main with
      | true => exact ⟨S, .refl S, hend⟩
      | false =>
        obtain ⟨S', hreaches, hlt⟩ := h.progress hend
        obtain ⟨S'', hreaches', hend'⟩ := ih S' (hreaches.good h) (by omega)
        exact ⟨S'', hreaches.trans hreaches', hend'⟩
  obtain ⟨S', ⟨later, rfl⟩, hend⟩ := hgo _ _ (run_good z choices) (le_refl _)
  refine ⟨later, ?_⟩
  rw [run, sched, List.foldl_append]
  exact hend

end Program

end LockfreeQueue

end LearnSpdk
