import LearnSpdk.Proofs.Threadpool

/-! No wake-up is lost: the pool does not sleep on a task, and nobody sleeps once the destructor
has notified. -/

namespace LearnSpdk

open Lib

namespace Threadpool

open Pool

variable {n : ℕ} {γ : Type} {p : Pool n γ} {w : Fin n}

/-- The queue is watched: by a worker that is not blocked, or by a call of `add_task` that is
still to notify. After `notify_all` no worker is blocked, and none will be, since `stop` is
set. -/
structure Awake (p : Pool n γ) : Prop where
  watched : p.tasks ≠ [] → (∃ w, p.worker w ≠ .waiting) ∨ ∃ c t, p.client c = .notify t
  stopped : p.destructor ≠ .idle → p.stop = true
  notified : p.destructor ≠ .idle → p.destructor ≠ .notify → ∀ w, p.worker w ≠ .waiting

theorem awake_initial : Awake (initial n γ) := by
  refine ⟨?_, ?_, ?_⟩ <;> simp [initial]

theorem Awake.unblock (h : Awake p) {q : WorkerPoint} (hq : q ≠ .waiting) : Awake (p.setWorker w q) := by
  refine ⟨?_, h.stopped, ?_⟩
  · intro _
    exact .inl ⟨w, by rwa [setWorker_self]⟩
  · intro hidle hnotify v hv
    rcases setWorker_eq_iff.1 hv with ⟨-, hv⟩ | ⟨-, hv⟩
    · exact hq hv
    · exact h.notified hidle hnotify v hv

/-- A worker waits only for an empty queue, and before `stop`. -/
theorem Awake.block (h : Awake p) (htasks : p.tasks = []) (hstop : p.stop ≠ true) :
    Awake (p.setWorker w .waiting) := by
  refine ⟨fun hne => absurd htasks hne, h.stopped, ?_⟩
  intro hidle
  exact absurd (h.stopped hidle) hstop

theorem Awake.take (h : Awake p) (w : Fin n) : Awake (p.take w) := by
  unfold Pool.take
  split_ifs with hready hexit
  · exact h.unblock (by simp)
  · split
    · exact h
    · next task tasks htasks =>
      have hrest : Awake { p with tasks := tasks, taken := p.taken ++ [task] } := by
        refine ⟨fun _ => h.watched ?_, h.stopped, h.notified⟩
        rw [htasks]
        exact List.cons_ne_nil _ _
      exact hrest.unblock (by simp)
  · obtain ⟨hstop, htasks⟩ := not_or.1 hready
    exact h.block (not_not.1 htasks) hstop

theorem Awake.workerStep (h : Awake p) (w : Fin n) : Awake (p.workerStep w) := by
  unfold Pool.workerStep
  split
  · exact h.take w
  · exact h
  · next task hw =>
    have hdone : Awake { p with finished := p.finished ++ [task] } := ⟨h.watched, h.stopped, h.notified⟩
    exact hdone.unblock (by simp)
  · exact h

theorem Awake.wake (h : Awake p) (w : Fin n) : Awake (p.wake w) := by
  unfold Pool.wake
  split_ifs
  · exact h.unblock (by simp)
  · exact h

theorem wakeAll_ne_waiting (p : Pool n γ) (w : Fin n) : p.wakeAll.worker w ≠ .waiting := by
  change (if p.worker w = .waiting then WorkerPoint.lock else p.worker w) ≠ .waiting
  split_ifs with hw
  · simp
  · exact hw

theorem Awake.destructorStep (h : Awake p) : Awake p.destructorStep := by
  unfold Pool.destructorStep
  split
  · exact ⟨h.watched, fun _ => rfl, fun _ hnotify => absurd rfl hnotify⟩
  · next hd =>
    refine ⟨fun htasks => ?_, fun _ => h.stopped (by simp [hd]), fun _ _ w => wakeAll_ne_waiting p w⟩
    rcases h.watched htasks with ⟨w, -⟩ | hclient
    · exact .inl ⟨w, wakeAll_ne_waiting p w⟩
    · exact .inr hclient
  · next k hd =>
    have hnotified := h.notified (by simp [hd]) (by simp [hd])
    have hstop := h.stopped (by simp [hd])
    split_ifs
    · exact ⟨h.watched, fun _ => hstop, fun _ _ => hnotified⟩
    · exact h
    · exact ⟨h.watched, fun _ => hstop, fun _ _ => hnotified⟩
  · exact h

variable [DecidableEq γ] {c : γ}

theorem Awake.setClient (h : Awake p) (q : ClientPoint) (hw : ∃ w, p.worker w ≠ .waiting) :
    Awake (p.setClient c q) :=
  ⟨fun _ => .inl hw, h.stopped, h.notified⟩

theorem Awake.moveClient (h : Awake p) (q : ClientPoint) (hc : ∀ t, p.client c ≠ .notify t) :
    Awake (p.setClient c q) := by
  refine ⟨fun htasks => ?_, h.stopped, h.notified⟩
  rcases h.watched htasks with hw | ⟨d, t, hd⟩
  · exact .inl hw
  · have hdc : d ≠ c := by
      rintro rfl
      exact hc t hd
    exact .inr ⟨d, t, (Function.update_of_ne hdc _ _).trans hd⟩

/-- The call that has pushed a task watches the queue until it has notified. -/
theorem Awake.push (h : Awake p) (hc : p.client c = .idle) : Awake (p.push c) := by
  unfold Pool.push
  split_ifs
  · have hrefused : Awake { p with calls := p.calls + 1 } := ⟨h.watched, h.stopped, h.notified⟩
    exact hrefused.moveClient _ (by simp [hc])
  · exact ⟨fun _ => .inr ⟨c, p.calls, Function.update_self _ _ _⟩, h.stopped, h.notified⟩

/-- After `notify_one` a worker is not blocked: the one it woke, or, if there was nobody to
wake, any. -/
theorem Awake.notifyOne (h : Awake p) (hn : 1 ≤ n) (c : γ) (task : ℕ) (choice : Option (Fin n)) :
    Awake (p.notifyOne c task choice) := by
  unfold Pool.notifyOne
  cases choice with
  | none =>
    dsimp only
    split_ifs with hwaiting
    · exact h
    · refine h.setClient _ ⟨⟨0, hn⟩, ?_⟩
      intro hw
      exact hwaiting ⟨_, hw⟩
  | some w =>
    dsimp only
    split_ifs with hw
    · refine (h.wake w).setClient _ ⟨w, ?_⟩
      rw [Pool.wake, if_pos hw, setWorker_self]
      simp
    · exact h

theorem Awake.clientStep (h : Awake p) (hn : 1 ≤ n) (c : γ) (choice : Option (Fin n)) :
    Awake (p.clientStep c choice) := by
  unfold Pool.clientStep
  split
  · next hc => exact h.push hc
  · next task hc => exact h.notifyOne hn c task choice
  · next task hc => exact h.moveClient _ (by simp [hc])
  · next task hc => exact h.moveClient _ (by simp [hc])

theorem awake_step (hn : 1 ≤ n) (h : Awake p) (a : Action n γ) : Awake (step a p) := by
  cases a with
  | worker w => exact h.workerStep w
  | wake w => exact h.wake w
  | client c choice => exact h.clientStep hn c choice
  | destructor => exact h.destructorStep

theorem awake_run (hn : 1 ≤ n) (acts : List (Action n γ)) : Awake (run n acts) :=
  sched_induct awake_initial (fun _ a h => awake_step hn h a) acts

/-- Under every schedule of a pool with a worker: if there is a task and no call of `add_task` is
about to notify, then some worker is not blocked; and once `stop` is set and the destructor has
notified, no worker is. -/
theorem run_no_lost_wakeup (hn : 1 ≤ n) (acts : List (Action n γ)) :
    ((run n acts).tasks ≠ [] → (∀ c t, (run n acts).client c ≠ .notify t) →
      ∃ w, (run n acts).worker w ≠ .waiting) ∧
    ((run n acts).stop = true → (∃ k, (run n acts).destructor = .join k) ∨ (run n acts).destructor = .done →
      ∀ w, (run n acts).worker w ≠ .waiting) := by
  have h := awake_run hn acts
  refine ⟨?_, ?_⟩
  · intro htasks hclient
    rcases h.watched htasks with hw | ⟨c, t, hc⟩
    · exact hw
    · exact absurd hc (hclient c t)
  · rintro - (⟨k, hd⟩ | hd)
    · exact h.notified (by simp [hd]) (by simp [hd])
    · exact h.notified (by simp [hd]) (by simp [hd])

/-- Both workers wait, a task is pushed and its notification finds one of them; then the destructor
sets `stop`, and its notification finds the other. -/
def lateTask : List (Action 2 Unit) :=
  [.worker ⟨0, Nat.two_pos⟩, .worker ⟨1, Nat.one_lt_two⟩, .client () none, .client () (some ⟨0, Nat.two_pos⟩),
    .destructor, .destructor]

theorem run_no_lost_wakeup_of_late_task :
    (run 2 (lateTask.take 5)).worker 1 = .waiting ∧ (run 2 lateTask).tasks = [0] ∧
      (run 2 lateTask).stop = true ∧ (run 2 lateTask).destructor = .join 0 ∧
      (∃ w, (run 2 lateTask).worker w ≠ .waiting) ∧ ∀ w, (run 2 lateTask).worker w ≠ .waiting := by
  have hclient : ∀ c t, (run 2 lateTask).client c ≠ .notify t := by
    intro c t
    rw [show (run 2 lateTask).client c = .returns 0 from by decide +revert]
    simp
  obtain ⟨htask, hstop⟩ := run_no_lost_wakeup (by decide) lateTask
  exact ⟨by decide, by decide, by decide, by decide, htask (by decide) hclient,
    hstop (by decide) (.inl ⟨0, by decide⟩)⟩

end Threadpool

end LearnSpdk
