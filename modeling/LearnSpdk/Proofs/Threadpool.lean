import LearnSpdk.Spec.Threadpool
import Mathlib.Data.List.Nodup
import Mathlib.Data.List.Count

/-! Every task that `add_task` accepts is run once, in the order of the pushes, and no worker
leaves before all of them are. -/

namespace LearnSpdk

open Lib

namespace Threadpool

variable {n : ℕ} {γ : Type} {p : Pool n γ} {w : Fin n} {q : WorkerPoint} {t : ℕ}

/-- What holds of the pool at all times. The tasks taken are those that were run and those
that some worker is running. -/
structure Inv (p : Pool n γ) : Prop where
  order : p.pushed = p.taken ++ p.tasks
  nodup : p.pushed.Nodup
  lt : ∀ t ∈ p.pushed, t < p.calls
  client : ∀ c t, p.client c = .notify t ∨ p.client c = .returns t → t ∈ p.pushed
  ledger : ∀ t, t ∈ p.taken ↔ t ∈ p.finished ∨ ∃ w, p.worker w = .running t
  once : p.finished.Nodup
  apart : ∀ w t, p.worker w = .running t → t ∉ p.finished
  alone : ∀ v w t, p.worker v = .running t → p.worker w = .running t → v = w
  returned : ∀ w, p.worker w = .returned → p.stop = true ∧ p.tasks = []
  joined : ∀ k, p.destructor = .join k → ∀ w : Fin n, w.val < k → p.worker w = .returned
  done : p.destructor = .done → ∀ w, p.worker w = .returned

theorem Inv.nodup_taken (h : Inv p) : p.taken.Nodup := by
  have hnodup := h.nodup
  rw [h.order] at hnodup
  exact (List.nodup_append.1 hnodup).1

theorem inv_initial : Inv (initial n γ) where
  order := rfl
  nodup := List.nodup_nil
  lt := by simp [initial]
  client := by simp [initial]
  ledger := by simp [initial]
  once := List.nodup_nil
  apart := by simp [initial]
  alone := by simp [initial]
  returned := by simp [initial]
  joined := by simp [initial]
  done := by simp [initial]

/-! ### The workers -/

namespace Pool

@[simp] theorem setWorker_self : (p.setWorker w q).worker w = q := Function.update_self _ _ _

theorem setWorker_of_ne {v : Fin n} (h : v ≠ w) : (p.setWorker w q).worker v = p.worker v :=
  Function.update_of_ne h _ _

theorem setWorker_eq_iff {v : Fin n} {q' : WorkerPoint} :
    (p.setWorker w q).worker v = q' ↔ v = w ∧ q = q' ∨ v ≠ w ∧ p.worker v = q' := by
  by_cases hv : v = w
  · subst hv
    simp
  · simp [setWorker_of_ne hv, hv]

end Pool

open Pool

/-- Workers move between points where they run no task, or return. -/
theorem Inv.moveWorkers (h : Inv p) {worker : Fin n → WorkerPoint}
    (hrun : ∀ v t, worker v = .running t ↔ p.worker v = .running t)
    (hkeep : ∀ v, p.worker v = .returned → worker v = .returned)
    (hret : ∀ v, worker v = .returned → p.stop = true ∧ p.tasks = []) : Inv { p with worker := worker } := by
  refine ⟨h.order, h.nodup, h.lt, h.client, ?_, h.once, ?_, ?_, hret, ?_, ?_⟩
  · intro t
    simp only [hrun]
    exact h.ledger t
  · intro v t hv
    exact h.apart v t ((hrun v t).1 hv)
  · intro u v t hu hv
    exact h.alone u v t ((hrun u t).1 hu) ((hrun v t).1 hv)
  · intro k hk v hv
    exact hkeep v (h.joined k hk v hv)
  · intro hd v
    exact hkeep v (h.done hd v)

/-- A worker that runs no task and has not returned goes to a point where it runs none. -/
theorem Inv.setWorker (h : Inv p) (hrun : ∀ t, p.worker w ≠ .running t) (hret : p.worker w ≠ .returned)
    (hq : ∀ t, q ≠ .running t) (hq' : q = .returned → p.stop = true ∧ p.tasks = []) :
    Inv (p.setWorker w q) := by
  refine h.moveWorkers (fun v t => ?_) (fun v hv => ?_) fun v hv => ?_
  · refine setWorker_eq_iff.trans ⟨?_, fun hv => .inr ⟨?_, hv⟩⟩
    · rintro (⟨-, rfl⟩ | ⟨-, hv⟩)
      · exact absurd rfl (hq t)
      · exact hv
    · rintro rfl
      exact hrun t hv
  · refine setWorker_eq_iff.2 (.inr ⟨?_, hv⟩)
    rintro rfl
    exact hret hv
  · rcases setWorker_eq_iff.1 hv with ⟨-, hv⟩ | ⟨-, hv⟩
    · exact hq' hv
    · exact h.returned v hv

theorem Inv.takeFront {tasks : List ℕ} (h : Inv p) (hw : p.worker w = .lock) (htasks : p.tasks = t :: tasks) :
    Inv ({ p with tasks := tasks, taken := p.taken ++ [t] }.setWorker w (.running t)) := by
  have hnew : t ∉ p.taken := by
    have hnodup := h.nodup
    rw [h.order, htasks] at hnodup
    exact fun hmem => (List.nodup_append.1 hnodup).2.2 t hmem t (List.mem_cons_self) rfl
  have hret (v : Fin n) : p.worker v ≠ .returned := by
    intro hv
    rw [(h.returned v hv).2] at htasks
    cases htasks
  have hcases {v : Fin n} {u : ℕ} (hv : ({ p with tasks := tasks, taken := p.taken ++ [t] }.setWorker w
      (.running t)).worker v = .running u) : v = w ∧ u = t ∨ v ≠ w ∧ p.worker v = .running u := by
    rw [setWorker_eq_iff, WorkerPoint.running.injEq, eq_comm (b := u)] at hv
    exact hv
  have hrunning {v : Fin n} {u : ℕ} (hv : p.worker v = .running u) : v ≠ w ∧ u ≠ t := by
    refine ⟨?_, ?_⟩
    · rintro rfl
      rw [hw] at hv
      cases hv
    · rintro rfl
      exact hnew ((h.ledger u).2 (.inr ⟨v, hv⟩))
  refine ⟨?_, h.nodup, h.lt, h.client, ?_, h.once, ?_, ?_, ?_, ?_, ?_⟩
  · change p.pushed = (p.taken ++ [t]) ++ tasks
    rw [h.order, htasks, List.append_assoc, List.singleton_append]
  · intro u
    change u ∈ p.taken ++ [t] ↔ _
    rw [List.mem_append, List.mem_singleton, h.ledger u]
    refine ⟨?_, ?_⟩
    · rintro ((hu | ⟨v, hv⟩) | rfl)
      · exact .inl hu
      · refine .inr ⟨v, ?_⟩
        rw [setWorker_of_ne (hrunning hv).1]
        exact hv
      · exact .inr ⟨w, setWorker_self⟩
    · rintro (hu | ⟨v, hv⟩)
      · exact .inl (.inl hu)
      · rcases hcases hv with ⟨-, rfl⟩ | ⟨-, hv⟩
        · exact .inr rfl
        · exact .inl (.inr ⟨v, hv⟩)
  · intro v u hv
    rcases hcases hv with ⟨-, rfl⟩ | ⟨-, hv⟩
    · exact fun hmem => hnew ((h.ledger u).2 (.inl hmem))
    · exact h.apart v u hv
  · intro u v k hu hv
    rcases hcases hu with ⟨rfl, rfl⟩ | ⟨-, hu'⟩
    · rcases hcases hv with ⟨rfl, -⟩ | ⟨-, hv'⟩
      · rfl
      · exact absurd rfl (hrunning hv').2
    · rcases hcases hv with ⟨-, rfl⟩ | ⟨-, hv'⟩
      · exact absurd rfl (hrunning hu').2
      · exact h.alone u v k hu' hv'
  · intro v hv
    rcases setWorker_eq_iff.1 hv with ⟨-, hv⟩ | ⟨-, hv⟩
    · cases hv
    · exact absurd hv (hret v)
  · intro k hk v hv
    exact absurd (h.joined k hk v hv) (hret v)
  · intro hd v
    exact absurd (h.done hd v) (hret v)

theorem Inv.finish (h : Inv p) (hw : p.worker w = .running t) :
    Inv ({ p with finished := p.finished ++ [t] }.setWorker w .lock) := by
  have hcases {v : Fin n} {u : ℕ} (hv : ({ p with finished := p.finished ++ [t] }.setWorker w
      .lock).worker v = .running u) : v ≠ w ∧ p.worker v = .running u := by
    rcases setWorker_eq_iff.1 hv with ⟨-, hv⟩ | hv
    · cases hv
    · exact hv
  have hkeep (v : Fin n) (hv : p.worker v = .returned) :
      ({ p with finished := p.finished ++ [t] }.setWorker w .lock).worker v = .returned := by
    refine setWorker_eq_iff.2 (.inr ⟨?_, hv⟩)
    rintro rfl
    cases hw.symm.trans hv
  refine ⟨h.order, h.nodup, h.lt, h.client, ?_, ?_, ?_, ?_, ?_, ?_, ?_⟩
  · intro u
    change u ∈ p.taken ↔ u ∈ p.finished ++ [t] ∨ _
    rw [h.ledger u, List.mem_append, List.mem_singleton]
    refine ⟨?_, ?_⟩
    · rintro (hu | ⟨v, hv⟩)
      · exact .inl (.inl hu)
      · by_cases hvw : v = w
        · subst hvw
          rw [hw, WorkerPoint.running.injEq] at hv
          exact .inl (.inr hv.symm)
        · refine .inr ⟨v, ?_⟩
          rw [setWorker_of_ne hvw]
          exact hv
    · rintro ((hu | rfl) | ⟨v, hv⟩)
      · exact .inl hu
      · exact .inr ⟨w, hw⟩
      · exact .inr ⟨v, (hcases hv).2⟩
  · change (p.finished ++ [t]).Nodup
    rw [List.nodup_append]
    refine ⟨h.once, List.nodup_singleton t, fun u hu u' hu' heq => ?_⟩
    rw [List.mem_singleton.1 hu'] at heq
    exact h.apart w t hw (heq ▸ hu)
  · intro v u hv hmem
    obtain ⟨hvw, hv⟩ := hcases hv
    rcases List.mem_append.1 (show u ∈ p.finished ++ [t] from hmem) with hmem | hmem
    · exact h.apart v u hv hmem
    · rw [List.mem_singleton.1 hmem] at hv
      exact hvw (h.alone v w t hv hw)
  · intro u v k hu hv
    exact h.alone u v k (hcases hu).2 (hcases hv).2
  · intro v hv
    rcases setWorker_eq_iff.1 hv with ⟨-, hv⟩ | ⟨-, hv⟩
    · cases hv
    · exact h.returned v hv
  · intro k hk v hv
    exact hkeep v (h.joined k hk v hv)
  · intro hd v
    exact hkeep v (h.done hd v)

theorem Inv.take (h : Inv p) (hw : p.worker w = .lock) : Inv (p.take w) := by
  have hrun (t : ℕ) : p.worker w ≠ .running t := by rw [hw]; exact WorkerPoint.noConfusion
  have hret : p.worker w ≠ .returned := by rw [hw]; exact WorkerPoint.noConfusion
  unfold Pool.take
  split_ifs with hready hexit
  · exact h.setWorker hrun hret (fun t => WorkerPoint.noConfusion) fun _ => hexit
  · split
    · exact h
    · next task tasks htasks => exact h.takeFront hw htasks
  · exact h.setWorker hrun hret (fun t => WorkerPoint.noConfusion) fun hq => WorkerPoint.noConfusion hq

theorem Inv.workerStep (h : Inv p) (w : Fin n) : Inv (p.workerStep w) := by
  unfold Pool.workerStep
  split
  · next hw => exact h.take hw
  · exact h
  · next task hw => exact h.finish hw
  · exact h

theorem Inv.wake (h : Inv p) (w : Fin n) : Inv (p.wake w) := by
  unfold Pool.wake
  split_ifs with hw
  · refine h.setWorker (fun t => ?_) ?_ (fun t => WorkerPoint.noConfusion) fun hq => WorkerPoint.noConfusion hq
    · rw [hw]
      exact WorkerPoint.noConfusion
    · rw [hw]
      exact WorkerPoint.noConfusion
  · exact h

theorem Inv.wakeAll (h : Inv p) : Inv p.wakeAll := by
  have hiff (v : Fin n) (q : WorkerPoint) (hq : q ≠ .waiting) (hq' : q ≠ .lock) :
      p.wakeAll.worker v = q ↔ p.worker v = q := by
    change (if p.worker v = .waiting then WorkerPoint.lock else p.worker v) = q ↔ _
    split_ifs with hv
    · rw [hv]
      exact iff_of_false hq'.symm hq.symm
    · rfl
  have hrun (v : Fin n) (t : ℕ) : p.wakeAll.worker v = .running t ↔ p.worker v = .running t :=
    hiff v _ WorkerPoint.noConfusion WorkerPoint.noConfusion
  have hret (v : Fin n) : p.wakeAll.worker v = .returned ↔ p.worker v = .returned :=
    hiff v _ WorkerPoint.noConfusion WorkerPoint.noConfusion
  exact h.moveWorkers hrun (fun v => (hret v).2) fun v hv => h.returned v ((hret v).1 hv)

theorem Inv.destructorStep (h : Inv p) : Inv p.destructorStep := by
  unfold Pool.destructorStep
  split
  · refine ⟨h.order, h.nodup, h.lt, h.client, h.ledger, h.once, h.apart, h.alone, ?_, ?_, ?_⟩
    · exact fun v hv => ⟨rfl, (h.returned v hv).2⟩
    · exact fun k hk => DestructorPoint.noConfusion hk
    · exact fun hd => DestructorPoint.noConfusion hd
  · have hall := h.wakeAll
    refine ⟨hall.order, hall.nodup, hall.lt, hall.client, hall.ledger, hall.once, hall.apart, hall.alone,
      hall.returned, ?_, ?_⟩
    · intro k hk v hv
      obtain rfl : 0 = k := DestructorPoint.join.inj hk
      exact absurd hv (Nat.not_lt_zero _)
    · exact fun hd => DestructorPoint.noConfusion hd
  · next k hjoin =>
    split_ifs with hk hw
    · refine ⟨h.order, h.nodup, h.lt, h.client, h.ledger, h.once, h.apart, h.alone, h.returned, ?_, ?_⟩
      · intro k' hk' v hv
        obtain rfl : k + 1 = k' := DestructorPoint.join.inj hk'
        rcases Nat.lt_succ_iff_lt_or_eq.1 hv with hlt | heq
        · exact h.joined k hjoin v hlt
        · obtain rfl : v = ⟨k, hk⟩ := Fin.ext heq
          exact hw
      · exact fun hd => DestructorPoint.noConfusion hd
    · exact h
    · refine ⟨h.order, h.nodup, h.lt, h.client, h.ledger, h.once, h.apart, h.alone, h.returned, ?_, ?_⟩
      · exact fun k' hk' => DestructorPoint.noConfusion hk'
      · exact fun _ v => h.joined k hjoin v (lt_of_lt_of_le v.isLt (not_lt.1 hk))
  · exact h

/-! ### The clients -/

/-- The call number of a refused task is not used again. -/
theorem Inv.refuse (h : Inv p) : Inv { p with calls := p.calls + 1 } :=
  ⟨h.order, h.nodup, fun t ht => Nat.lt_succ_of_lt (h.lt t ht), h.client, h.ledger, h.once, h.apart, h.alone,
    h.returned, h.joined, h.done⟩

theorem Inv.accept (h : Inv p) (hstop : p.stop ≠ true) :
    Inv { p with tasks := p.tasks ++ [p.calls], pushed := p.pushed ++ [p.calls], calls := p.calls + 1 } := by
  have hret (v : Fin n) : p.worker v ≠ .returned := fun hv => hstop (h.returned v hv).1
  refine ⟨?_, ?_, ?_, ?_, h.ledger, h.once, h.apart, h.alone, ?_, h.joined, h.done⟩
  · change p.pushed ++ [p.calls] = p.taken ++ (p.tasks ++ [p.calls])
    rw [h.order, List.append_assoc]
  · change (p.pushed ++ [p.calls]).Nodup
    rw [List.nodup_append]
    refine ⟨h.nodup, List.nodup_singleton _, fun t ht t' ht' heq => ?_⟩
    rw [List.mem_singleton.1 ht'] at heq
    exact absurd (h.lt t ht) (by omega)
  · intro t ht
    rcases List.mem_append.1 (show t ∈ p.pushed ++ [p.calls] from ht) with ht | ht
    · exact Nat.lt_succ_of_lt (h.lt t ht)
    · rw [List.mem_singleton.1 ht]
      exact Nat.lt_succ_self _
  · exact fun d t hd => List.mem_append_left _ (h.client d t hd)
  · exact fun v hv => absurd hv (hret v)

variable [DecidableEq γ] {c : γ}

theorem Inv.setClient {q : ClientPoint} (h : Inv p)
    (hq : ∀ t, q = .notify t ∨ q = .returns t → t ∈ p.pushed) : Inv (p.setClient c q) := by
  refine ⟨h.order, h.nodup, h.lt, ?_, h.ledger, h.once, h.apart, h.alone, h.returned, h.joined, h.done⟩
  intro d t hd
  by_cases hdc : d = c
  · subst hdc
    rw [show (p.setClient d q).client d = q from Function.update_self _ _ _] at hd
    exact hq t hd
  · rw [show (p.setClient c q).client d = p.client d from Function.update_of_ne hdc _ _] at hd
    exact h.client d t hd

theorem Inv.push (h : Inv p) (c : γ) : Inv (p.push c) := by
  unfold Pool.push
  split_ifs with hstop
  · refine h.refuse.setClient fun t ht => ?_
    rcases ht with ht | ht <;> cases ht
  · refine (h.accept hstop).setClient fun t ht => ?_
    rcases ht with ht | ht
    · cases ht
      exact List.mem_append_right _ (List.mem_singleton_self _)
    · cases ht

theorem Inv.clientStep (h : Inv p) (c : γ) (choice : Option (Fin n)) : Inv (p.clientStep c choice) := by
  unfold Pool.clientStep
  split
  · exact h.push c
  · next task hc =>
    have hpushed : ∀ t, ClientPoint.returns task = .notify t ∨ ClientPoint.returns task = .returns t →
        t ∈ p.pushed := by
      rintro t (ht | ht)
      · cases ht
      · cases ht
        exact h.client c _ (.inl hc)
    unfold Pool.notifyOne
    cases choice with
    | none =>
      dsimp only
      split_ifs
      · exact h
      · exact h.setClient hpushed
    | some w =>
      dsimp only
      split_ifs
      · refine (h.wake w).setClient fun t ht => ?_
        have hsame : (p.wake w).pushed = p.pushed := by
          unfold Pool.wake
          split_ifs
          rfl
        rw [hsame]
        exact hpushed t ht
      · exact h
  · refine h.setClient fun t ht => ?_
    rcases ht with ht | ht <;> cases ht
  · refine h.setClient fun t ht => ?_
    rcases ht with ht | ht <;> cases ht

/-! ### Runs -/

theorem inv_step (h : Inv p) (a : Action n γ) : Inv (step a p) := by
  cases a with
  | worker w => exact h.workerStep w
  | wake w => exact h.wake w
  | client c choice => exact h.clientStep c choice
  | destructor => exact h.destructorStep

theorem inv_run (n : ℕ) (acts : List (Action n γ)) : Inv (run n acts) :=
  sched_induct inv_initial (fun _ a h => inv_step h a) acts

theorem pushed_step (hstop : p.stop = true) (a : Action n γ) : (step a p).pushed = p.pushed := by
  cases a with
  | worker w =>
    simp only [step, Pool.workerStep, Pool.take, Pool.setWorker]
    split
    · split_ifs
      · rfl
      · split <;> rfl
      · rfl
    · rfl
    · rfl
    · rfl
  | wake w =>
    simp only [step, Pool.wake, Pool.setWorker]
    split_ifs <;> rfl
  | client c choice =>
    simp only [step, Pool.clientStep, Pool.push, if_pos hstop]
    split
    · rfl
    · unfold Pool.notifyOne
      cases choice with
      | none =>
        dsimp only
        split_ifs <;> rfl
      | some w =>
        simp only [Pool.wake]
        split_ifs <;> rfl
    · rfl
    · rfl
  | destructor =>
    simp only [step, Pool.destructorStep]
    split
    · rfl
    · rfl
    · split_ifs <;> rfl
    · rfl

/-- Under every schedule of a pool with a worker: tasks are taken in the order of the pushes,
each once at most; a task that `add_task` returned with was pushed once, and none is
pushed after `stop`; and when all workers have returned, as they have when the destructor
is done, the queue is empty and every task pushed was run, once. -/
theorem run_exactly_once (hn : 1 ≤ n) (acts : List (Action n γ)) :
    (run n acts).taken <+: (run n acts).pushed ∧ (run n acts).taken.Nodup ∧
    (∀ c t, (run n acts).client c = .returns t → (run n acts).pushed.count t = 1) ∧
    (∀ a, (run n acts).stop = true → (run n (acts ++ [a])).pushed = (run n acts).pushed) ∧
    (run n acts).finished.Nodup ∧
    ((∀ w, (run n acts).worker w = .returned) →
      (run n acts).tasks = [] ∧ ∀ t ∈ (run n acts).pushed, (run n acts).finished.count t = 1) ∧
    ((run n acts).destructor = .done → ∀ w, (run n acts).worker w = .returned) := by
  have h := inv_run n acts
  refine ⟨⟨_, h.order.symm⟩, h.nodup_taken, ?_, ?_, h.once, ?_, h.done⟩
  · intro c t hc
    exact List.count_eq_one_of_mem h.nodup (h.client c t (.inr hc))
  · intro a hstop
    rw [run, sched_snoc]
    exact pushed_step hstop a
  · intro hall
    have htasks := (h.returned ⟨0, hn⟩ (hall _)).2
    refine ⟨htasks, fun t ht => List.count_eq_one_of_mem h.once ?_⟩
    rw [h.order, htasks, List.append_nil, h.ledger] at ht
    rcases ht with ht | ⟨w, hw⟩
    · exact ht
    · rw [hall w] at hw
      cases hw

/-- A task is pushed and run, the pool is destroyed, and both workers leave. -/
def oneTask : List (Action 2 Unit) :=
  [.client () none, .client () none, .worker 0, .worker 0, .destructor, .destructor, .worker 0, .worker 1,
    .destructor, .destructor, .destructor]

theorem run_exactly_once_of_one_task :
    (run 2 oneTask).destructor = .done ∧ (run 2 oneTask).pushed = [0] ∧
      ∀ t ∈ (run 2 oneTask).pushed, (run 2 oneTask).finished.count t = 1 :=
  ⟨by decide, by decide,
    ((run_exactly_once (by decide) oneTask).2.2.2.2.2.1
      ((run_exactly_once (by decide) oneTask).2.2.2.2.2.2 (by decide))).2⟩

end Threadpool

end LearnSpdk
