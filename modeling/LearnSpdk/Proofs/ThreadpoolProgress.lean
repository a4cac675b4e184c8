import LearnSpdk.Lib.Tally
import LearnSpdk.Proofs.ThreadpoolWake

/-! Progress of the pool. The steps of the workers are paid for by the tasks that were pushed
and by the times that a worker was woken, so the workers come to rest. When they do, there
is nothing left to do for them: every task that was accepted has been run. -/

namespace LearnSpdk

open Lib

namespace Threadpool

open Pool

variable {n : ℕ} {γ : Type} {p : Pool n γ} {w : Fin n}

/-- The steps that a worker makes from a point until it waits or returns, tasks apart. -/
def WorkerPoint.left : WorkerPoint → ℕ
  | .lock => 1
  | .running _ => 2
  | .waiting => 0
  | .returned => 0

/-- The worker can make a step: it is not blocked, and it has not returned. -/
def WorkerPoint.runs : WorkerPoint → Bool
  | .lock => true
  | .running _ => true
  | _ => false

/-- What is left for the workers: two steps for each task, and their own. -/
def Pool.left (p : Pool n γ) : ℕ := 2 * p.tasks.length + ∑ w, (p.worker w).left

theorem left_setWorker (p : Pool n γ) (w : Fin n) (q : WorkerPoint) :
    (p.setWorker w q).left + (p.worker w).left = p.left + q.left := by
  have hsum : ∑ v, (Function.update p.worker w q v).left + (p.worker w).left =
      ∑ v, (p.worker v).left + q.left := sum_update_add fun _ _ => rfl
  change 2 * p.tasks.length + ∑ v, (Function.update p.worker w q v).left + _ =
    2 * p.tasks.length + ∑ v, (p.worker v).left + _
  omega

theorem left_take (hw : p.worker w = .lock) : (p.take w).left + 1 ≤ p.left := by
  have hlock : (p.worker w).left = 1 := by rw [hw]; rfl
  unfold Pool.take
  split_ifs with hready hexit
  · have := left_setWorker p w .returned
    have hzero : WorkerPoint.returned.left = 0 := rfl
    omega
  · obtain htasks | ⟨task, tasks, htasks⟩ : p.tasks = [] ∨ ∃ task tasks, p.tasks = task :: tasks := by
      cases p.tasks <;> simp
    · exact absurd (not_or.2 ⟨fun hstop => hexit ⟨hstop, htasks⟩, fun hne => hne htasks⟩) (not_not.2 hready)
    · have hset := left_setWorker { p with tasks := tasks, taken := p.taken ++ [task] } w (.running task)
      have htwo : (WorkerPoint.running task).left = 2 := rfl
      have hrest : ({ p with tasks := tasks, taken := p.taken ++ [task] } : Pool n γ).left + 2 = p.left := by
        simp only [Pool.left, htasks, List.length_cons]
        omega
      rw [htasks]
      dsimp only at hset ⊢
      omega
  · have := left_setWorker p w .waiting
    have hzero : WorkerPoint.waiting.left = 0 := rfl
    omega

theorem left_workerStep (p : Pool n γ) (w : Fin n) :
    (p.workerStep w).left + (p.worker w).runs.toNat ≤ p.left := by
  unfold Pool.workerStep
  split
  · next hw =>
    rw [hw]
    exact left_take hw
  · next hw => simp [hw, WorkerPoint.runs]
  · next task hw =>
    have hset := left_setWorker { p with finished := p.finished ++ [task] } w .lock
    dsimp only at hset
    rw [hw] at hset ⊢
    have htwo : (WorkerPoint.running task).left = 2 := rfl
    have hone : WorkerPoint.lock.left = 1 := rfl
    have hruns : (WorkerPoint.running task).runs.toNat = 1 := rfl
    have hrest : ({ p with finished := p.finished ++ [task] } : Pool n γ).left = p.left := rfl
    omega
  · next hw => simp [hw, WorkerPoint.runs]

theorem worker_wake (p : Pool n γ) (w v : Fin n) :
    (p.wake w).worker v = p.worker v ∨ p.worker v = .waiting ∧ (p.wake w).worker v = .lock := by
  unfold Pool.wake
  split_ifs with hw
  · by_cases hv : v = w
    · subst hv
      exact .inr ⟨hw, setWorker_self⟩
    · exact .inl (setWorker_of_ne hv)
  · exact .inl rfl

theorem worker_wakeAll (p : Pool n γ) (v : Fin n) :
    p.wakeAll.worker v = p.worker v ∨ p.worker v = .waiting ∧ p.wakeAll.worker v = .lock := by
  by_cases hv : p.worker v = .waiting
  · exact .inr ⟨hv, if_pos hv⟩
  · exact .inl (if_neg hv)

theorem tasks_wake (p : Pool n γ) (w : Fin n) : (p.wake w).tasks = p.tasks := by
  unfold Pool.wake
  split_ifs <;> rfl

/-- The workers are at rest, and no call of `add_task` is about to
notify: then every task that was pushed has been run. -/
theorem Awake.all_finished (hawake : Awake p) (hinv : Inv p)
    (hclient : ∀ c t, p.client c ≠ .notify t) (hrest : ∀ w, (p.worker w).runs = false) :
    p.tasks = [] ∧ ∀ t ∈ p.pushed, p.finished.count t = 1 := by
  have htasks : p.tasks = [] := by
    by_contra hne
    rcases hawake.watched hne with ⟨w, hw⟩ | ⟨c, t, hc⟩
    · have hrest := hrest w
      cases hpoint : p.worker w with
      | lock => simp [hpoint, WorkerPoint.runs] at hrest
      | running t => simp [hpoint, WorkerPoint.runs] at hrest
      | waiting => exact hw hpoint
      | returned => exact hne (hinv.returned w hpoint).2
    · exact hclient c t hc
  refine ⟨htasks, ?_⟩
  intro t ht
  apply List.count_eq_one_of_mem hinv.once
  rw [hinv.order, htasks, List.append_nil, hinv.ledger] at ht
  rcases ht with ht | ⟨w, hw⟩
  · exact ht
  · have hrest := hrest w
    simp [hw, WorkerPoint.runs] at hrest

/-- The destructor waits only for a worker that can make a step. -/
theorem Awake.destructor_done (hawake : Awake p)
    (hrest : ∀ w, (p.worker w).runs = false) (hstuck : p.destructorStep = p) : p.destructor = .done := by
  have hsame := congrArg Pool.destructor hstuck
  unfold Pool.destructorStep at hsame
  cases hd : p.destructor with
  | idle => simp [hd] at hsame
  | notify => simp [hd] at hsame
  | done => rfl
  | join k =>
    rw [hd] at hsame
    dsimp only at hsame
    split_ifs at hsame with hk hw
    · simp at hsame
    · have hwait := hawake.notified (by simp [hd]) (by simp [hd]) ⟨k, hk⟩
      have hrest := hrest ⟨k, hk⟩
      cases hpoint : p.worker ⟨k, hk⟩ with
      | lock => simp [hpoint, WorkerPoint.runs] at hrest
      | running t => simp [hpoint, WorkerPoint.runs] at hrest
      | waiting => exact absurd hpoint hwait
      | returned => exact absurd hpoint hw

variable [DecidableEq γ]

def works (p : Pool n γ) : Action n γ → ℕ
  | .worker w => (p.worker w).runs.toNat
  | _ => 0

def pushes (p : Pool n γ) : Action n γ → ℕ
  | .client c _ => (decide (p.client c = .idle) && !p.stop).toNat
  | _ => 0

def wakes (p : Pool n γ) (a : Action n γ) : ℕ :=
  ∑ w, (decide (p.worker w = .waiting ∧ (step a p).worker w = .lock)).toNat

theorem worker_notifyOne (p : Pool n γ) (c : γ) (task : ℕ) (choice : Option (Fin n)) (v : Fin n) :
    (p.notifyOne c task choice).worker v = p.worker v ∨
      p.worker v = .waiting ∧ (p.notifyOne c task choice).worker v = .lock := by
  unfold Pool.notifyOne
  cases choice with
  | none =>
    dsimp only
    split_ifs <;> exact .inl rfl
  | some w =>
    dsimp only
    split_ifs
    · exact worker_wake p w v
    · exact .inl rfl

theorem worker_step {a : Action n γ} (ha : ∀ w, a ≠ .worker w) (p : Pool n γ) (v : Fin n) :
    (step a p).worker v = p.worker v ∨ p.worker v = .waiting ∧ (step a p).worker v = .lock := by
  cases a with
  | worker w => exact absurd rfl (ha w)
  | wake w => exact worker_wake p w v
  | client c choice =>
    simp only [step, Pool.clientStep]
    split
    · unfold Pool.push
      split_ifs <;> exact .inl rfl
    · exact worker_notifyOne p c _ choice v
    · exact .inl rfl
    · exact .inl rfl
  | destructor =>
    simp only [step, Pool.destructorStep]
    split
    · exact .inl rfl
    · exact worker_wakeAll p v
    · split_ifs <;> exact .inl rfl
    · exact .inl rfl

theorem tasks_notifyOne (p : Pool n γ) (c : γ) (task : ℕ) (choice : Option (Fin n)) :
    (p.notifyOne c task choice).tasks = p.tasks ∧ (p.notifyOne c task choice).pushed = p.pushed := by
  unfold Pool.notifyOne Pool.wake
  cases choice with
  | none =>
    dsimp only
    split_ifs <;> exact ⟨rfl, rfl⟩
  | some w =>
    dsimp only
    split_ifs <;> exact ⟨rfl, rfl⟩

theorem tasks_push (p : Pool n γ) (c : γ) :
    (p.push c).tasks.length = p.tasks.length + (!p.stop).toNat ∧
      (p.push c).pushed.length = p.pushed.length + (!p.stop).toNat := by
  unfold Pool.push
  cases p.stop with
  | true => exact ⟨rfl, rfl⟩
  | false => simp [Pool.setClient]

theorem length_tasks_step {a : Action n γ} (ha : ∀ w, a ≠ .worker w) (p : Pool n γ) :
    (step a p).tasks.length = p.tasks.length + pushes p a := by
  cases a with
  | worker w => exact absurd rfl (ha w)
  | wake w =>
    simp only [step, tasks_wake, pushes]
    rfl
  | client c choice =>
    simp only [step, Pool.clientStep, pushes]
    split
    · next hc => simp [hc, (tasks_push p c).1]
    · next task hc => simp [hc, (tasks_notifyOne p c task choice).1]
    · next task hc => simp [hc, Pool.setClient]
    · next task hc => simp [hc, Pool.setClient]
  | destructor =>
    simp only [step, Pool.destructorStep, pushes]
    split
    · rfl
    · rfl
    · split_ifs <;> rfl
    · rfl

theorem length_pushed_step (p : Pool n γ) (a : Action n γ) :
    (step a p).pushed.length = p.pushed.length + pushes p a := by
  cases a with
  | worker w =>
    simp only [step, Pool.workerStep, Pool.take, Pool.setWorker, pushes]
    split
    · split_ifs
      · rfl
      · split <;> rfl
      · rfl
    · rfl
    · rfl
    · rfl
  | wake w =>
    simp only [step, Pool.wake, pushes]
    split_ifs <;> rfl
  | client c choice =>
    simp only [step, Pool.clientStep, pushes]
    split
    · next hc => simp [hc, (tasks_push p c).2]
    · next task hc => simp [hc, (tasks_notifyOne p c task choice).2]
    · next task hc => simp [hc, Pool.setClient]
    · next task hc => simp [hc, Pool.setClient]
  | destructor =>
    simp only [step, Pool.destructorStep, pushes]
    split
    · rfl
    · rfl
    · split_ifs <;> rfl
    · rfl

theorem left_step (p : Pool n γ) (a : Action n γ) :
    (step a p).left + works p a ≤ p.left + (2 * pushes p a + wakes p a) := by
  by_cases ha : ∃ w, a = .worker w
  · obtain ⟨w, rfl⟩ := ha
    have := left_workerStep p w
    simp only [step, works]
    omega
  · have ha' : ∀ w, a ≠ .worker w := fun w hw => ha ⟨w, hw⟩
    have hworks : works p a = 0 := by
      cases a with
      | worker w => exact absurd rfl (ha' w)
      | _ => rfl
    have hsum : ∑ v, ((step a p).worker v).left ≤ ∑ v, (p.worker v).left + wakes p a := by
      rw [wakes, ← Finset.sum_add_distrib]
      apply Finset.sum_le_sum
      intro v _
      rcases worker_step ha' p v with hv | ⟨hv, hv'⟩
      · rw [hv]
        omega
      · simp [hv, hv', WorkerPoint.left]
    have htasks := length_tasks_step ha' p
    simp only [Pool.left]
    omega

/-- Under every schedule of a pool with a worker: the steps that the workers make are at most
one for each worker, two for each task pushed and one for each time that a worker is woken;
and when no worker can make a step and no call of `add_task` is about to notify, every task
pushed has been run once, and the destructor is done or can make its next step. -/
theorem run_workers_come_to_rest (hn : 1 ≤ n) (acts : List (Action n γ)) :
    tally step works (initial n γ) acts ≤
        n + 2 * (run n acts).pushed.length + tally step wakes (initial n γ) acts ∧
      ((∀ c t, (run n acts).client c ≠ .notify t) → (∀ w, ((run n acts).worker w).runs = false) →
        (run n acts).tasks = [] ∧ (∀ t ∈ (run n acts).pushed, (run n acts).finished.count t = 1) ∧
        ((run n acts).destructorStep = run n acts → (run n acts).destructor = .done)) := by
  refine ⟨?_, ?_⟩
  · have hle : (run n acts).left + tally step works (initial n γ) acts ≤ (initial n γ).left +
        tally step (fun p a => 2 * pushes p a + wakes p a) (initial n γ) acts :=
      tally_le Pool.left (fun acts a => left_step (sched step (initial n γ) acts) a) acts
    have hpushed : (run n acts).pushed.length = 0 + tally step pushes (initial n γ) acts :=
      tally_eq (fun p : Pool n γ => p.pushed.length) length_pushed_step acts
    have hinit : (initial n γ).left = n := by simp [initial, Pool.left, WorkerPoint.left]
    rw [tally_add, tally_mul, hinit] at hle
    omega
  · intro hclient hrest
    have hawake := awake_run hn acts
    obtain ⟨htasks, hfinished⟩ := hawake.all_finished (inv_run n acts) hclient hrest
    exact ⟨htasks, hfinished, hawake.destructor_done hrest⟩

theorem run_workers_come_to_rest_after_one_task :
    (run 2 oneTask).pushed = [0] ∧ ∀ t ∈ (run 2 oneTask).pushed, (run 2 oneTask).finished.count t = 1 := by
  have hclient : ∀ c t, (run 2 oneTask).client c ≠ .notify t := by
    intro c t
    rw [show (run 2 oneTask).client c = .returns 0 from by decide +revert]
    simp
  exact ⟨by decide, ((run_workers_come_to_rest (by decide) oneTask).2 hclient (by decide)).2.1⟩

end Threadpool

end LearnSpdk
