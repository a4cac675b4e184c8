import LearnSpdk.Lib.Schedule
import Mathlib.Data.Fintype.Basic
import Mathlib.Logic.Function.Basic

/-! `Threadpool` of `ThreadPool/Threadpool.cpp`. A section under `queue_mutex` is one step of
the thread that runs it, and so are the two notifications and the run of a task.
`condition.wait` lets go of the mutex and joins the waiters in one step; a waiter that is
woken, by a notification or without one, locks the mutex and tests its condition again.
The calls of `add_task` number their tasks. -/

namespace LearnSpdk

namespace Threadpool

/-- The points of the loop of a worker. -/
inductive WorkerPoint where
  | lock
  | waiting
  | running (task : ℕ)
  | returned
deriving DecidableEq

/-- The points of `add_task`, which `throws` if it finds `stop` set. -/
inductive ClientPoint where
  | idle
  | notify (task : ℕ)
  | returns (task : ℕ)
  | throws (task : ℕ)
deriving DecidableEq

/-- The points of the destructor, which joins the workers one by one. -/
inductive DestructorPoint where
  | idle
  | notify
  | join (k : ℕ)
  | done
deriving DecidableEq

/-- A pool with `n` workers and its clients. `pushed`, `taken` and `finished` record the tasks
in the order in which they were pushed, taken by workers and done; no step reads them. -/
structure Pool (n : ℕ) (γ : Type) where
  tasks : List ℕ
  stop : Bool
  worker : Fin n → WorkerPoint
  client : γ → ClientPoint
  destructor : DestructorPoint
  calls : ℕ
  pushed : List ℕ
  taken : List ℕ
  finished : List ℕ

variable {n : ℕ} {γ : Type}

namespace Pool

def setWorker (w : Fin n) (q : WorkerPoint) (p : Pool n γ) : Pool n γ :=
  { p with worker := Function.update p.worker w q }

/-- The section of the worker loop under the mutex. -/
def take (w : Fin n) (p : Pool n γ) : Pool n γ :=
  if ¬(p.stop = true ∨ p.tasks ≠ []) then p.setWorker w .waiting
  else if p.stop = true ∧ p.tasks = [] then p.setWorker w .returned
  else
    match p.tasks with
    | [] => p
    | task :: tasks => { p with tasks := tasks, taken := p.taken ++ [task] }.setWorker w (.running task)

def workerStep (w : Fin n) (p : Pool n γ) : Pool n γ :=
  match p.worker w with
  | .lock => p.take w
  | .waiting => p
  | .running task => { p with finished := p.finished ++ [task] }.setWorker w .lock
  | .returned => p

def wake (w : Fin n) (p : Pool n γ) : Pool n γ :=
  if p.worker w = .waiting then p.setWorker w .lock else p

variable [DecidableEq γ]

def setClient (c : γ) (q : ClientPoint) (p : Pool n γ) : Pool n γ :=
  { p with client := Function.update p.client c q }

/-- The section of `add_task` under the mutex. -/
def push (c : γ) (p : Pool n γ) : Pool n γ :=
  if p.stop = true then { p with calls := p.calls + 1 }.setClient c (.throws p.calls)
  else
    { p with
      tasks := p.tasks ++ [p.calls]
      pushed := p.pushed ++ [p.calls]
      calls := p.calls + 1 }.setClient c (.notify p.calls)

/-- `notify_one` wakes a waiter of the scheduler's choice, and none only if there is none. -/
def notifyOne (c : γ) (task : ℕ) (choice : Option (Fin n)) (p : Pool n γ) : Pool n γ :=
  match choice with
  | some w => if p.worker w = .waiting then (p.wake w).setClient c (.returns task) else p
  | none => if ∃ w, p.worker w = .waiting then p else p.setClient c (.returns task)

/-- The next step of a client: a call of `add_task`, or a step of it. -/
def clientStep (c : γ) (choice : Option (Fin n)) (p : Pool n γ) : Pool n γ :=
  match p.client c with
  | .idle => p.push c
  | .notify task => p.notifyOne c task choice
  | .returns _ => p.setClient c .idle
  | .throws _ => p.setClient c .idle

/-- `notify_all`. -/
def wakeAll (p : Pool n γ) : Pool n γ :=
  { p with worker := fun w => if p.worker w = .waiting then .lock else p.worker w }

/-- The next step of the destructor; a `join` waits until the worker has returned. -/
def destructorStep (p : Pool n γ) : Pool n γ :=
  match p.destructor with
  | .idle => { p with stop := true, destructor := .notify }
  | .notify => { p.wakeAll with destructor := .join 0 }
  | .join k =>
    if h : k < n then
      if p.worker ⟨k, h⟩ = .returned then { p with destructor := .join (k + 1) } else p
    else { p with destructor := .done }
  | .done => p

end Pool

inductive Action (n : ℕ) (γ : Type) where
  | worker (w : Fin n)
  | wake (w : Fin n)
  | client (c : γ) (choice : Option (Fin n))
  | destructor

variable [DecidableEq γ]

def step : Action n γ → Pool n γ → Pool n γ
  | .worker w => Pool.workerStep w
  | .wake w => Pool.wake w
  | .client c choice => Pool.clientStep c choice
  | .destructor => Pool.destructorStep

/-- The pool after the constructor: every worker is about to lock the mutex. -/
def initial (n : ℕ) (γ : Type) : Pool n γ where
  tasks := []
  stop := false
  worker := fun _ => .lock
  client := fun _ => .idle
  destructor := .idle
  calls := 0
  pushed := []
  taken := []
  finished := []

def run (n : ℕ) (acts : List (Action n γ)) : Pool n γ := Lib.sched step (initial n γ) acts

end Threadpool

end LearnSpdk
