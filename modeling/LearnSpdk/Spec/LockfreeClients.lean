import LearnSpdk.Spec.LockfreeQueue
import Mathlib.Data.Int.Notation

/-! The clients of `LockfreeQueue`: what the calls of each thread return, and the client in
the repository, `test_queue` of `atomic/LockfreeQueue.cpp`. Its main thread first uses the
queue alone, then starts the consumers and the producers, joins them and looks whether the
queue is empty. -/

namespace LearnSpdk

namespace LockfreeQueue

variable {ι T : Type}

/-- What a thread at a point gets when it leaves its call. -/
def answered (p : Point T) : Action ι T → Option (Result T)
  | .call _ _ => none
  | .advance _ _ =>
    match p with
    | .returns r => some r
    | _ => none

/-- The queue with what its calls returned, in that order. No step reads the log. -/
structure History (ι T : Type) where
  state : State ι T
  log : List (ι × Result T)

namespace Result

def put : Result T → Option ℕ
  | .enqueue newNode => some newNode
  | _ => none

def got : Result T → Option (ℕ × T)
  | .dequeue taken => taken
  | _ => none

end Result

namespace History

variable [DecidableEq ι]

def step (moved : T → T) (a : Action ι T) (h : History ι T) : History ι T where
  state := LockfreeQueue.step moved a h.state
  log := h.log ++ (answered (h.state.point a.thread) a).toList.map fun r => (a.thread, r)

def results (h : History ι T) (i : ι) : List (Result T) := (h.log.filter fun e => e.1 = i).map Prod.snd

def enqueued (h : History ι T) (i : ι) : List ℕ := (h.results i).filterMap Result.put

/-- What the `dequeue` calls of a thread took, each with its node. -/
def dequeued (h : History ι T) (i : ι) : List (ℕ × T) := (h.results i).filterMap Result.got

end History

def history [DecidableEq ι] [Inhabited T] (moved : T → T) (acts : List (Action ι T)) : History ι T :=
  Lib.sched (History.step moved) ⟨initial ι T, []⟩ acts

/-! ### `test_queue` -/

/-- The constants of `test_queue`: 5, 5 and 200. -/
structure Sizes where
  numProducers : ℕ
  numConsumers : ℕ
  itemsPerProducer : ℕ

/-- How many values a consumer waits for. -/
def Sizes.share (z : Sizes) : ℕ := z.itemsPerProducer * z.numProducers / z.numConsumers

inductive Thread (z : Sizes) where
  | main
  | consumer (i : Fin z.numConsumers)
  | producer (i : Fin z.numProducers)
deriving DecidableEq

/-- The calls of the main thread before it starts the others. -/
def prelude : List (Call ℤ) :=
  [.enqueue 1, .enqueue 2, .enqueue 3, .dequeue, .dequeue, .dequeue, .dequeue, .empty]

/-- The call that a thread makes next after `turn` turns: `j` of a producer, `local_consumed`
of a consumer. -/
def Thread.call {z : Sizes} : Thread z → ℕ → Option (Call ℤ)
  | .main, turn => (prelude ++ [.empty])[turn]?
  | .consumer _, turn => if turn < z.share then some .dequeue else none
  | .producer i, turn =>
    if turn < z.itemsPerProducer then some (.enqueue (i.val * z.itemsPerProducer + turn : ℕ)) else none

/-- `test_queue`. A thread that is `adding` has yet to count its last call; `aborted` is an
assertion that failed. -/
structure Program (z : Sizes) where
  history : History (Thread z) ℤ
  turn : Thread z → ℕ
  adding : Thread z → Bool
  produced : ℕ
  consumed : ℕ
  aborted : Bool

namespace Program

variable {z : Sizes}

def point (s : Program z) (t : Thread z) : Point ℤ := s.history.state.point t

def ended (s : Program z) (t : Thread z) : Bool :=
  match s.point t with
  | .idle => !s.adding t && (t.call (s.turn t)).isNone
  | _ => false

/-- The consumers and the producers can be joined. -/
def joined (s : Program z) : Bool :=
  decide (∀ i, s.ended (.consumer i) = true) && decide (∀ i, s.ended (.producer i) = true)

/-- The main thread waits for the others, which wait to be started. -/
def allowed (s : Program z) : Thread z → Bool
  | .main => decide (s.turn .main < prelude.length) || s.joined
  | _ => decide (prelude.length ≤ s.turn .main)

/-- `fetch_add`; with it a turn of a producer is over. -/
def add (s : Program z) : Thread z → Program z
  | .main => s
  | .consumer i => { s with
      consumed := s.consumed + 1
      adding := Function.update s.adding (.consumer i) false }
  | .producer i => { s with
      produced := s.produced + 1
      turn := Function.update s.turn (.producer i) (s.turn (.producer i) + 1)
      adding := Function.update s.adding (.producer i) false }

/-- What a thread does with a result. The main thread asserts that the queue is empty at the
end of its prelude. -/
def receive (s : Program z) : Thread z → Result ℤ → Program z
  | .main, r => { s with
      turn := Function.update s.turn .main (s.turn .main + 1)
      aborted :=
        match r with
        | .empty answer => decide (s.turn .main + 1 = prelude.length) && !answer
        | _ => false }
  | .consumer i, r =>
    match r with
    | .dequeue (some _) => { s with
        turn := Function.update s.turn (.consumer i) (s.turn (.consumer i) + 1)
        adding := Function.update s.adding (.consumer i) true }
    | _ => s
  | .producer i, _ => { s with adding := Function.update s.adding (.producer i) true }

/-- An action on the queue; a move leaves an `int` as it was. -/
def queue (s : Program z) (a : Action (Thread z) ℤ) : Program z := { s with history := s.history.step id a }

/-- The next step of a thread, in which an exchange may fail without reason. -/
def step (choice : Thread z × Bool) (s : Program z) : Program z :=
  let (t, fails) := choice
  if s.aborted then s
  else
    match s.point t with
    | .idle =>
      if s.adding t then s.add t
      else
        match t.call (s.turn t) with
        | some c => if s.allowed t then s.queue (.call t c) else s
        | none => s
    | .returns r => (s.queue (.advance t fails)).receive t r
    | _ => s.queue (.advance t fails)

def initial (z : Sizes) : Program z where
  history := ⟨LockfreeQueue.initial (Thread z) ℤ, []⟩
  turn := fun _ => 0
  adding := fun _ => false
  produced := 0
  consumed := 0
  aborted := false

def run (z : Sizes) (choices : List (Thread z × Bool)) : Program z := Lib.sched step (initial z) choices

end Program

end LockfreeQueue

end LearnSpdk
