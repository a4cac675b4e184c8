import LearnSpdk.Lib.Schedule
import Mathlib.Data.List.Basic
import Mathlib.Logic.Function.Basic

/-! `LockfreeQueue` of `atomic/LockfreeQueue.cpp`. Each atomic load and exchange is one step
of the thread that makes it, and so is the move of a payload out of a node. A scheduler
picks the threads in any order and may let any `compare_exchange_weak` fail; local
decisions belong to the step before them. Nodes are numbered as they are made, and a
number is never given twice. -/

namespace LearnSpdk

namespace LockfreeQueue

/-- A node. `given` is the value that `enqueue` was called with, which no step reads. -/
structure Node (T : Type) where
  data : T
  next : Option ℕ
  given : T

/-- What the threads share. `linked` and `taken` record the nodes in the order in which they
were put behind the last node and taken by an exchange of `head`; no step reads them. -/
structure Shared (T : Type) where
  heap : ℕ → Node T
  size : ℕ
  head : ℕ
  tail : ℕ
  linked : List ℕ
  taken : List ℕ

inductive Call (T : Type) where
  | enqueue (value : T)
  | dequeue
  | empty

/-- What a call returns. `enqueue` names the node that it made, and `dequeue` the one that it
took the value from. -/
inductive Result (T : Type) where
  | enqueue (newNode : ℕ)
  | dequeue (taken : Option (ℕ × T))
  | empty (answer : Bool)

/-- The points of the loop of `enqueue`, with `tail_ptr` and `next_ptr`. -/
inductive EnqueuePoint where
  | loadTail
  | loadNext (tailPtr : ℕ)
  | checkTail (tailPtr : ℕ) (nextPtr : Option ℕ)
  | link (tailPtr : ℕ)
  | helpTail (tailPtr nextPtr : ℕ)
  | swingTail (tailPtr : ℕ)

/-- The points of the loop of `dequeue`, with `head_ptr`, `tail_ptr`, `next_ptr` and `value`. -/
inductive DequeuePoint (T : Type) where
  | loadHead
  | loadTail (headPtr : ℕ)
  | loadNext (headPtr tailPtr : ℕ)
  | checkHead (headPtr tailPtr : ℕ) (nextPtr : Option ℕ)
  | helpTail (tailPtr nextPtr : ℕ)
  | moveData (headPtr nextPtr : ℕ)
  | swingHead (headPtr nextPtr : ℕ) (value : T)

/-- The points of `empty`, with `head_ptr`. -/
inductive EmptyPoint where
  | loadHead
  | loadTail (headPtr : ℕ)
  | loadNext (headPtr : ℕ)

inductive Point (T : Type) where
  | idle
  | enqueue (newNode : ℕ) (p : EnqueuePoint)
  | dequeue (p : DequeuePoint T)
  | empty (p : EmptyPoint)
  | returns (r : Result T)

structure State (ι T : Type) where
  shared : Shared T
  point : ι → Point T

variable {ι T : Type}

namespace Shared

def next (s : Shared T) (n : ℕ) : Option ℕ := (s.heap n).next

/-- `tail.compare_exchange_weak`, whose answer is never looked at. -/
def casTail (fails : Bool) (expected desired : ℕ) (s : Shared T) : Shared T :=
  if fails = false ∧ s.tail = expected then { s with tail := desired } else s

/-- The new node of an `enqueue`. -/
def makeNode (value : T) (s : Shared T) : Shared T :=
  { s with heap := Function.update s.heap s.size ⟨value, none, value⟩, size := s.size + 1 }

/-- A successful exchange of the `next` of a node. -/
def setNext (n newNode : ℕ) (s : Shared T) : Shared T :=
  { s with
    heap := Function.update s.heap n { s.heap n with next := some newNode }
    linked := s.linked ++ [newNode] }

/-- A successful exchange of `head`. -/
def setHead (n : ℕ) (s : Shared T) : Shared T := { s with head := n, taken := s.taken ++ [n] }

/-- `std::move(n->data)`: the node is left with what a move leaves behind. -/
def moveOut (moved : T → T) (n : ℕ) (s : Shared T) : Shared T :=
  { s with heap := Function.update s.heap n { s.heap n with data := moved (s.heap n).data } }

end Shared

open Shared

def enqueueStep (fails : Bool) (newNode : ℕ) (s : Shared T) : EnqueuePoint → Shared T × Point T
  | .loadTail => (s, .enqueue newNode (.loadNext s.tail))
  | .loadNext tailPtr => (s, .enqueue newNode (.checkTail tailPtr (s.next tailPtr)))
  | .checkTail tailPtr nextPtr =>
    if tailPtr = s.tail then
      match nextPtr with
      | none => (s, .enqueue newNode (.link tailPtr))
      | some nextPtr => (s, .enqueue newNode (.helpTail tailPtr nextPtr))
    else (s, .enqueue newNode .loadTail)
  | .link tailPtr =>
    if fails = false ∧ s.next tailPtr = none then
      (s.setNext tailPtr newNode, .enqueue newNode (.swingTail tailPtr))
    else (s, .enqueue newNode .loadTail)
  | .helpTail tailPtr nextPtr => (s.casTail fails tailPtr nextPtr, .enqueue newNode .loadTail)
  | .swingTail tailPtr => (s.casTail fails tailPtr newNode, .returns (.enqueue newNode))

def dequeueStep (moved : T → T) (fails : Bool) (s : Shared T) : DequeuePoint T → Shared T × Point T
  | .loadHead => (s, .dequeue (.loadTail s.head))
  | .loadTail headPtr => (s, .dequeue (.loadNext headPtr s.tail))
  | .loadNext headPtr tailPtr => (s, .dequeue (.checkHead headPtr tailPtr (s.next headPtr)))
  | .checkHead headPtr tailPtr nextPtr =>
    if headPtr = s.head then
      if headPtr = tailPtr then
        match nextPtr with
        | none => (s, .returns (.dequeue none))
        | some nextPtr => (s, .dequeue (.helpTail tailPtr nextPtr))
      else
        match nextPtr with
        | none => (s, .dequeue .loadHead)
        | some nextPtr => (s, .dequeue (.moveData headPtr nextPtr))
    else (s, .dequeue .loadHead)
  | .helpTail tailPtr nextPtr => (s.casTail fails tailPtr nextPtr, .dequeue .loadHead)
  | .moveData headPtr nextPtr =>
    (s.moveOut moved nextPtr, .dequeue (.swingHead headPtr nextPtr (s.heap nextPtr).data))
  | .swingHead headPtr nextPtr value =>
    if fails = false ∧ s.head = headPtr then
      (s.setHead nextPtr, .returns (.dequeue (some (nextPtr, value))))
    else (s, .dequeue .loadHead)

def emptyStep (s : Shared T) : EmptyPoint → Shared T × Point T
  | .loadHead => (s, .empty (.loadTail s.head))
  | .loadTail headPtr =>
    if headPtr = s.tail then (s, .empty (.loadNext headPtr)) else (s, .returns (.empty false))
  | .loadNext headPtr => (s, .returns (.empty (s.next headPtr).isNone))

def begin (s : Shared T) : Call T → Shared T × Point T
  | .enqueue value => (s.makeNode value, .enqueue s.size .loadTail)
  | .dequeue => (s, .dequeue .loadHead)
  | .empty => (s, .empty .loadHead)

def advance (moved : T → T) (fails : Bool) (s : Shared T) : Point T → Shared T × Point T
  | .idle => (s, .idle)
  | .enqueue newNode p => enqueueStep fails newNode s p
  | .dequeue p => dequeueStep moved fails s p
  | .empty p => emptyStep s p
  | .returns _ => (s, .idle)

/-- A choice of the scheduler: thread `i` makes a call, if it is in none, or its next step,
in which an exchange may fail without reason. -/
inductive Action (ι T : Type) where
  | call (i : ι) (c : Call T)
  | advance (i : ι) (fails : Bool)

def Action.thread : Action ι T → ι
  | .call i _ => i
  | .advance i _ => i

/-- What an action makes of the shared state and of the point of its thread. -/
def act (moved : T → T) (s : Shared T) (p : Point T) : Action ι T → Shared T × Point T
  | .call _ c =>
    match p with
    | .idle => begin s c
    | p => (s, p)
  | .advance _ fails => advance moved fails s p

variable [DecidableEq ι]

def step (moved : T → T) (a : Action ι T) (s : State ι T) : State ι T :=
  let r := act moved s.shared (s.point a.thread) a
  ⟨r.1, Function.update s.point a.thread r.2⟩

/-- The queue after the constructor: a dummy node, and no thread in a call. -/
def initial (ι T : Type) [Inhabited T] : State ι T where
  shared := ⟨fun _ => ⟨default, none, default⟩, 1, 0, 0, [], []⟩
  point := fun _ => .idle

def run [Inhabited T] (moved : T → T) (acts : List (Action ι T)) : State ι T :=
  Lib.sched (step moved) (initial ι T) acts

/-- Something held while thread `i` was in the call that it is still in. -/
def DuringCall [Inhabited T] (moved : T → T) (acts : List (Action ι T)) (i : ι)
    (P : State ι T → Prop) : Prop :=
  Lib.Lately (step moved) (initial ι T) (fun s => s.point i ≠ .idle) P acts

/-- Thread `i` took the node `n` by a step of the call that it is still in. -/
def TookDuringCall [Inhabited T] (moved : T → T) (acts : List (Action ι T)) (i : ι) (n : ℕ) : Prop :=
  ∃ k, ∃ hk : k < acts.length, acts[k].thread = i ∧
    (run moved (acts.take (k + 1))).shared.taken = (run moved (acts.take k)).shared.taken ++ [n] ∧
    ∀ j, k ≤ j → j ≤ acts.length → (run moved (acts.take j)).point i ≠ .idle

end LockfreeQueue

end LearnSpdk
