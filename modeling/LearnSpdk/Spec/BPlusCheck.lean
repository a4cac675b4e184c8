import LearnSpdk.Spec.BPlusTree

/-! `BPlusTree::validate` of `KV_Store/BplusTree.cpp`. The messages and the `level`
that only they use are left out. -/

namespace LearnSpdk

namespace BPlus

variable {K V : Type}

/-- The reference parameters `min_key`, `max_key` and `first` of `validate_node`. The
two keys are declared without a value; to read one before it is written is a fault. -/
structure Bounds (K : Type) where
  minKey : Option K
  maxKey : Option K
  first : Bool

/-- The variables as `validate` and `validate_node` declare them. -/
def Bounds.declared : Bounds K := ⟨none, none, true⟩

variable [LinearOrder K]

def keysSorted : List K → Bool
  | k :: k' :: keys => if k' ≤ k then false else keysSorted (k' :: keys)
  | _ => true

/-- `validate_node` on a leaf, after the check of its size. -/
def validateLeaf (keys : List K) (b : Bounds K) : Option (Bool × Bounds K) :=
  match keys.head?, keys.getLast? with
  | some front, some back =>
    if keysSorted keys then
      if b.first then some (true, ⟨some front, some back, false⟩)
      else do
        if front ≤ (← b.maxKey) then return (false, b)
        else return (true, { b with maxKey := some back })
    else some (false, b)
  | _, _ => some (false, b)

/-- The test `child_max > keys[i]`, made where there is such a key. -/
def maxExceeds (keys : List K) (i : ℕ) (b : Bounds K) : Option Bool :=
  match keys[i]? with
  | none => some false
  | some key => do return decide (key < (← b.maxKey))

/-- The test `child_min <= keys[i - 1]`, made after the first child. -/
def minReaches (keys : List K) (i : ℕ) (b : Bounds K) : Option Bool :=
  if 0 < i then do return decide ((← b.minKey) ≤ (← keys[i - 1]?)) else some false

variable (degree : ℕ)

/-- `validate_node`; `isRoot` is the test `node == root`. -/
def validateNode (H : Leaves K V) (isRoot : Bool) (node : Node K) (b : Bounds K) :
    Option (Bool × Bounds K) :=
  match node with
  | .leaf p =>
    if !isRoot && isUnderflow degree (leafAt H p).keys then some (false, b)
    else validateLeaf (leafAt H p).keys b
  | .internal keys children =>
    if !isRoot && isUnderflow degree keys then some (false, b)
    else if children.isEmpty then some (false, b)
    else if keys.length ≠ children.length - 1 then some (false, b)
    else do return (← validateChildren keys children 0 .declared, b)
where
  /-- The loop over the children from index `i` on. -/
  validateChildren (keys : List K) : List (Node K) → ℕ → Bounds K → Option Bool
    | [], _, _ => some true
    | child :: children, i, b => do
      let (valid, b) ← validateNode H false child b
      if !valid then return false
      else if ← maxExceeds keys i b then return false
      else if ← minReaches keys i b then return false
      else validateChildren keys children (i + 1) b

end BPlus

open BPlus

def BPlusTree.validate {K V : Type} [LinearOrder K] (t : BPlusTree K V) : Option Bool :=
  match t.root with
  | none => some true
  | some root => do return (← validateNode t.degree t.leaves true root .declared).1

end LearnSpdk
