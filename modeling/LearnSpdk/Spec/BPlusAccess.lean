import LearnSpdk.Spec.BPlusTree

/-! The positions at which `insert`, `insert_nonfull`, `remove_recursive` and the two
`split` functions of `KV_Store/BplusTree.cpp` use a vector, in the order of the code. An
expression that stands several times with nothing between that changes the vector is
listed once. The loop of `find_child_index` tests its index before each use. -/

namespace LearnSpdk

/-- A subscript or an erasure: the position, and the size of the vector at that moment. -/
structure Access where
  pos : ℕ
  size : ℕ

namespace BPlus

variable {K V : Type}

/-- `InternalNode::split`: `keys[mid]`, and the child before `children.begin() + mid + 1`. -/
def splitAccesses (keys : List K) (children : List (Node K)) : List Access :=
  [⟨keys.length / 2, keys.length⟩, ⟨keys.length / 2, children.length⟩]

/-- `new_leaf->keys[0]` after `LeafNode::split`. -/
def splitLeafAccesses (p : ℕ) (H : Leaves K V) : List Access :=
  [⟨0, (leafAt (splitLeaf p H) H.length).keys.length⟩]

/-- The split of a full child. The key to promote is read at `keys.size()`. -/
def splitChildAccesses (child : Node K) (H : Leaves K V) : List Access :=
  match child with
  | .leaf p => splitLeafAccesses p H
  | .internal keys children =>
    let left := keys.take (keys.length / 2)
    splitAccesses keys children ++ [⟨left.length, left.length⟩]

/-- The split of a full root. The key to promote is read and then erased. -/
def splitRootAccesses (root : Node K) (H : Leaves K V) : List Access :=
  match root with
  | .leaf p => splitLeafAccesses p H
  | .internal keys children =>
    let left := keys.take (keys.length / 2)
    splitAccesses keys children ++ [⟨left.length / 2, left.length⟩, ⟨left.length / 2, left.length⟩]

/-- The erasures of `remove_recursive` after `children[idx]` was found to be an empty leaf. -/
def eraseAccesses (idx : ℕ) (keys : List K) (children : List (Node K)) : List Access :=
  ⟨idx, children.length⟩ ::
    if 0 < idx then [⟨idx - 1, keys.length⟩]
    else if keys.isEmpty then []
    else [⟨0, keys.length⟩]

/-- What `remove_recursive` uses in an internal node after the call for the child at `idx`
returned. -/
def afterRemoveAccesses (idx : ℕ) (keys : List K) (children : List (Node K)) :
    Option (Node K × Leaves K V × Bool) → List Access
  | some (child, H, true) => ⟨idx, children.length⟩ ::
      if emptyLeaf H child then eraseAccesses idx keys (children.set idx child) else []
  | _ => []

variable [LinearOrder K] (degree : ℕ)

/-- What `insert_nonfull` uses in an internal node before it goes on. -/
def makeRoomAccesses (key : K) (keys : List K) (children : List (Node K)) (H : Leaves K V) :
    List Access :=
  let idx := lowerBound key keys
  ⟨idx, children.length⟩ ::
    match children[idx]? with
    | none => []
    | some child =>
      if nodeFull degree H child then splitChildAccesses child H ++ [⟨idx, keys.length + 1⟩] else []

def insertNonfullAccesses (promoted : ℕ → K) (key : K) (node : Node K) (H : Leaves K V) :
    List Access :=
  match node with
  | .leaf _ => []
  | .internal keys children =>
    makeRoomAccesses degree key keys children H ++
      match _h : makeRoom degree (promoted (Node.depth.depths children)) key keys children H with
      | none => []
      | some (idx, _, children, H) => ⟨idx, children.length⟩ ::
        match _hc : children[idx]? with
        | none => []
        | some child => insertNonfullAccesses promoted key child H
termination_by node.depth
decreasing_by
  simp only [Node.depth]
  exact Nat.lt_succ_of_le (makeRoom_depth _h (List.mem_of_getElem? _hc))

def removeRecursiveAccesses (key : K) (node : Node K) (H : Leaves K V) : List Access :=
  match node with
  | .leaf _ => []
  | .internal keys children =>
    let idx := lowerBound key keys
    ⟨idx, children.length⟩ ::
      match _h : children[idx]? with
      | none => []
      | some child => removeRecursiveAccesses key child H ++
          afterRemoveAccesses idx keys children (removeRecursive degree key child H)
termination_by node.depth
decreasing_by
  simp only [Node.depth]
  exact Nat.lt_succ_of_le (Node.depth_le_depths (List.mem_of_getElem? _h))

end BPlus

open BPlus

/-- The accesses of a call, up to the fault if there is one. -/
def BPlusTree.accesses {K V : Type} [LinearOrder K] (t : BPlusTree K V) (op : Op K V) : List Access :=
  match t.root, op with
  | none, _ => []
  | some root, .insert i =>
    (if nodeFull t.degree t.leaves root then splitRootAccesses root t.leaves else []) ++
      match t.growRoot root with
      | none => []
      | some (root, H) => insertNonfullAccesses t.degree i.promoted i.key root H
  | some root, .remove key => removeRecursiveAccesses t.degree key root t.leaves

end LearnSpdk
