import Mathlib.Data.Int.Notation
import Mathlib.Data.List.InsertIdx
import Mathlib.Order.Lattice
import Mathlib.Order.Nat

/-! `BPlusTree<K, V>` of `KV_Store/BplusTree.cpp`. The leaves are shared between the
tree and the chain of `next` pointers, so they are cells of a store and a leaf is
named by its address; an internal node has one owner and is a value. The result
`none` of a function that changes the tree is an access past the end of a vector,
with one exception: `insert_nonfull` reads the key to promote out of an internal
child past the end of its keys, and what it gets is an argument of the call. -/

namespace LearnSpdk

structure LeafNode (K V : Type) where
  keys : List K
  values : List V
  next : Option ℕ
  deriving DecidableEq, Inhabited

/-- The leaves made so far, by address. -/
abbrev Leaves (K V : Type) := List (LeafNode K V)

/-- `Node`: a pointer to a leaf, or an `InternalNode`. -/
inductive Node (K : Type) where
  | leaf (p : ℕ)
  | internal (keys : List K) (children : List (Node K))

/-- A child is looked at only below its parent: how often a descent from the node can
do that. -/
def Node.depth {K : Type} : Node K → ℕ
  | .leaf _ => 0
  | .internal _ children => depths children + 1
where
  depths : List (Node K) → ℕ
    | [] => 0
    | c :: cs => max c.depth (depths cs)

def Node.leaves {K : Type} : Node K → List ℕ
  | .leaf p => [p]
  | .internal _ children => all children
where
  all : List (Node K) → List ℕ
    | [] => []
    | c :: cs => c.leaves ++ all cs

structure BPlusTree (K V : Type) where
  degree : ℕ
  two_le_degree : 2 ≤ degree
  leaves : Leaves K V
  root : Option (Node K)
  firstLeaf : Option ℕ

/-- `BPlusTree(int deg)`. -/
def BPlusTree.fresh (K V : Type) (deg : ℤ) : BPlusTree K V :=
  ⟨(max 2 deg).toNat, by omega, [], none, none⟩

namespace BPlus

variable {K V : Type}

/-- `is_full` of a leaf and of an internal node. -/
def isFull (degree : ℕ) (keys : List K) : Bool := 2 * degree - 1 ≤ keys.length

/-- `is_underflow` of a leaf and of an internal node. -/
def isUnderflow (degree : ℕ) (keys : List K) : Bool := keys.length < degree - 1

def leafAt (H : Leaves K V) (p : ℕ) : LeafNode K V := H[p]?.getD default

/-- `InternalNode::split`: the keys and children of the two halves. -/
def splitInternal (keys : List K) (children : List (Node K)) :
    Option ((List K × List (Node K)) × (List K × List (Node K))) :=
  let mid := keys.length / 2
  if children.length < mid + 1 then none
  else some ((keys.take mid, children.take (mid + 1)), (keys.drop (mid + 1), children.drop (mid + 1)))

/-- `InternalNode::insert_child`. -/
def insertChild (idx : ℕ) (key : K) (child : Node K) (keys : List K) (children : List (Node K)) :
    List K × List (Node K) :=
  if idx < keys.length then (keys.insertIdx idx key, children.insertIdx (idx + 1) child)
  else (keys ++ [key], children ++ [child])

/-- The two erasures of `remove_recursive` when the child at `idx` is an empty leaf. -/
def eraseChild (idx : ℕ) (keys : List K) (children : List (Node K)) : List K × List (Node K) :=
  (if 0 < idx then keys.eraseIdx (idx - 1) else if keys.isEmpty then keys else keys.eraseIdx 0,
    children.eraseIdx idx)

/-- `LeafNode::split` of the leaf at `p`; the new leaf is put at the next address. -/
def splitLeaf (p : ℕ) (H : Leaves K V) : Leaves K V :=
  let l := leafAt H p
  let mid := l.keys.length / 2
  H.set p ⟨l.keys.take mid, l.values.take mid, some H.length⟩ ++
    [⟨l.keys.drop mid, l.values.drop mid, l.next⟩]

/-- The loop `while (leaf) { .. leaf = leaf->next; }`: the leaves it visits from `p`
on, if there are at most `n` of them. -/
def walk (H : Leaves K V) : ℕ → Option ℕ → Option (List ℕ)
  | _, none => some []
  | 0, some _ => none
  | n + 1, some p => do return p :: (← walk H n (leafAt H p).next)

variable [LinearOrder K]

/-- `std::lower_bound` on sorted keys, and the loop of `find_child_index` on any keys. -/
def lowerBound (key : K) (keys : List K) : ℕ := (keys.takeWhile (· < key)).length

end BPlus

open BPlus

namespace LeafNode

variable {K V : Type}

def pairs (l : LeafNode K V) : List (K × V) := l.keys.zip l.values

variable [LinearOrder K]

def insertKey (key : K) (value : V) (l : LeafNode K V) : LeafNode K V :=
  let idx := lowerBound key l.keys
  { l with keys := l.keys.insertIdx idx key, values := l.values.insertIdx idx value }

def contains (key : K) (l : LeafNode K V) : Bool := l.keys[lowerBound key l.keys]? = some key

def removeKey (key : K) (l : LeafNode K V) : LeafNode K V :=
  let idx := lowerBound key l.keys
  if l.keys[idx]? = some key then
    { l with keys := l.keys.eraseIdx idx, values := l.values.eraseIdx idx }
  else l

def find (key : K) (l : LeafNode K V) : Option V :=
  let idx := lowerBound key l.keys
  if l.keys[idx]? = some key then l.values[idx]? else none

/-- The `for` loop of `range_query`: the values it adds to the result, and whether it
returned from inside. -/
def scan (start stop : K) : List K → List V → List V × Bool
  | k :: keys, v :: values =>
    if start ≤ k ∧ k ≤ stop then
      let rest := scan start stop keys values
      (v :: rest.1, rest.2)
    else if stop < k then ([], true)
    else scan start stop keys values
  | _, _ => ([], false)

end LeafNode

namespace BPlus

variable {K V : Type} (degree : ℕ)

def nodeFull (H : Leaves K V) : Node K → Bool
  | .leaf p => isFull degree (leafAt H p).keys
  | .internal keys _ => isFull degree keys

/-- The split of a full leaf, as a child of an internal node or as the root: the two
nodes with the key between them. -/
def splitLeafNode (p : ℕ) (H : Leaves K V) : Option (Node K × K × Node K × Leaves K V) := do
  let H' := splitLeaf p H
  return (.leaf p, ← (leafAt H' H.length).keys[0]?, .leaf H.length, H')

/-- The split of a full child in `insert_nonfull`, with the key `promoted` that the
read past the end of an internal child's keys yields. -/
def splitChild (promoted : K) (child : Node K) (H : Leaves K V) :
    Option (Node K × K × Node K × Leaves K V) :=
  match child with
  | .leaf p => splitLeafNode p H
  | .internal keys children => do
    let (left, right) ← splitInternal keys children
    return (.internal left.1 left.2, promoted, .internal right.1 right.2, H)

/-- The split of a full root in `insert`. The promoted key is taken out of the middle
of the left half. -/
def splitRoot (root : Node K) (H : Leaves K V) : Option (Node K × K × Node K × Leaves K V) :=
  match root with
  | .leaf p => splitLeafNode p H
  | .internal keys children => do
    let ((keys, children), right) ← splitInternal keys children
    let promote ← keys[keys.length / 2]?
    return (.internal (keys.eraseIdx (keys.length / 2)) children, promote,
      .internal right.1 right.2, H)

variable [LinearOrder K]

/-- What `insert_nonfull` does in an internal node before it goes on to the child at
the index returned. -/
def makeRoom (promoted key : K) (keys : List K) (children : List (Node K)) (H : Leaves K V) :
    Option (ℕ × List K × List (Node K) × Leaves K V) := do
  let idx := lowerBound key keys
  let child ← children[idx]?
  if nodeFull degree H child then
    let (left, promote, right, H) ← splitChild promoted child H
    let (keys, children) := insertChild idx promote right keys (children.set idx left)
    return (if (← keys[idx]?) < key then idx + 1 else idx, keys, children, H)
  else return (idx, keys, children, H)

end BPlus

namespace Node

variable {K V : Type}

theorem depth_le_depths {c : Node K} {cs : List (Node K)} (h : c ∈ cs) :
    c.depth ≤ depth.depths cs := by
  induction cs with
  | nil => simp at h
  | cons d cs ih =>
    simp only [depth.depths]
    rcases List.mem_cons.1 h with rfl | h
    · exact Nat.le_max_left _ _
    · exact Nat.le_trans (ih h) (Nat.le_max_right _ _)

theorem depths_le {cs : List (Node K)} {n : ℕ} (h : ∀ c ∈ cs, c.depth ≤ n) :
    depth.depths cs ≤ n := by
  induction cs with
  | nil => exact Nat.zero_le _
  | cons d cs ih =>
    simp only [depth.depths]
    exact Nat.max_le.2 ⟨h d (by simp), ih fun c hc => h c (by simp [hc])⟩

theorem depths_mono {cs ds : List (Node K)} (h : ∀ c ∈ cs, c ∈ ds) :
    depth.depths cs ≤ depth.depths ds := depths_le fun _ hc => depth_le_depths (h _ hc)

end Node

namespace BPlus

variable {K V : Type} {degree : ℕ}

theorem splitChild_depth {promoted promote : K} {child left right : Node K} {H H' : Leaves K V}
    (h : splitChild promoted child H = some (left, promote, right, H')) :
    left.depth ≤ child.depth ∧ right.depth ≤ child.depth := by
  cases child with
  | leaf p =>
    simp only [splitChild, splitLeafNode, Option.bind_eq_bind, Option.bind_eq_some_iff,
      Option.pure_def, Option.some.injEq, Prod.mk.injEq] at h
    obtain ⟨-, -, rfl, -, rfl, -⟩ := h
    simp [Node.depth]
  | internal keys children =>
    simp only [splitChild, splitInternal] at h
    split at h
    · simp at h
    · simp only [Option.bind_eq_bind, Option.bind_some, Option.pure_def, Option.some.injEq,
        Prod.mk.injEq] at h
      obtain ⟨rfl, -, rfl, -⟩ := h
      simp only [Node.depth]
      exact ⟨Nat.succ_le_succ (Node.depths_mono fun _ => List.mem_of_mem_take),
        Nat.succ_le_succ (Node.depths_mono fun _ => List.mem_of_mem_drop)⟩

theorem mem_insertChild {idx : ℕ} {key : K} {child c : Node K} {keys : List K}
    {children : List (Node K)} (h : c ∈ (insertChild idx key child keys children).2) :
    c = child ∨ c ∈ children := by
  unfold insertChild at h
  split at h
  · exact List.eq_or_mem_of_mem_insertIdx h
  · simpa [or_comm] using h

variable [LinearOrder K]

theorem makeRoom_cases {promoted key : K} {keys keys' : List K} {children children' : List (Node K)}
    {H H' : Leaves K V} {idx : ℕ}
    (h : makeRoom degree promoted key keys children H = some (idx, keys', children', H')) :
    ∃ child, children[lowerBound key keys]? = some child ∧
      (nodeFull degree H child = false ∧
          idx = lowerBound key keys ∧ keys' = keys ∧ children' = children ∧ H' = H ∨
        nodeFull degree H child = true ∧ ∃ left promote right s,
          splitChild promoted child H = some (left, promote, right, H') ∧
          (keys', children') = insertChild (lowerBound key keys) promote right keys
            (children.set (lowerBound key keys) left) ∧
          keys'[lowerBound key keys]? = some s ∧
          idx = if s < key then lowerBound key keys + 1 else lowerBound key keys) := by
  simp only [makeRoom, Option.bind_eq_bind, Option.bind_eq_some_iff] at h
  obtain ⟨child, hchild, h⟩ := h
  refine ⟨child, hchild, ?_⟩
  split at h
  · next hfull =>
    obtain ⟨⟨left, promote, right, H₁⟩, hsplit, h⟩ := Option.bind_eq_some_iff.1 h
    obtain ⟨s, hs, h⟩ := Option.bind_eq_some_iff.1 h
    simp only [Option.pure_def, Option.some.injEq, Prod.mk.injEq] at h
    obtain ⟨rfl, rfl, rfl, rfl⟩ := h
    exact .inr ⟨hfull, left, promote, right, s, hsplit, rfl, hs, rfl⟩
  · next hfull =>
    simp only [Option.pure_def, Option.some.injEq, Prod.mk.injEq] at h
    obtain ⟨rfl, rfl, rfl, rfl⟩ := h
    exact .inl ⟨by simpa using hfull, rfl, rfl, rfl, rfl⟩

theorem makeRoom_depth {promoted key : K} {keys keys' : List K} {children children' : List (Node K)}
    {H H' : Leaves K V} {idx : ℕ} {c : Node K}
    (h : makeRoom degree promoted key keys children H = some (idx, keys', children', H'))
    (hc : c ∈ children') : c.depth ≤ Node.depth.depths children := by
  obtain ⟨child, hchild, ⟨-, -, -, rfl, -⟩ | ⟨-, left, promote, right, s, hsplit, hins, -, -⟩⟩ :=
    makeRoom_cases h
  · exact Node.depth_le_depths hc
  · have hle := Node.depth_le_depths (List.mem_of_getElem? hchild)
    obtain ⟨hl, hr⟩ := splitChild_depth hsplit
    rw [show children' = (insertChild _ _ _ _ _).2 from congrArg Prod.snd hins] at hc
    rcases mem_insertChild hc with rfl | hc
    · exact Nat.le_trans hr hle
    · rcases List.mem_or_eq_of_mem_set hc with hc | rfl
      · exact Node.depth_le_depths hc
      · exact Nat.le_trans hl hle

variable (degree)

def insertNonfull (promoted : ℕ → K) (key : K) (value : V) (node : Node K) (H : Leaves K V) :
    Option (Node K × Leaves K V) :=
  match node with
  | .leaf p => some (.leaf p, H.modify p (·.insertKey key value))
  | .internal keys children =>
    match _h : makeRoom degree (promoted (Node.depth.depths children)) key keys children H with
    | none => none
    | some (idx, keys, children, H) =>
      match _hc : children[idx]? with
      | none => none
      | some child => do
        let (child, H) ← insertNonfull promoted key value child H
        return (.internal keys (children.set idx child), H)
termination_by node.depth
decreasing_by
  simp only [Node.depth]
  exact Nat.lt_succ_of_le (makeRoom_depth _h (List.mem_of_getElem? _hc))

def emptyLeaf (H : Leaves K V) : Node K → Bool
  | .leaf p => (leafAt H p).keys.isEmpty
  | .internal _ _ => false

/-- `remove_recursive`, with the flag it returns. -/
def removeRecursive (key : K) (node : Node K) (H : Leaves K V) :
    Option (Node K × Leaves K V × Bool) :=
  match node with
  | .leaf p =>
    let H' := H.modify p (·.removeKey key)
    some (.leaf p, H', (leafAt H p).contains key && isUnderflow degree (leafAt H' p).keys)
  | .internal keys children =>
    let idx := lowerBound key keys
    match _h : children[idx]? with
    | none => none
    | some child => do
      let (child, H, childUnderflow) ← removeRecursive key child H
      let children := children.set idx child
      let (keys, children) :=
        if childUnderflow && emptyLeaf H child then eraseChild idx keys children
        else (keys, children)
      return (.internal keys children, H, isUnderflow degree keys)
termination_by node.depth
decreasing_by
  simp only [Node.depth]
  exact Nat.lt_succ_of_le (Node.depth_le_depths (List.mem_of_getElem? _h))

/-- The loop of `find_leaf`. -/
def findLeaf (key : K) (node : Node K) : Option ℕ :=
  match node with
  | .leaf p => some p
  | .internal keys children =>
    match _h : children[lowerBound key keys]? with
    | none => none
    | some child => findLeaf key child
termination_by node.depth
decreasing_by
  simp only [Node.depth]
  exact Nat.lt_succ_of_le (Node.depth_le_depths (List.mem_of_getElem? _h))

/-- The `while` of `LeafNode::range_query`, over at most `n` leaves. -/
def rangeWalk (start stop : K) (H : Leaves K V) : ℕ → Option ℕ → Option (List V)
  | _, none => some []
  | 0, some _ => none
  | n + 1, some p =>
    let found := LeafNode.scan start stop (leafAt H p).keys (leafAt H p).values
    if found.2 then some found.1
    else do return found.1 ++ (← rangeWalk start stop H n (leafAt H p).next)

end BPlus

namespace BPlusTree

variable {K V : Type}

/-- The leaves that a walk along `first_leaf` and `next` visits. -/
def chain (t : BPlusTree K V) : Option (List ℕ) := walk t.leaves t.leaves.length t.firstLeaf

def chainPairs (t : BPlusTree K V) : Option (List (K × V)) := do
  return (← t.chain).flatMap fun p => (leafAt t.leaves p).pairs

def treeLeaves (t : BPlusTree K V) : List ℕ := t.root.elim [] Node.leaves

def treePairs (t : BPlusTree K V) : List (K × V) :=
  t.treeLeaves.flatMap fun p => (leafAt t.leaves p).pairs

def size (t : BPlusTree K V) : Option ℕ := do
  return (← t.chain).foldl (fun count p => count + (leafAt t.leaves p).keys.length) 0

/-- The part of `insert` that splits a full root. -/
def growRoot (root : Node K) (t : BPlusTree K V) : Option (Node K × Leaves K V) :=
  if nodeFull t.degree t.leaves root then do
    let (left, promote, right, H) ← splitRoot root t.leaves
    return (.internal [promote] [left, right], H)
  else some (root, t.leaves)

variable [LinearOrder K]

def insert (promoted : ℕ → K) (key : K) (value : V) (t : BPlusTree K V) :
    Option (BPlusTree K V) :=
  match t.root with
  | none =>
    let p := t.leaves.length
    some { t with
      leaves := t.leaves ++ [LeafNode.insertKey key value ⟨[], [], none⟩]
      root := some (.leaf p)
      firstLeaf := some p }
  | some root => do
    let (root, H) ← t.growRoot root
    let (root, H) ← insertNonfull t.degree promoted key value root H
    return { t with leaves := H, root := some root }

def remove (key : K) (t : BPlusTree K V) : Option (BPlusTree K V) :=
  match t.root with
  | none => some t
  | some root => do
    let (root, H, _) ← removeRecursive t.degree key root t.leaves
    match root with
    | .leaf p =>
      if (leafAt H p).keys.isEmpty then
        return { t with leaves := H, root := none, firstLeaf := none }
      else return { t with leaves := H, root := some (.leaf p) }
    | .internal [] [child] => return { t with leaves := H, root := some child }
    | .internal keys children => return { t with leaves := H, root := some (.internal keys children) }

/-- `find`, with `none` for the null pointer. -/
def find (key : K) (t : BPlusTree K V) : Option V := do
  let leaf ← findLeaf key (← t.root)
  (leafAt t.leaves leaf).find key

/-- `range_query`; `none` if the chain does not end. -/
def rangeQuery (start stop : K) (t : BPlusTree K V) : Option (List V) :=
  match t.root with
  | none => some []
  | some root =>
    match findLeaf start root with
    | none => some []
    | some leaf => rangeWalk start stop t.leaves t.leaves.length (some leaf)

end BPlusTree

/-- A call of `insert`: its arguments, and what its read past the end yields. -/
structure Insertion (K V : Type) where
  key : K
  value : V
  promoted : ℕ → K

namespace BPlusTree

variable {K V : Type}

/-- The calls that change a tree. -/
inductive Op (K V : Type) where
  | insert (i : Insertion K V)
  | remove (key : K)

variable [LinearOrder K]

def step (op : Op K V) (t : BPlusTree K V) : Option (BPlusTree K V) :=
  match op with
  | .insert i => t.insert i.promoted i.key i.value
  | .remove key => t.remove key

end BPlusTree

end LearnSpdk
