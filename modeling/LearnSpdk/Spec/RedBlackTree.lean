import LearnSpdk.Lib.LinkedTree

/-! `RedBlackTree<K, V>` of `KV_Store/RBTree.cpp`: nodes are shared cells with
null leaves and weak parent links. Operations are in `Option`; `none` is the
dereference of a null pointer, or a loop that outlasts its bound. A loop is
bounded by `fuel`, one more than the number of nodes ever made plus one; no run
is ever cut short by it. -/

namespace LearnSpdk

open Lib

structure RedBlackTree (K V : Type) where
  links : Links K V
  count : ℕ
  /-- the address of the next node made -/
  next : Ptr

namespace RedBlackTree

variable {K V : Type}

/-- `RedBlackTree()`. -/
def empty : RedBlackTree K V := ⟨⟨fun _ => none, none⟩, 0, 0⟩

/-- `Node::is_left_child`. -/
def isLeftChild (x : Option Ptr) (L : Links K V) : Option Bool := do
  match L.lock (← L.deref x).parent with
  | none => return false
  | some p => return (← L.heap p).left = x

/-- `Node::sibling`. -/
def sibling (x : Option Ptr) (L : Links K V) : Option (Option Ptr) := do
  match L.lock (← L.deref x).parent with
  | none => return none
  | some p => return (← L.heap p).child (if ← isLeftChild x L then .right else .left)

/-- The test `!x || x->color == BLACK`. -/
def isBlack (x : Option Ptr) (L : Links K V) : Option Bool :=
  match x with
  | none => some true
  | some p => do return (← L.heap p).color = .black

section Fixup

-- What a defensive exit does to the state: in the program, nothing. The fix-up
-- code is written over it so that its exits can be told apart from its other paths.
variable (exit : Links K V → Option (Links K V))

/-- `left_rotate` and its mirror image `right_rotate`. -/
def rotate (d : Side) (x : Option Ptr) (L : Links K V) : Option (Links K V) := do
  if (← L.deref x).child d.other = none then exit L
  else L.rotate none d x

def leftRotate (x : Option Ptr) (L : Links K V) : Option (Links K V) := rotate exit .left x L

def rightRotate (x : Option Ptr) (L : Links K V) : Option (Links K V) := rotate exit .right x L

/-- The `while` of `fix_insert`. The two halves of its body are mirror images: `d`
is the side of the parent below the grandparent. -/
def fixInsertLoop : ℕ → Option Ptr → Links K V → Option (Links K V)
  | 0, _, _ => none
  | n + 1, node, L => do
    if node = L.root then return L
    let parent := L.lock (← L.deref node).parent
    if (← L.deref parent).color = .black then return L
    let grandparent := L.lock (← L.deref parent).parent
    if grandparent = none then exit L
    else
      let d := if ← isLeftChild parent L then Side.left else Side.right
      let uncle ← sibling parent L
      if !(← isBlack uncle L) then
        let L ← L.modify parent (·.setColor .black)
        let L ← L.modify uncle (·.setColor .black)
        let L ← L.modify grandparent (·.setColor .red)
        fixInsertLoop n grandparent L
      else if (← isLeftChild node L) == (d == .left) then
        let L ← L.modify parent (·.setColor .black)
        let L ← L.modify grandparent (·.setColor .red)
        let L ← rotate exit d.other grandparent L
        fixInsertLoop n node L
      else
        -- the node is the inner grandchild: its parent goes down first
        let node := parent
        let L ← rotate exit d node L
        let parent := L.lock (← L.deref node).parent
        let grandparent ← if parent = none then some none
          else do pure (L.lock (← L.deref parent).parent)
        if grandparent = none then exit L
        else
          let L ← L.modify parent (·.setColor .black)
          let L ← L.modify grandparent (·.setColor .red)
          let L ← rotate exit d.other grandparent L
          fixInsertLoop n node L

def fixInsert (fuel : ℕ) (node : Option Ptr) (L : Links K V) : Option (Links K V) := do
  let L ← fixInsertLoop exit fuel node L
  if L.root = none then return L else L.modify L.root (·.setColor .black)

/-- A red sibling of the short node is rotated up; the new sibling. -/
def redSibling (d : Side) (parent sibling : Option Ptr) (L : Links K V) :
    Option (Option Ptr × Links K V) := do
  if (← L.deref sibling).color = .red then
    let L ← L.modify sibling (·.setColor .black)
    let L ← L.modify parent (·.setColor .red)
    let L ← rotate exit d parent L
    return ((← L.deref parent).child d.other, L)
  else return (sibling, L)

/-- The sibling's outer child is made red by rotating the inner one up; the new
sibling. -/
def innerNephew (d : Side) (parent sibling : Option Ptr) (L : Links K V) :
    Option (Option Ptr × Links K V) := do
  if ← isBlack ((← L.deref sibling).child d.other) L then
    let inner := (← L.deref sibling).child d
    let L ← if inner = none then some L else L.modify inner (·.setColor .black)
    let L ← L.modify sibling (·.setColor .red)
    let L ← rotate exit d.other sibling L
    return ((← L.deref parent).child d.other, L)
  else return (sibling, L)

/-- The sibling takes over the parent's place and colour. -/
def outerNephew (d : Side) (parent sibling : Option Ptr) (L : Links K V) :
    Option (Links K V) := do
  let color := (← L.deref parent).color
  let L ← L.modify sibling (·.setColor color)
  let L ← L.modify parent (·.setColor .black)
  let outer := (← L.deref sibling).child d.other
  let L ← if outer = none then some L else L.modify outer (·.setColor .black)
  rotate exit d parent L

/-- The rest of the loop body of `fix_delete` once the sibling is black; `loop`
goes on from the parent. -/
def blackSibling (loop : Option Ptr → Option Ptr → Links K V → Option (Option Ptr × Links K V))
    (d : Side) (node parent sibling : Option Ptr) (L : Links K V) :
    Option (Option Ptr × Links K V) := do
  let near := (← L.deref sibling).child d
  let far := (← L.deref sibling).child d.other
  if (← isBlack near L) && (← isBlack far L) then
    let L ← L.modify sibling (·.setColor .red)
    loop parent (L.lock (← L.deref parent).parent) L
  else
    let (sibling, L) ← innerNephew exit d parent sibling L
    if sibling = none then return (node, ← exit L)
    let L ← outerNephew exit d parent sibling L
    return (L.root, L)

/-- The `while` of `fix_delete`, with the node it ends at. The halves of its body
are mirror images: `d` is the side of the node below its parent. -/
def fixDeleteLoop : ℕ → Option Ptr → Option Ptr → Links K V → Option (Option Ptr × Links K V)
  | 0, _, _, _ => none
  | n + 1, node, parent, L => do
    if node = L.root then return (node, L)
    if !(← isBlack node L) then return (node, L)
    if parent = none then return (node, ← exit L)
    let d := if node = (← L.deref parent).left then Side.left else Side.right
    let sibling := (← L.deref parent).child d.other
    if sibling = none then return (node, ← exit L)
    let (sibling, L) ← redSibling exit d parent sibling L
    if sibling = none then return (node, ← exit L)
    blackSibling exit (fixDeleteLoop n) d node parent sibling L

def fixDelete (fuel : ℕ) (node parent : Option Ptr) (L : Links K V) : Option (Links K V) := do
  if L.root = none then return L
  let (node, L) ← fixDeleteLoop exit fuel node parent L
  if node = none then return L else L.modify node (·.setColor .black)

end Fixup

def minimum : ℕ → Option Ptr → Links K V → Option (Option Ptr)
  | 0, _, _ => none
  | _ + 1, none, _ => some none
  | n + 1, some node, L => do
    match (← L.heap node).left with
    | none => return some node
    | some l => minimum n (some l) L

section Order
variable [LinearOrder K]

/-- The loop of `find_node`. -/
def findNode (key : K) : ℕ → Option Ptr → Links K V → Option (Option Ptr)
  | 0, _, _ => none
  | _ + 1, none, _ => some none
  | n + 1, some current, L => do
    let c ← L.heap current
    if key < c.key then findNode key n c.left L
    else if key > c.key then findNode key n c.right L
    else return some current

/-- The search loop of `insert`: the node with the key, if any, and the last node
passed on the way. -/
def findPlace (key : K) : ℕ → Option Ptr → Option Ptr → Links K V → Option (Option Ptr × Option Ptr)
  | 0, _, _, _ => none
  | _ + 1, none, parent, _ => some (none, parent)
  | n + 1, some current, parent, L => do
    let c ← L.heap current
    if key < c.key then findPlace key n c.left (some current) L
    else if key > c.key then findPlace key n c.right (some current) L
    else return (some current, parent)

/-- `insert`, over what a defensive exit does and with at most `fuel` turns of each loop. -/
def insertWith (exit : Links K V → Option (Links K V)) (fuel : ℕ) (key : K) (value : V)
    (t : RedBlackTree K V) : Option (Bool × RedBlackTree K V) := do
  let L := t.links
  let new := t.next
  if L.root = none then
    let L := L.put new ⟨key, value, .black, none, none, none⟩
    return (true, ⟨{ L with root := some new }, 1, new + 1⟩)
  match ← findPlace key fuel L.root none L with
  | (some current, _) =>
    let L ← L.modify (some current) (·.setValue value)
    return (false, { t with links := L })
  | (none, parent) =>
    let L := L.put new ⟨key, value, .red, none, none, parent⟩
    let side := if key < (← L.deref parent).key then Side.left else Side.right
    let L ← L.modify parent (·.setChild side (some new))
    let L ← fixInsert exit fuel (some new) L
    return (true, ⟨L, t.count + 1, new + 1⟩)

/-- The successor leaves its deeper place and takes over the right subtree of `node`. -/
def takeRight (node successor x : Option Ptr) (L : Links K V) : Option (Links K V) := do
  let L ← L.transplant successor x
  let right := (← L.deref node).right
  let L ← L.modify successor (·.setChild .right right)
  L.adopt none (← L.deref successor).right successor

/-- The successor takes over the place, the left subtree and the colour of `node`. -/
def takePlace (node successor : Option Ptr) (L : Links K V) : Option (Links K V) := do
  let L ← L.transplant node successor
  let left := (← L.deref node).left
  let L ← L.modify successor (·.setChild .left left)
  let L ← L.adopt none (← L.deref successor).left successor
  let color := (← L.deref node).color
  L.modify successor (·.setColor color)

/-- The unlinking part of `remove`: the colour that left the tree, the node that
took the place of the one that left, and its parent. -/
def unlink (fuel : ℕ) (node : Option Ptr) (L : Links K V) :
    Option (Color × Option Ptr × Option Ptr × Links K V) := do
  let c ← L.deref node
  if c.left = none then
    return (c.color, c.right, L.lock c.parent, ← L.transplant node c.right)
  else if c.right = none then
    return (c.color, c.left, L.lock c.parent, ← L.transplant node c.left)
  else
    let successor ← minimum fuel c.right L
    let cs ← L.deref successor
    let parent := L.lock cs.parent
    if parent ≠ node then
      let L ← takeRight node successor cs.right L
      return (cs.color, cs.right, parent, ← takePlace node successor L)
    else return (cs.color, cs.right, successor, ← takePlace node successor L)

/-- The repair at the end of `remove`. -/
def repair (exit : Links K V → Option (Links K V)) (fuel : ℕ) (original : Color)
    (x parent : Option Ptr) (L : Links K V) : Option (Links K V) :=
  if original = .black then
    if x = L.root then
      if x = none then some L else L.modify x (·.setColor .black)
    else if parent = none then some L
    else fixDelete exit fuel x parent L
  else some L

/-- `remove`, over the same. The node taken out dies with the last pointer to it when the call
returns. -/
def removeWith (exit : Links K V → Option (Links K V)) (fuel : ℕ) (key : K) (t : RedBlackTree K V) :
    Option (Bool × RedBlackTree K V) := do
  match ← findNode key fuel t.links.root t.links with
  | none => return (false, t)
  | some node =>
    let (original, x, parent, L) ← unlink fuel (some node) t.links
    let L ← repair exit fuel original x parent L
    return (true, { t with links := L.free node, count := t.count - 1 })

/-- `find` with at most `fuel` turns of its loop, and with the value the returned pointer leads
to. -/
def findWith (fuel : ℕ) (key : K) (t : RedBlackTree K V) : Option (Option V) := do
  match ← findNode key fuel t.links.root t.links with
  | none => return none
  | some node => return some (← t.links.heap node).value

def fuel (t : RedBlackTree K V) : ℕ := t.next + 2

def insert (key : K) (value : V) (t : RedBlackTree K V) : Option (Bool × RedBlackTree K V) :=
  insertWith some t.fuel key value t

def remove (key : K) (t : RedBlackTree K V) : Option (Bool × RedBlackTree K V) :=
  removeWith some t.fuel key t

def find (key : K) (t : RedBlackTree K V) : Option (Option V) := findWith t.fuel key t

def contains (key : K) (t : RedBlackTree K V) : Option Bool := do
  return (← findNode key t.fuel t.links.root t.links) != none

end Order

def size (t : RedBlackTree K V) : ℕ := t.count

/-- `clear`: the nodes die with the root pointer. -/
def clear (t : RedBlackTree K V) : RedBlackTree K V := ⟨⟨fun _ => none, none⟩, 0, t.next⟩

def inorderTraversal : ℕ → Option Ptr → Links K V → List (K × V) → Option (List (K × V))
  | _, none, _, result => some result
  | 0, some _, _, _ => none
  | n + 1, some p, L, result => do
    let c ← L.heap p
    let result ← inorderTraversal n c.left L result
    inorderTraversal n c.right L (result ++ [(c.key, c.value)])

def inorder (t : RedBlackTree K V) : Option (List (K × V)) :=
  inorderTraversal (t.next + 2) t.links.root t.links []

/-- The `for` of `level_order`, with the level it collects and the queue it leaves. The `front` of
an empty queue is `none`. -/
def levelLoop : ℕ → List Ptr → Links K V → List (K × Color) → Option (List (K × Color) × List Ptr)
  | 0, q, _, level => some (level, q)
  | _ + 1, [], _, _ => none
  | i + 1, node :: q, L, level => do
    let c ← L.heap node
    levelLoop i (q ++ c.left.toList ++ c.right.toList) L (level ++ [(c.key, c.color)])

/-- The `while` of `level_order`, with `level_size` as a number without bound. -/
def levelOrderLoop : ℕ → List Ptr → Links K V → List (List (K × Color)) →
    Option (List (List (K × Color)))
  | 0, _, _, _ => none
  | n + 1, q, L, result =>
    if q = [] then some result
    else do
      let levelSize := q.length
      let (level, q) ← levelLoop levelSize q L []
      levelOrderLoop n q L (result ++ [level])

def levelOrder (t : RedBlackTree K V) : Option (List (List (K × Color))) :=
  match t.links.root with
  | none => some []
  | some root => levelOrderLoop (t.next + 2) [root] t.links []

/-- The node is red and has a red child. -/
def redChild (c : Cell K V) (L : Links K V) : Option Bool :=
  if c.color = .red then do return !(← isBlack c.left L) || !(← isBlack c.right L) else some false

/-- `validate_rb`: the answer and the new value of `path_black_count`. -/
def validateRb : ℕ → Option Ptr → ℤ → ℤ → Links K V → Option (Bool × ℤ)
  | _, none, blackCount, pathBlackCount, _ =>
    let pathBlackCount := if pathBlackCount = -1 then blackCount else pathBlackCount
    some (blackCount = pathBlackCount, pathBlackCount)
  | 0, some _, _, _, _ => none
  | n + 1, some p, blackCount, pathBlackCount, L => do
    let c ← L.heap p
    if ← redChild c L then return (false, pathBlackCount)
    let newBlackCount := blackCount + if c.color = .black then 1 else 0
    let (ok, pathBlackCount) ← validateRb n c.left newBlackCount pathBlackCount L
    if ok then validateRb n c.right newBlackCount pathBlackCount L
    else return (false, pathBlackCount)

def validate (t : RedBlackTree K V) : Option Bool := do
  if t.links.root = none then return true
  if (← t.links.deref t.links.root).color ≠ .black then return false
  return (← validateRb (t.next + 2) t.links.root 0 (-1) t.links).1

def height : ℕ → Option Ptr → Links K V → Option ℕ
  | _, none, _ => some 0
  | 0, some _, _ => none
  | n + 1, some p, L => do
    let c ← L.heap p
    return 1 + max (← height n c.left L) (← height n c.right L)

def getHeight (t : RedBlackTree K V) : Option ℕ := height (t.next + 2) t.links.root t.links

/-- A call that changes the tree. -/
inductive Op (K V : Type)
  | insert (key : K) (value : V)
  | remove (key : K)
  | clear

def step [LinearOrder K] (t : RedBlackTree K V) : Op K V → Option (RedBlackTree K V)
  | .insert key value => (insert key value t).map Prod.snd
  | .remove key => (remove key t).map Prod.snd
  | .clear => some t.clear

/-- The state after a run of calls on the empty tree. -/
def run [LinearOrder K] (ops : List (Op K V)) : Option (RedBlackTree K V) := ops.foldlM step empty

/-- What a call does to a map. -/
def Op.apply [DecidableEq K] (m : K → Option V) : Op K V → K → Option V
  | .insert key value => Function.update m key (some value)
  | .remove key => Function.update m key none
  | .clear => fun _ => none

/-- The map that a run of calls stands for. -/
def reference [DecidableEq K] (ops : List (Op K V)) : K → Option V :=
  ops.foldl Op.apply fun _ => none

end RedBlackTree

end LearnSpdk
