import LearnSpdk.Lib.LinkedTree

/-! `RBTree<T>` of `Red_Black_Tree/RBTree.hpp`: every missing child is one shared
sentinel cell `nil`, whose parent link `remove` writes and `deleteFixup` reads.
As for `RedBlackTree`, `none` is the dereference of a null pointer or a loop that
outlasts its bound; an exception is an `Except` below it. -/

namespace LearnSpdk

open Lib

structure RBTree (T : Type) where
  links : Links T T
  nil : Ptr
  /-- the address of the next node made -/
  next : Ptr

namespace RBTree

variable {T : Type}

/-- The cell that `createNil` makes, with its parent link. -/
def nilCell [Inhabited T] (parent : Option Ptr) : Cell T T :=
  ⟨default, default, .black, none, none, parent⟩

/-- `RBTree()`. -/
def fresh [Inhabited T] : RBTree T :=
  ⟨{ heap := Function.update (fun _ => none) 0 (some (nilCell none)), root := some 0 }, 0, 1⟩

/-- The expression `x->parent.lock()`. -/
def parentOf (x : Option Ptr) (L : Links T T) : Option (Option Ptr) := do
  return L.lock (← L.deref x).parent

/-- What becomes of a call where the code relies on something that it does not test. If that
holds the call goes on. -/
structure Check where
  run : Bool → Option Unit
  run_true : run true = some ()

/-- In the program the call goes on. -/
def Check.off : Check := ⟨fun _ => some (), rfl⟩

/-- The call stops if it does not hold. -/
def Check.stop : Check := ⟨fun b => guard b, rfl⟩

/-- `x` is the child of `parent` on side `d`, and its parent link leads there. -/
def Seated (d : Side) (x parent : Option Ptr) (L : Links T T) : Prop :=
  parentOf x L = some parent ∧ (L.deref parent).map (·.child d) = some x

instance (d : Side) (x parent : Option Ptr) (L : Links T T) : Decidable (Seated d x parent L) :=
  inferInstanceAs (Decidable (_ ∧ _))

section Fixup
variable (nil : Ptr)

/-- A link to a node, neither null nor the sentinel. -/
def IsNode (x : Option Ptr) : Prop := x ≠ none ∧ x ≠ some nil

instance (x : Option Ptr) : Decidable (IsNode nil x) := inferInstanceAs (Decidable (_ ∧ _))

-- The fix-up code is written over the checks, so that what it relies on can be told: the
-- pivot's child of a rotation and the sibling are real nodes, and `x->parent` leads to the node
-- that `x` hangs below.
variable (check : Check)

/-- `leftRotate` and its mirror image `rightRotate`. -/
def rotate (d : Side) (x : Option Ptr) (L : Links T T) : Option (Links T T) := do
  check.run (IsNode nil ((← L.deref x).child d.other))
  L.rotate (some nil) d x

def leftRotate (x : Option Ptr) (L : Links T T) : Option (Links T T) := rotate nil check .left x L

def rightRotate (x : Option Ptr) (L : Links T T) : Option (Links T T) := rotate nil check .right x L

/-- The test `y != nil && y->color == RED`. -/
def isRed (y : Option Ptr) (L : Links T T) : Option Bool :=
  if y = some nil then some false else do return (← L.deref y).color = .red

/-- The part of the loop body of `insertFixup` below a black uncle; `z` may change. -/
def blackUncle (d : Side) (z : Option Ptr) (L : Links T T) : Option (Option Ptr × Links T T) := do
  let parent ← parentOf z L
  let (z, L) ←
    if z = (← L.deref parent).child d.other then do pure (parent, ← rotate nil check d parent L)
    else some (z, L)
  let L ← L.modify (← parentOf z L) (·.setColor .black)
  let L ← L.modify (← parentOf (← parentOf z L) L) (·.setColor .red)
  let L ← rotate nil check d.other (← parentOf (← parentOf z L) L) L
  return (z, L)

/-- The `while` of `insertFixup`. The two halves of its body are mirror images: `d`
is the side of the parent below the grandparent. -/
def insertFixupLoop : ℕ → Option Ptr → Links T T → Option (Links T T)
  | 0, _, _ => none
  | n + 1, z, L => do
    let parent ← parentOf z L
    if parent = none then return L
    if (← L.deref parent).color = .black then return L
    let grandparent ← parentOf parent L
    let d := if parent = (← L.deref grandparent).left then Side.left else Side.right
    let y := (← L.deref grandparent).child d.other
    if ← isRed nil y L then
      let L ← L.modify parent (·.setColor .black)
      let L ← L.modify y (·.setColor .black)
      let L ← L.modify grandparent (·.setColor .red)
      if grandparent = L.root then return L else insertFixupLoop n grandparent L
    else
      let (z, L) ← blackUncle nil check d z L
      if z = L.root then return L else insertFixupLoop n z L

def insertFixup (fuel : ℕ) (z : Option Ptr) (L : Links T T) : Option (Links T T) := do
  let L ← insertFixupLoop nil check fuel z L
  L.modify L.root (·.setColor .black)

section Delete

-- the node that `x` hangs below, for the checks
variable (parent : Option Ptr)

/-- A red sibling of `x` is rotated up; the new sibling. -/
def redSibling (d : Side) (x w : Option Ptr) (L : Links T T) : Option (Option Ptr × Links T T) := do
  if (← L.deref w).color = .red then
    let L ← L.modify w (·.setColor .black)
    let L ← L.modify (← parentOf x L) (·.setColor .red)
    let L ← rotate nil check d (← parentOf x L) L
    check.run (Seated d x parent L)
    let w := (← L.deref (← parentOf x L)).child d.other
    check.run (IsNode nil w)
    return (w, L)
  else return (w, L)

/-- The sibling's outer child is made red by rotating the inner one up; the new
sibling. -/
def innerNephew (d : Side) (x w : Option Ptr) (L : Links T T) : Option (Option Ptr × Links T T) := do
  if (← L.deref ((← L.deref w).child d.other)).color = .black then
    let L ← L.modify ((← L.deref w).child d) (·.setColor .black)
    let L ← L.modify w (·.setColor .red)
    let L ← rotate nil check d.other w L
    check.run (Seated d x parent L)
    let w := (← L.deref (← parentOf x L)).child d.other
    check.run (IsNode nil w)
    return (w, L)
  else return (w, L)

/-- The sibling takes over the parent's place and colour. -/
def outerNephew (d : Side) (x w : Option Ptr) (L : Links T T) : Option (Links T T) := do
  let color := (← L.deref (← parentOf x L)).color
  let L ← L.modify w (·.setColor color)
  let L ← L.modify (← parentOf x L) (·.setColor .black)
  let L ← L.modify ((← L.deref w).child d.other) (·.setColor .black)
  let L ← rotate nil check d (← parentOf x L) L
  check.run (Seated d x parent L)
  return L

/-- The rest of the loop body of `deleteFixup` once the sibling is black, with the
node that the loop goes on from. -/
def blackSibling (d : Side) (x w : Option Ptr) (L : Links T T) :
    Option (Option Ptr × Links T T) := do
  let near ← L.deref ((← L.deref w).child d)
  let far ← L.deref ((← L.deref w).child d.other)
  if near.color = .black && far.color = .black then
    let L ← L.modify w (·.setColor .red)
    return (← parentOf x L, L)
  else
    let (w, L) ← innerNephew nil check parent d x w L
    let L ← outerNephew nil check parent d x w L
    return (L.root, L)

end Delete

/-- The `while` of `deleteFixup`, with the node it ends at. The halves of its body
are mirror images: `d` is the side of `x` below its parent. -/
def deleteFixupLoop : ℕ → Option Ptr → Links T T → Option (Option Ptr × Links T T)
  | 0, _, _ => none
  | n + 1, x, L => do
    if x = L.root then return (x, L)
    if (← L.deref x).color = .red then return (x, L)
    let parent ← parentOf x L
    let d := if x = (← L.deref parent).left then Side.left else Side.right
    check.run (Seated d x parent L)
    let w := (← L.deref parent).child d.other
    check.run (IsNode nil w)
    let (w, L) ← redSibling nil check parent d x w L
    let (x, L) ← blackSibling nil check parent d x w L
    deleteFixupLoop n x L

def deleteFixup (fuel : ℕ) (x : Option Ptr) (L : Links T T) : Option (Links T T) := do
  let (x, L) ← deleteFixupLoop nil check fuel x L
  L.modify x (·.setColor .black)

/-- `minimum` and its mirror image `maximum`: down the children on side `d`. -/
def outermost (d : Side) : ℕ → Option Ptr → Links T T → Option (Option Ptr)
  | 0, _, _ => none
  | n + 1, node, L => do
    let next := (← L.deref node).child d
    if next = some nil then return node else outermost d n next L

def minimum (fuel : ℕ) (node : Option Ptr) (L : Links T T) : Option (Option Ptr) :=
  outermost nil .left fuel node L

def maximum (fuel : ℕ) (node : Option Ptr) (L : Links T T) : Option (Option Ptr) :=
  outermost nil .right fuel node L

/-- The recursion of `clear`, which only visits the nodes. -/
def clear : ℕ → Option Ptr → Links T T → Option Unit
  | 0, _, _ => none
  | n + 1, node, L =>
    if node = some nil then some ()
    else do
      clear n (← L.deref node).left L
      clear n (← L.deref node).right L

/-- The inner `while` of `inOrder`, with the stack it leaves. -/
def pushLeft : ℕ → Option Ptr → Links T T → List (Option Ptr) → Option (List (Option Ptr))
  | 0, _, _, _ => none
  | n + 1, current, L, s =>
    if current = some nil then some s
    else do pushLeft n (← L.deref current).left L (current :: s)

/-- The outer `while` of `inOrder`, with the key, value and colour of each node printed. The
`top` of an empty stack is `none`. -/
def inOrderLoop : ℕ → Option Ptr → Links T T → List (Option Ptr) → List (T × T × Color) →
    Option (List (T × T × Color))
  | 0, _, _, _, _ => none
  | n + 1, current, L, s, printed =>
    if current = some nil ∧ s = [] then some printed
    else do
      match ← pushLeft nil (n + 1) current L s with
      | [] => none
      | current :: s =>
        let c ← L.deref current
        inOrderLoop n c.right L s (printed ++ [(c.key, c.value, c.color)])

/-- The inner `for` of `levelOrder` for the `levelSize` nodes of a level: what is printed of them,
and the queue they leave. -/
def levelLoop : ℕ → List (Option Ptr) → Links T T → List (T × T × Color) →
    Option (List (T × T × Color) × List (Option Ptr))
  | 0, q, _, line => some (line, q)
  | _ + 1, [], _, _ => none
  | n + 1, node :: q, L, line =>
    if node ≠ some nil then do
      let c ← L.deref node
      let q := if c.left ≠ some nil then q ++ [c.left] else q
      let q := if c.right ≠ some nil then q ++ [c.right] else q
      levelLoop n q L (line ++ [(c.key, c.value, c.color)])
    else levelLoop n q L line

/-- The `while` of `levelOrder`, with the lines printed. -/
def levelOrderLoop : ℕ → List (Option Ptr) → Links T T → List (List (T × T × Color)) →
    Option (List (List (T × T × Color)))
  | 0, _, _, _ => none
  | n + 1, q, L, printed =>
    if q = [] then some printed
    else do
      let (line, q) ← levelLoop nil q.length q L []
      levelOrderLoop n q L (printed ++ [line])

def getHeight : ℕ → Option Ptr → Links T T → Option ℕ
  | 0, _, _ => none
  | n + 1, node, L =>
    if node = some nil then some 0
    else do
      let left ← getHeight n (← L.deref node).left L
      let right ← getHeight n (← L.deref node).right L
      return 1 + max left right

end Fixup

def fuel (t : RBTree T) : ℕ := t.next + 2

section Order
variable [LinearOrder T]

/-- The loop of `searchNode`. -/
def searchLoop (nil : Ptr) (key : T) : ℕ → Option Ptr → Links T T → Option (Option Ptr)
  | 0, _, _ => none
  | n + 1, current, L =>
    if current = some nil then some none
    else do
      let c ← L.deref current
      if key = c.key then return current
      else if key < c.key then searchLoop nil key n c.left L
      else searchLoop nil key n c.right L

/-- `searchNode` with at most `fuel` turns of its loop. -/
def searchNode (fuel : ℕ) (key : T) (t : RBTree T) : Option (Option Ptr) :=
  searchLoop t.nil key fuel t.links.root t.links

/-- The descent of `insert`: the last node passed, or `none` if the key is met. -/
def descend (nil : Ptr) (key : T) : ℕ → Option Ptr → Option Ptr → Links T T →
    Option (Option (Option Ptr))
  | 0, _, _, _ => none
  | n + 1, x, y, L =>
    if x = some nil then some (some y)
    else do
      let c ← L.deref x
      if key < c.key then descend nil key n c.left x L
      else if key > c.key then descend nil key n c.right x L
      else return none

/-- `insert`, over what a check does and with at most `fuel` turns of each loop. The new node is
written to the heap when the descent is over; until then nothing leads to it. -/
def insertWith (check : Check) (fuel : ℕ) (key value : T) (t : RBTree T) : Option (RBTree T) := do
  let existing ← searchNode fuel key t
  if existing ≠ none ∧ existing ≠ some t.nil then return t
  let z := t.next
  match ← descend t.nil key fuel t.links.root none t.links with
  | none => return { t with next := z + 1 }
  | some y =>
    let L := t.links.put z ⟨key, value, .red, some t.nil, some t.nil, y⟩
    let L ←
      if y = none then some { L with root := some z }
      else do
        let side := if key < (← L.deref y).key then Side.left else Side.right
        L.modify y (·.setChild side (some z))
    match ← parentOf (some z) L with
    | none => return { t with links := ← L.modify (some z) (·.setColor .black), next := z + 1 }
    | some parent =>
      if (← parentOf (some parent) L) = none then return { t with links := L, next := z + 1 }
      return { t with links := ← insertFixup t.nil check fuel (some z) L, next := z + 1 }

/-- `get` with at most `fuel` turns of its loop. -/
def getWith (fuel : ℕ) (key : T) (t : RBTree T) : Option (Except String T) := do
  match ← searchNode fuel key t with
  | none => return .error "Key not found"
  | some node => return .ok (← t.links.heap node).value

def modify (key value : T) (t : RBTree T) : Option (RBTree T) := do
  match ← searchNode t.fuel key t with
  | none => return t
  | some node => return { t with links := ← t.links.modify (some node) (·.setValue value) }

/-- The successor leaves its deeper place and takes over the right subtree of `z`. -/
def takeRight (z y x : Option Ptr) (L : Links T T) : Option (Links T T) := do
  let L ← L.transplant y x
  let right := (← L.deref z).right
  let L ← L.modify y (·.setChild .right right)
  L.modify (← L.deref y).right (·.setParent y)

/-- The successor takes over the place, the left subtree and the colour of `z`. -/
def takePlace (z y : Option Ptr) (L : Links T T) : Option (Links T T) := do
  let L ← L.transplant z y
  let left := (← L.deref z).left
  let L ← L.modify y (·.setChild .left left)
  let L ← L.modify (← L.deref y).left (·.setParent y)
  let color := (← L.deref z).color
  L.modify y (·.setColor color)

/-- The unlinking part of `remove`: the colour that left the tree, and the node
that took the place of the one that left. -/
def unlink (nil : Ptr) (fuel : ℕ) (z : Option Ptr) (L : Links T T) :
    Option (Color × Option Ptr × Links T T) := do
  let c ← L.deref z
  if c.left = some nil then return (c.color, c.right, ← L.transplant z c.right)
  else if c.right = some nil then return (c.color, c.left, ← L.transplant z c.left)
  else
    let y ← minimum nil fuel c.right L
    let cy ← L.deref y
    let L ←
      if L.lock cy.parent = z then L.modify cy.right (·.setParent y)
      else takeRight z y cy.right L
    return (cy.color, cy.right, ← takePlace z y L)

/-- The repair at the end of `remove`. -/
def repair (nil : Ptr) (check : Check) (fuel : ℕ) (original : Color) (x : Option Ptr) (L : Links T T) :
    Option (Links T T) :=
  if original = .black then deleteFixup nil check fuel x L else some L

/-- The node that the place which loses a node in `remove` hangs below when `z` is out of the
tree. Only a check asks for it. -/
def shortParent (nil : Ptr) (fuel : ℕ) (z : Option Ptr) (L : Links T T) : Option (Option Ptr) := do
  let c ← L.deref z
  if c.left = some nil ∨ c.right = some nil then return L.lock c.parent
  else
    let y ← minimum nil fuel c.right L
    let parent := L.lock (← L.deref y).parent
    return if parent = z then y else parent

/-- `remove`, over the same as `insert`. The node taken out dies with the last pointer to it when
the call returns. -/
def removeWith (check : Check) (fuel : ℕ) (key : T) (t : RBTree T) : Option (RBTree T) := do
  match ← searchNode fuel key t with
  | none => return t
  | some z =>
    if z = t.nil then return t
    let (original, x, L) ← unlink t.nil fuel (some z) t.links
    check.run (parentOf x L = shortParent t.nil fuel (some z) t.links)
    let L ← repair t.nil check fuel original x L
    let L ← L.modify (some t.nil) (·.setParent none)
    return { t with links := L.free z }

def insert (key value : T) (t : RBTree T) : Option (RBTree T) := insertWith .off t.fuel key value t

def remove (key : T) (t : RBTree T) : Option (RBTree T) := removeWith .off t.fuel key t

def get (key : T) (t : RBTree T) : Option (Except String T) := getWith t.fuel key t

end Order

def min (t : RBTree T) : Option (Except String T) := do
  if t.links.root = some t.nil then return .error "Tree is empty"
  return .ok (← t.links.deref (← minimum t.nil t.fuel t.links.root t.links)).key

def max (t : RBTree T) : Option (Except String T) := do
  if t.links.root = some t.nil then return .error "Tree is empty"
  return .ok (← t.links.deref (← maximum t.nil t.fuel t.links.root t.links)).key

def inOrder (t : RBTree T) : Option (List (T × T × Color)) :=
  inOrderLoop t.nil t.fuel t.links.root t.links [] []

/-- `levelOrder`: the lines it prints. -/
def levelOrder (t : RBTree T) : Option (List (List (T × T × Color))) :=
  if t.links.root = some t.nil then some []
  else levelOrderLoop t.nil t.fuel [t.links.root] t.links []

def height (t : RBTree T) : Option ℕ := getHeight t.nil t.fuel t.links.root t.links

def empty (t : RBTree T) : Bool := t.links.root = some t.nil

/-- `cleanTree`: the nodes die with the root pointer, the sentinel stays. -/
def cleanTree (t : RBTree T) : Option (RBTree T) := do
  clear t.nil t.fuel t.links.root t.links
  let heap := Function.update (fun _ => none) t.nil (t.links.heap t.nil)
  return { t with links := ⟨heap, some t.nil⟩ }

section Checks
variable (nil : Ptr)

/-- The node is red and has a red child. -/
def redChild (c : Cell T T) (L : Links T T) : Option Bool := do
  if c.color = .red then
    if (← L.deref c.left).color = .red then return true
    else return (← L.deref c.right).color = .red
  else return false

def checkRedProperty : ℕ → Option Ptr → Links T T → Option Bool
  | 0, _, _ => none
  | n + 1, node, L =>
    if node = some nil then some true
    else do
      let c ← L.deref node
      if ← redChild c L then return false
      if ← checkRedProperty n c.left L then checkRedProperty n c.right L else return false

/-- `checkBlackHeight`: what it returns, and the counts it has collected. -/
def checkBlackHeight : ℕ → Option Ptr → ℤ → Links T T → List ℤ → Option (ℤ × List ℤ)
  | 0, _, _, _, _ => none
  | n + 1, node, blackCount, L, leafBlackCounts =>
    if node = some nil then some (blackCount, leafBlackCounts ++ [blackCount])
    else do
      let c ← L.deref node
      let blackCount := if c.color = .black then blackCount + 1 else blackCount
      let (_, leafBlackCounts) ← checkBlackHeight n c.left blackCount L leafBlackCounts
      let (_, leafBlackCounts) ← checkBlackHeight n c.right blackCount L leafBlackCounts
      return (blackCount, leafBlackCounts)

end Checks

def verifyRBProperties (t : RBTree T) : Option Bool := do
  if t.links.root = some t.nil then return true
  if (← t.links.deref t.links.root).color ≠ .black then return false
  if !(← checkRedProperty t.nil t.fuel t.links.root t.links) then return false
  let (_, leafBlackCounts) ← checkBlackHeight t.nil t.fuel t.links.root 0 t.links []
  let first ← leafBlackCounts[0]?
  return leafBlackCounts.tail.all (· = first)

/-- A call that changes the tree. -/
inductive Op (T : Type)
  | insert (key value : T)
  | remove (key : T)
  | modify (key value : T)
  | cleanTree

def step [LinearOrder T] (t : RBTree T) : Op T → Option (RBTree T)
  | .insert key value => insert key value t
  | .remove key => remove key t
  | .modify key value => modify key value t
  | .cleanTree => cleanTree t

/-- The state after a run of calls on a fresh tree. -/
def run [LinearOrder T] [Inhabited T] (ops : List (Op T)) : Option (RBTree T) :=
  ops.foldlM step fresh

/-- What a call does to a map: the first value written to a key stays until it is
modified. -/
def Op.apply [DecidableEq T] (m : T → Option T) : Op T → T → Option T
  | .insert key value => Function.update m key (some ((m key).getD value))
  | .remove key => Function.update m key none
  | .modify key value => Function.update m key ((m key).map fun _ => value)
  | .cleanTree => fun _ => none

/-- The map that a run of calls stands for. -/
def reference [DecidableEq T] (ops : List (Op T)) : T → Option T :=
  ops.foldl Op.apply fun _ => none

end RBTree

end LearnSpdk
