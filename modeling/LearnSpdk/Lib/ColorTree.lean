import Mathlib.Tactic

/-! Coloured binary trees and one-hole contexts. A context lists the ancestors
of a position from the nearest one up, so a tree can be looked at from any of
its nodes. `join` writes a node by naming the side of its first child, which
lets a statement and its mirror image be one statement. -/

namespace Lib

inductive Color
  | red
  | black
deriving DecidableEq, Repr

theorem Color.ne_red {c : Color} : c ≠ .red ↔ c = .black := by cases c <;> simp

theorem Color.ne_black {c : Color} : c ≠ .black ↔ c = .red := by cases c <;> simp

inductive Side
  | left
  | right
deriving DecidableEq, Repr

def Side.other : Side → Side
  | .left => .right
  | .right => .left

inductive ColorTree (α : Type*)
  | nil
  | node (c : Color) (l : ColorTree α) (a : α) (r : ColorTree α)
deriving DecidableEq, Repr

variable {α β : Type*}

namespace ColorTree

/-- The node with `t` on side `d` and `o` on the other side. -/
def join (d : Side) (c : Color) (t : ColorTree α) (a : α) (o : ColorTree α) : ColorTree α :=
  match d with
  | .left => node c t a o
  | .right => node c o a t

/-- Reads a node back as `join d`; `none` on the empty tree. -/
def split (d : Side) : ColorTree α → Option (Color × ColorTree α × α × ColorTree α)
  | nil => none
  | node c l a r => some (match d with | .left => (c, l, a, r) | .right => (c, r, a, l))

@[simp] theorem split_join (d : Side) (c : Color) (t : ColorTree α) (a : α) (o : ColorTree α) :
    (join d c t a o).split d = some (c, t, a, o) := by cases d <;> rfl

theorem eq_join_of_split {d : Side} {s : ColorTree α} {c : Color} {t : ColorTree α} {a : α}
    {o : ColorTree α} (h : s.split d = some (c, t, a, o)) : s = join d c t a o := by
  cases s with
  | nil => cases h
  | node c' l b r => cases d <;> cases h <;> rfl

theorem join_other (d : Side) (c : Color) (t : ColorTree α) (a : α) (o : ColorTree α) :
    join d.other c o a t = join d c t a o := by cases d <;> rfl

theorem node_ne_nil (c : Color) (l : ColorTree α) (a : α) (r : ColorTree α) :
    node c l a r ≠ nil := by
  simp

@[simp] theorem join_ne_nil (d : Side) (c : Color) (t : ColorTree α) (a : α) (o : ColorTree α) :
    join d c t a o ≠ nil := by cases d <;> simp [join]

theorem exists_join (d : Side) {t : ColorTree α} (h : t ≠ nil) :
    ∃ c x a y, t = join d c x a y := by
  cases t with
  | nil => exact absurd rfl h
  | node c l a r => cases d; exacts [⟨c, l, a, r, rfl⟩, ⟨c, r, a, l, rfl⟩]

/-- The empty tree counts as black. -/
def color : ColorTree α → Color
  | nil => .black
  | node c _ _ _ => c

@[simp] theorem color_nil : (nil : ColorTree α).color = .black := rfl
@[simp] theorem color_join (d : Side) (c : Color) (t : ColorTree α) (a : α) (o : ColorTree α) :
    (join d c t a o).color = c := by cases d <;> rfl

theorem exists_join_of_red (d : Side) {t : ColorTree α} (h : t.color = .red) :
    ∃ x a y, t = join d .red x a y := by
  cases t with
  | nil => cases h
  | node c l a r =>
    cases (show c = .red from h)
    cases d; exacts [⟨l, a, r, rfl⟩, ⟨r, a, l, rfl⟩]

/-- Paints the root black. -/
def blacken : ColorTree α → ColorTree α
  | nil => nil
  | node _ l a r => node .black l a r

@[simp] theorem blacken_nil : (nil : ColorTree α).blacken = nil := rfl
@[simp] theorem blacken_join (d : Side) (c : Color) (t : ColorTree α) (a : α) (o : ColorTree α) :
    (join d c t a o).blacken = join d .black t a o := by cases d <;> rfl
@[simp] theorem color_blacken (t : ColorTree α) : t.blacken.color = .black := by cases t <;> rfl

theorem blacken_of_black {t : ColorTree α} (h : t.color = .black) : t.blacken = t := by
  cases t with
  | nil => rfl
  | node c l a r => cases h; rfl

/-- The items in order. -/
def toList : ColorTree α → List α
  | nil => []
  | node _ l a r => l.toList ++ a :: r.toList

@[simp] theorem toList_nil : (nil : ColorTree α).toList = [] := rfl
@[simp] theorem toList_blacken (t : ColorTree α) : t.blacken.toList = t.toList := by cases t <;> rfl

theorem toList_join_congr (d : Side) {c c' : Color} {t t' : ColorTree α} {a : α} {o o' : ColorTree α}
    (ht : t.toList = t'.toList) (ho : o.toList = o'.toList) :
    (join d c t a o).toList = (join d c' t' a o').toList := by
  cases d <;> simp [join, toList, ht, ho]

/-- A rotation towards `d` keeps the items in order, whatever the colours become. -/
theorem toList_rotate (d : Side) (c₁ c₂ c₃ c₄ : Color) (s : ColorTree α) (a : α) (t : ColorTree α) (b : α)
    (u : ColorTree α) :
    (join d c₁ s a (join d c₂ t b u)).toList = (join d c₃ (join d c₄ s a t) b u).toList := by
  cases d <;> simp [join, toList]

/-- The item reached by always going to side `d`. -/
def outermost (d : Side) : ColorTree α → Option α
  | nil => none
  | node _ l a r =>
    (match d with
      | .left => l.outermost d
      | .right => r.outermost d).or (some a)

theorem outermost_join (d : Side) (c : Color) (t : ColorTree α) (a : α) (o : ColorTree α) :
    (join d c t a o).outermost d = (t.outermost d).or (some a) := by cases d <;> rfl

theorem outermost_left (t : ColorTree α) : t.outermost .left = t.toList.head? := by
  induction t with
  | nil => rfl
  | node c l a r ihl ihr => simp [outermost, toList, ihl, List.head?_append]

theorem outermost_right (t : ColorTree α) : t.outermost .right = t.toList.getLast? := by
  induction t with
  | nil => rfl
  | node c l a r ihl ihr => simp [outermost, toList, ihr, List.getLast?_append, List.getLast?_cons]

def map (f : α → β) : ColorTree α → ColorTree β
  | nil => nil
  | node c l a r => node c (l.map f) (f a) (r.map f)

@[simp] theorem map_nil (f : α → β) : (nil : ColorTree α).map f = nil := rfl
@[simp] theorem map_join (f : α → β) (d : Side) (c : Color) (t : ColorTree α) (a : α) (o : ColorTree α) :
    (join d c t a o).map f = join d c (t.map f) (f a) (o.map f) := by cases d <;> rfl
@[simp] theorem color_map (f : α → β) (t : ColorTree α) : (t.map f).color = t.color := by
  cases t <;> rfl
@[simp] theorem map_blacken (f : α → β) (t : ColorTree α) : t.blacken.map f = (t.map f).blacken := by
  cases t <;> rfl
theorem split_map (f : α → β) (d : Side) (t : ColorTree α) :
    (t.map f).split d = (t.split d).map fun n => (n.1, n.2.1.map f, f n.2.2.1, n.2.2.2.map f) := by
  cases t with
  | nil => rfl
  | node c l a r => cases d <;> rfl

end ColorTree

/-- One ancestor of the hole: the side the hole is on, and what the ancestor
holds besides it. -/
structure Frame (α : Type*) where
  side : Side
  color : Color
  item : α
  other : ColorTree α
deriving DecidableEq, Repr

def Frame.fill (f : Frame α) (t : ColorTree α) : ColorTree α := ColorTree.join f.side f.color t f.item f.other

def Frame.map (f : α → β) (g : Frame α) : Frame β := ⟨g.side, g.color, f g.item, g.other.map f⟩

theorem Frame.fill_ne_nil (f : Frame α) (t : ColorTree α) : f.fill t ≠ .nil := by
  simp [Frame.fill]

abbrev Trail (α : Type*) := List (Frame α)

namespace Trail

def plug : Trail α → ColorTree α → ColorTree α
  | [], t => t
  | f :: p, t => plug p (f.fill t)

@[simp] theorem plug_nil (t : ColorTree α) : plug [] t = t := rfl
theorem plug_cons (f : Frame α) (p : Trail α) (t : ColorTree α) :
    plug (f :: p) t = plug p (f.fill t) := rfl

theorem plug_append (p q : Trail α) (t : ColorTree α) : plug (p ++ q) t = plug q (plug p t) := by
  induction p generalizing t with
  | nil => rfl
  | cons f p ih => exact ih _

theorem plug_cons_ne_nil (f : Frame α) (p : Trail α) (t : ColorTree α) : plug (f :: p) t ≠ .nil := by
  induction p generalizing f t with
  | nil => exact f.fill_ne_nil t
  | cons g p ih => exact ih g (f.fill t)

/-- The items to the left of the hole. -/
def before : Trail α → List α
  | [] => []
  | ⟨.left, _, _, _⟩ :: p => before p
  | ⟨.right, _, a, o⟩ :: p => before p ++ (o.toList ++ [a])

/-- The items to the right of the hole. -/
def after : Trail α → List α
  | [] => []
  | ⟨.left, _, a, o⟩ :: p => a :: (o.toList ++ after p)
  | ⟨.right, _, _, _⟩ :: p => after p

theorem toList_plug (p : Trail α) (t : ColorTree α) :
    (plug p t).toList = before p ++ (t.toList ++ after p) := by
  induction p generalizing t with
  | nil => simp [before, after]
  | cons f p ih =>
    obtain ⟨d, c, a, o⟩ := f
    rw [plug_cons, ih]
    cases d <;> simp [Frame.fill, ColorTree.join, ColorTree.toList, before, after]

theorem toList_plug_congr (p : Trail α) {t t' : ColorTree α} (h : t.toList = t'.toList) :
    (plug p t).toList = (plug p t').toList := by
  rw [toList_plug, toList_plug, h]

def map (f : α → β) (p : Trail α) : Trail β := List.map (Frame.map f) p

@[simp] theorem map_nil (f : α → β) : map f [] = [] := rfl
@[simp] theorem map_cons (f : α → β) (g : Frame α) (p : Trail α) :
    map f (g :: p) = g.map f :: map f p := rfl

theorem map_plug (f : α → β) (p : Trail α) (t : ColorTree α) :
    (plug p t).map f = plug (map f p) (t.map f) := by
  induction p generalizing t with
  | nil => rfl
  | cons g p ih => rw [plug_cons, ih]; simp [map_cons, plug_cons, Frame.fill, Frame.map]

end Trail

end Lib
