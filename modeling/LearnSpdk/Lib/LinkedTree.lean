import LearnSpdk.Lib.ColorTree

/-! Coloured binary trees stored as linked cells with parent links. `z` is the
link that stands for a missing child: the null link, or the address of one
shared sentinel cell. Programs are heap transformers in `Option`, where `none`
is the dereference of a null or dead link. `Rep L z p t` says that the links
reachable from the root spell the tree `plug p t`, looked at from `t`; the rules
at the end say how the mutators act on it. -/

namespace Lib

open ColorTree Trail

abbrev Ptr := ℕ

variable {κ ν : Type}

structure Cell (κ ν : Type) where
  key : κ
  value : ν
  color : Color
  left : Option Ptr
  right : Option Ptr
  parent : Option Ptr
deriving DecidableEq, Repr

namespace Cell

def child (d : Side) (c : Cell κ ν) : Option Ptr :=
  match d with
  | .left => c.left
  | .right => c.right

def setChild (d : Side) (p : Option Ptr) (c : Cell κ ν) : Cell κ ν :=
  match d with
  | .left => { c with left := p }
  | .right => { c with right := p }

def setParent (p : Option Ptr) (c : Cell κ ν) : Cell κ ν := { c with parent := p }

def setColor (k : Color) (c : Cell κ ν) : Cell κ ν := { c with color := k }

def setValue (v : ν) (c : Cell κ ν) : Cell κ ν := { c with value := v }

end Cell

structure Links (κ ν : Type) where
  heap : Ptr → Option (Cell κ ν)
  root : Option Ptr

theorem length_le_of_lt {l : List Ptr} (hn : l.Nodup) {n : ℕ} (h : ∀ q ∈ l, q < n) :
    l.length ≤ n := by
  have hsub : l ⊆ List.range n := fun q hq => List.mem_range.2 (h q hq)
  simpa using (List.subperm_of_subset hn hsub).length_le

namespace Links

def deref (L : Links κ ν) (p : Option Ptr) : Option (Cell κ ν) := p.bind L.heap

def put (L : Links κ ν) (p : Ptr) (c : Cell κ ν) : Links κ ν :=
  { L with heap := Function.update L.heap p (some c) }

def modify (L : Links κ ν) (p : Option Ptr) (f : Cell κ ν → Cell κ ν) : Option (Links κ ν) := do
  let q ← p
  let c ← L.heap q
  return L.put q (f c)

/-- The cell at `p` dies. -/
def free (L : Links κ ν) (p : Ptr) : Links κ ν := { L with heap := Function.update L.heap p none }

/-- A weak link reads as null once its target is gone. -/
def lock (L : Links κ ν) (p : Option Ptr) : Option Ptr := p.filter fun q => (L.heap q).isSome

/-- Lets the link that leads to `u`, from its parent or from the root, lead to `v`. -/
def relink (u v : Option Ptr) (L : Links κ ν) : Option (Links κ ν) := do
  match L.lock (← L.deref u).parent with
  | none => return { L with root := v }
  | some q =>
    if (← L.heap q).left = u then L.modify q (·.setChild .left v)
    else L.modify q (·.setChild .right v)

/-- Points a child's parent link at `u`, unless the child is missing. -/
def adopt (z p u : Option Ptr) (L : Links κ ν) : Option (Links κ ν) :=
  if p = z then some L else L.modify p (·.setParent u)

theorem adopt_of_ne {z p : Option Ptr} (h : p ≠ z) (u : Option Ptr) (L : Links κ ν) :
    L.adopt z p u = L.modify p (·.setParent u) := if_neg h

/-- Rotates `x` towards `d`: its child `y` on the other side takes its place. -/
def rotate (z : Option Ptr) (d : Side) (x : Option Ptr) (L : Links κ ν) : Option (Links κ ν) := do
  let y := (← L.deref x).child d.other
  let inner := (← L.deref y).child d
  let L ← L.modify x (·.setChild d.other inner)
  let L ← L.adopt z inner x
  let par := (← L.deref x).parent
  let L ← L.modify y (·.setParent par)
  let L ← L.relink x y
  let L ← L.modify y (·.setChild d x)
  L.modify x (·.setParent y)

/-- Puts `v` in the place of `u`. -/
def transplant (u v : Option Ptr) (L : Links κ ν) : Option (Links κ ν) := do
  let L ← L.relink u v
  let par := (← L.deref u).parent
  if v = none then return L else L.modify v (·.setParent par)

@[simp] theorem put_heap_self (L : Links κ ν) (p : Ptr) (c : Cell κ ν) :
    (L.put p c).heap p = some c := by simp [put]

theorem put_heap_of_ne (L : Links κ ν) {p q : Ptr} (c : Cell κ ν) (h : q ≠ p) :
    (L.put p c).heap q = L.heap q := by simp [put, h]

theorem put_eq_self {L : Links κ ν} {p : Ptr} {c : Cell κ ν} (h : L.heap p = some c) :
    L.put p c = L := by
  rw [put, ← h, Function.update_eq_self]

@[simp] theorem deref_some (L : Links κ ν) (p : Ptr) : L.deref (some p) = L.heap p := rfl

theorem modify_some {L : Links κ ν} {p : Ptr} {c : Cell κ ν} (h : L.heap p = some c)
    (f : Cell κ ν → Cell κ ν) : L.modify (some p) f = some (L.put p (f c)) := by
  simp [modify, h]

@[simp] theorem lock_none (L : Links κ ν) : L.lock none = none := rfl

theorem lock_some {L : Links κ ν} {p : Ptr} {c : Cell κ ν} (h : L.heap p = some c) :
    L.lock (some p) = some p := by
  simp [lock, Option.filter, h]

end Links

/-- What an abstract node stands for: an address and what the cell there holds. -/
structure Item (κ ν : Type) where
  ptr : Ptr
  key : κ
  value : ν
deriving DecidableEq, Repr

/-- The item found, with a new value, or an item at a new address. -/
def Item.renew (q : Ptr) (k : κ) (v : ν) : Option (Item κ ν) → Item κ ν
  | none => ⟨q, k, v⟩
  | some a => { a with value := v }

@[simp] theorem Item.renew_value (q : Ptr) (k : κ) (v : ν) (o : Option (Item κ ν)) :
    (renew q k v o).value = v := by
  cases o <;> rfl

theorem Item.renew_key (q : Ptr) {k : κ} (v : ν) {o : Option (Item κ ν)}
    (h : ∀ a, o = some a → a.key = k) : (renew q k v o).key = k := by
  cases o with
  | none => rfl
  | some a => exact h a rfl

def ColorTree.addrs (t : ColorTree (Item κ ν)) : List Ptr := t.toList.map Item.ptr

def Trail.around (p : Trail (Item κ ν)) : List Ptr := (before p ++ after p).map Item.ptr

@[simp] theorem Trail.around_nil : Trail.around ([] : Trail (Item κ ν)) = [] := rfl

def ColorTree.link (z : Option Ptr) : ColorTree (Item κ ν) → Option Ptr
  | .nil => z
  | .node _ _ a _ => some a.ptr

def Trail.top : Trail (Item κ ν) → Option Ptr
  | [] => none
  | f :: _ => some f.item.ptr

/-- The cell of item `a` with link `x` on side `d` and `y` on the other side. -/
def Item.cell (d : Side) (c : Color) (x : Option Ptr) (a : Item κ ν) (y par : Option Ptr) :
    Cell κ ν :=
  match d with
  | .left => ⟨a.key, a.value, c, x, y, par⟩
  | .right => ⟨a.key, a.value, c, y, x, par⟩

section
variable (d : Side) (c k : Color) (x : Option Ptr) (a : Item κ ν) (y par l : Option Ptr)

@[simp] theorem Item.cell_key : (a.cell d c x y par).key = a.key := by cases d <;> rfl
@[simp] theorem Item.cell_value : (a.cell d c x y par).value = a.value := by cases d <;> rfl
@[simp] theorem Item.cell_color : (a.cell d c x y par).color = c := by cases d <;> rfl
@[simp] theorem Item.cell_parent : (a.cell d c x y par).parent = par := by cases d <;> rfl
@[simp] theorem Item.cell_child : (a.cell d c x y par).child d = x := by cases d <;> rfl
@[simp] theorem Item.cell_child_other : (a.cell d c x y par).child d.other = y := by
  cases d <;> rfl
@[simp] theorem Item.cell_left : (a.cell .left c x y par).left = x := rfl
@[simp] theorem Item.cell_right : (a.cell .left c x y par).right = y := rfl
@[simp] theorem Item.cell_setChild : (a.cell d c x y par).setChild d l = a.cell d c l y par := by
  cases d <;> rfl
@[simp] theorem Item.cell_setChild_other :
    (a.cell d c x y par).setChild d.other l = a.cell d c x l par := by cases d <;> rfl
@[simp] theorem Item.cell_setParent : (a.cell d c x y par).setParent l = a.cell d c x y l := by
  cases d <;> rfl
@[simp] theorem Item.cell_setValue (v : ν) :
    (a.cell d c x y par).setValue v = ({ a with value := v } : Item κ ν).cell d c x y par := by
  cases d <;> rfl
@[simp] theorem Item.cell_setColor : (a.cell d c x y par).setColor k = a.cell d k x y par := by
  cases d <;> rfl

end

/-- The cells below: the subtree `t` hanging from `par`. -/
def Below (L : Links κ ν) (z : Option Ptr) : Option Ptr → ColorTree (Item κ ν) → Prop
  | _, .nil => True
  | par, .node c l a r => L.heap a.ptr = some (a.cell .left c (l.link z) (r.link z) par) ∧
      Below L z (some a.ptr) l ∧ Below L z (some a.ptr) r

/-- The cells of a tree, whatever their parent links are. -/
def Hangs (L : Links κ ν) (z : Option Ptr) : ColorTree (Item κ ν) → Prop
  | .nil => True
  | .node c l a r => (∃ par, L.heap a.ptr = some (a.cell .left c (l.link z) (r.link z) par)) ∧
      Hangs L z l ∧ Hangs L z r

/-- The cells above a hole that `hole` is linked into. -/
def Above (L : Links κ ν) (z : Option Ptr) : Trail (Item κ ν) → Option Ptr → Prop
  | [], hole => L.root = hole
  | f :: p, hole =>
      L.heap f.item.ptr = some (f.item.cell f.side f.color hole (f.other.link z) (top p)) ∧
        Below L z (some f.item.ptr) f.other ∧ Above L z p (some f.item.ptr)

structure Rep (L : Links κ ν) (z : Option Ptr) (p : Trail (Item κ ν)) (t : ColorTree (Item κ ν)) :
    Prop where
  above : Above L z p (t.link z)
  below : Below L z (top p) t
  nodup : (t.addrs ++ p.around).Nodup
  real : ∀ q ∈ t.addrs ++ p.around, some q ≠ z

section
variable {L L' : Links κ ν} {z : Option Ptr}

@[simp] theorem link_nil (z : Option Ptr) : (.nil : ColorTree (Item κ ν)).link z = z := rfl

@[simp] theorem link_node (z : Option Ptr) (c : Color) (l : ColorTree (Item κ ν)) (a : Item κ ν)
    (r : ColorTree (Item κ ν)) : (ColorTree.node c l a r).link z = some a.ptr := rfl

@[simp] theorem addrs_nil : (.nil : ColorTree (Item κ ν)).addrs = [] := rfl

@[simp] theorem link_join (z : Option Ptr) (d : Side) (c : Color) (t : ColorTree (Item κ ν))
    (a : Item κ ν) (o : ColorTree (Item κ ν)) : (join d c t a o).link z = some a.ptr := by
  cases d <;> rfl

theorem below_join {par : Option Ptr} {d : Side} {c : Color} {t : ColorTree (Item κ ν)}
    {a : Item κ ν} {o : ColorTree (Item κ ν)} :
    Below L z par (join d c t a o) ↔
      L.heap a.ptr = some (a.cell d c (t.link z) (o.link z) par) ∧
        Below L z (some a.ptr) t ∧ Below L z (some a.ptr) o := by
  cases d
  · rfl
  · simp only [join, Below, Item.cell]
    tauto

theorem Below.hangs {par : Option Ptr} {t : ColorTree (Item κ ν)} (h : Below L z par t) : Hangs L z t := by
  induction t generalizing par with
  | nil => trivial
  | node c l a r ihl ihr => exact ⟨⟨par, h.1⟩, ihl h.2.1, ihr h.2.2⟩

theorem addrs_join_perm (d : Side) (c : Color) (t : ColorTree (Item κ ν)) (a : Item κ ν)
    (o : ColorTree (Item κ ν)) : (join d c t a o).addrs.Perm (a.ptr :: (t.addrs ++ o.addrs)) := by
  cases d
  · simp [join, addrs, toList]
  · refine List.Perm.trans ?_ ((List.perm_append_comm).cons _)
    simp [join, addrs, toList]

theorem addrs_node_perm (c : Color) (l : ColorTree (Item κ ν)) (a : Item κ ν) (r : ColorTree (Item κ ν)) :
    (ColorTree.node c l a r).addrs.Perm (a.ptr :: (l.addrs ++ r.addrs)) := addrs_join_perm .left c l a r

theorem around_cons_perm (f : Frame (Item κ ν)) (p : Trail (Item κ ν)) :
    (around (f :: p)).Perm (f.item.ptr :: (f.other.addrs ++ around p)) := by
  obtain ⟨d, c, a, o⟩ := f
  cases d
  · simp only [around, before, after, addrs, List.map_append, List.map_cons]
    refine List.perm_middle.trans (List.Perm.cons _ ?_)
    rw [← List.append_assoc, ← List.append_assoc]
    exact List.perm_append_comm.append_right _
  · simp only [around, before, after, addrs, List.map_append, List.map_cons, List.map_nil]
    simp only [List.append_assoc, List.singleton_append]
    rw [← List.append_assoc]
    refine List.perm_middle.trans (List.Perm.cons _ ?_)
    rw [← List.append_assoc]
    exact List.perm_append_comm.append_right _

/-- Opening a tree one level deeper names the same cells. -/
theorem addrs_fill_perm (f : Frame (Item κ ν)) (p : Trail (Item κ ν)) (t : ColorTree (Item κ ν)) :
    (t.addrs ++ around (f :: p)).Perm ((f.fill t).addrs ++ around p) := by
  refine ((around_cons_perm f p).append_left _).trans ?_
  refine List.Perm.trans ?_ ((addrs_join_perm f.side f.color t f.item f.other).append_right _).symm
  refine List.perm_middle.trans ?_
  simp

theorem addrs_append_perm (q p : Trail (Item κ ν)) (t : ColorTree (Item κ ν)) :
    (t.addrs ++ around (q ++ p)).Perm ((plug q t).addrs ++ around p) := by
  induction q generalizing t with
  | nil => rfl
  | cons f q ih => exact (addrs_fill_perm f (q ++ p) t).trans (ih _)

theorem mem_addrs_of_around {p : Trail (Item κ ν)} {q : Ptr} (h : q ∈ around p) (t : ColorTree (Item κ ν)) :
    q ∈ (plug p t).addrs := by
  have hperm := addrs_append_perm p [] t
  rw [List.append_nil] at hperm
  simpa [around, Trail.before, Trail.after] using hperm.mem_iff.1 (List.mem_append_right _ h)

/-- The item at the root of the subtree in the hole occurs nowhere else. -/
theorem Rep.root_fresh {p : Trail (Item κ ν)} {d : Side} {c : Color} {x : ColorTree (Item κ ν)}
    {a : Item κ ν} {y : ColorTree (Item κ ν)} (h : Rep L z p (join d c x a y)) :
    a.ptr ∉ x.addrs ++ (y.addrs ++ around p) := by
  have hperm := (addrs_join_perm d c x a y).append_right (around p)
  have hn := hperm.nodup_iff.1 h.nodup
  rw [List.cons_append, List.append_assoc] at hn
  exact (List.nodup_cons.1 hn).1

theorem Below.congr {par : Option Ptr} {t : ColorTree (Item κ ν)} (h : Below L z par t)
    (ha : ∀ q ∈ t.addrs, L'.heap q = L.heap q) : Below L' z par t := by
  induction t generalizing par with
  | nil => trivial
  | node c l a r ihl ihr =>
    simp only [addrs, toList, List.map_append, List.map_cons, List.mem_append, List.mem_cons] at ha
    refine ⟨?_, ihl h.2.1 fun q hq => ha q (.inl hq), ihr h.2.2 fun q hq => ha q (.inr (.inr hq))⟩
    rw [ha a.ptr (.inr (.inl rfl))]
    exact h.1

theorem Above.congr {p : Trail (Item κ ν)} {hole : Option Ptr} (h : Above L z p hole)
    (ha : ∀ q ∈ around p, L'.heap q = L.heap q) (hr : L'.root = L.root) : Above L' z p hole := by
  induction p generalizing hole with
  | nil => exact hr.trans h
  | cons f p ih =>
    simp only [(around_cons_perm f p).mem_iff, List.mem_cons, List.mem_append] at ha
    refine ⟨?_, h.2.1.congr fun q hq => ha q (.inr (.inl hq)),
      ih h.2.2 fun q hq => ha q (.inr (.inr hq))⟩
    rw [ha _ (.inl rfl)]
    exact h.1

/-- A cell outside the tree may be rewritten. -/
theorem Below.put_of_notMem {par : Option Ptr} {t : ColorTree (Item κ ν)} {q : Ptr} (h : Below L z par t)
    (hq : q ∉ t.addrs) (c : Cell κ ν) : Below (L.put q c) z par t :=
  h.congr fun _ hr => Links.put_heap_of_ne _ _ fun e => hq (e ▸ hr)

theorem Above.put_of_notMem {p : Trail (Item κ ν)} {hole : Option Ptr} {q : Ptr} (h : Above L z p hole)
    (hq : q ∉ around p) (c : Cell κ ν) : Above (L.put q c) z p hole :=
  h.congr (fun _ hr => Links.put_heap_of_ne _ _ fun e => hq (e ▸ hr)) rfl

theorem mem_around_of_top {p : Trail (Item κ ν)} {q : Ptr} (h : top p = some q) : q ∈ around p := by
  cases p with
  | nil => cases h
  | cons f p =>
    cases h
    exact (around_cons_perm f p).mem_iff.2 List.mem_cons_self

theorem mem_addrs_of_link {t : ColorTree (Item κ ν)} {q : Ptr} (h : t.link z = some q)
    (hz : z ≠ some q) : q ∈ t.addrs := by
  cases t with
  | nil => exact absurd h hz
  | node c l a r => cases h; simp [addrs, toList]

theorem mem_addrs_plug (f : Frame (Item κ ν)) (p : Trail (Item κ ν)) (t : ColorTree (Item κ ν)) :
    f.item.ptr ∈ (plug (f :: p) t).addrs := by
  have hperm := addrs_append_perm (f :: p) [] t
  have hempty : around ([] : Trail (Item κ ν)) = [] := rfl
  rw [List.append_nil, hempty, List.append_nil] at hperm
  exact hperm.mem_iff.1 (List.mem_append_right _ (mem_around_of_top rfl))

/-- Moving the focus up or down one level. -/
theorem rep_cons {f : Frame (Item κ ν)} {p : Trail (Item κ ν)} {t : ColorTree (Item κ ν)} :
    Rep L z (f :: p) t ↔ Rep L z p (f.fill t) := by
  have hperm := addrs_fill_perm f p t
  refine ⟨?_, ?_⟩
  · rintro ⟨⟨hc, ho, ha⟩, hb, hn, hz⟩
    refine ⟨?_, below_join.2 ⟨hc, hb, ho⟩, hperm.nodup_iff.1 hn, fun q hq => hz q (hperm.mem_iff.2 hq)⟩
    rw [Frame.fill, link_join]
    exact ha
  · rintro ⟨ha, hb, hn, hz⟩
    obtain ⟨hc, hb, ho⟩ := below_join.1 hb
    rw [Frame.fill, link_join] at ha
    exact ⟨⟨hc, ho, ha⟩, hb, hperm.nodup_iff.2 hn, fun q hq => hz q (hperm.mem_iff.1 hq)⟩

/-- A node, with the two steps down from it. -/
theorem Rep.node {p : Trail (Item κ ν)} {c : Color} {l r : ColorTree (Item κ ν)} {a : Item κ ν}
    (h : Rep L z p (.node c l a r)) :
    some a.ptr ≠ z ∧ Rep L z (⟨.left, c, a, r⟩ :: p) l ∧ Rep L z (⟨.right, c, a, l⟩ :: p) r :=
  ⟨h.real a.ptr (by simp [addrs, toList]), rep_cons.2 h, rep_cons.2 h⟩

theorem Rep.link_ne {p : Trail (Item κ ν)} {t : ColorTree (Item κ ν)} (h : Rep L z p t) (ht : t ≠ .nil) :
    t.link z ≠ z := by
  cases t with
  | nil => exact absurd rfl ht
  | node c l a r => exact h.node.1

theorem rep_append {p q : Trail (Item κ ν)} {t : ColorTree (Item κ ν)} :
    Rep L z (q ++ p) t ↔ Rep L z p (plug q t) := by
  induction q generalizing t with
  | nil => rfl
  | cons f q ih => rw [List.cons_append, rep_cons, ih]; rfl

theorem rep_plug {p : Trail (Item κ ν)} {t : ColorTree (Item κ ν)} :
    Rep L z p t ↔ Rep L z [] (plug p t) := by
  rw [← rep_append, List.append_nil]

/-! ### Rules of the mutators -/

/-- The parent's link into the hole is overwritten. -/
theorem Above.hang {f : Frame (Item κ ν)} {p : Trail (Item κ ν)} {hole : Option Ptr}
    (v : Option Ptr) (h : Above L z (f :: p) hole) (hn : (around (f :: p)).Nodup) :
    ∃ L', L.modify (some f.item.ptr) (·.setChild f.side v) = some L' ∧ Above L' z (f :: p) v ∧
      L'.root = L.root ∧ ∀ q, q ≠ f.item.ptr → L'.heap q = L.heap q := by
  obtain ⟨hc, ho, ha⟩ := h
  rw [(around_cons_perm f p).nodup_iff, List.nodup_cons, List.mem_append, not_or] at hn
  refine ⟨_, Links.modify_some hc _, ⟨?_, ?_, ?_⟩, rfl, ?_⟩
  · rw [Links.put_heap_self, Item.cell_setChild]
  · exact ho.put_of_notMem hn.1.1 _
  · exact ha.put_of_notMem hn.1.2 _
  · exact fun q hq => Links.put_heap_of_ne _ _ hq

/-- The link into the hole is redirected; only the parent's cell changes. -/
theorem Above.relink {p : Trail (Item κ ν)} {u : Ptr} {cu : Cell κ ν} (v : Option Ptr)
    (h : Above L z p (some u)) (hu : L.heap u = some cu) (hpar : cu.parent = top p)
    (hn : (around p).Nodup) (huz : z ≠ some u) (hup : u ∉ around p) :
    ∃ L', L.relink (some u) v = some L' ∧ Above L' z p v ∧
      ∀ q, top p ≠ some q → L'.heap q = L.heap q := by
  cases p with
  | nil =>
    refine ⟨{ L with root := v }, ?_, rfl, fun q _ => rfl⟩
    rw [top] at hpar
    simp [Links.relink, hu, hpar]
  | cons f p =>
    obtain ⟨L', hmod, habove, -, hf⟩ := h.hang v hn
    refine ⟨L', ?_, habove, fun q hq => hf q fun e => hq (by rw [e]; rfl)⟩
    obtain ⟨hc, ho, ha⟩ := h
    rw [(around_cons_perm f p).mem_iff, List.mem_cons, List.mem_append, not_or, not_or] at hup
    have hother : f.other.link z ≠ some u := fun h => hup.2.1 (mem_addrs_of_link h huz)
    rw [Links.relink, Links.deref_some, hu]
    rw [top] at hpar
    simp only [Option.bind_eq_bind, Option.bind_some, hpar, Links.lock_some hc, hc]
    obtain ⟨d, c, a, o⟩ := f
    cases d
    · rw [if_pos (by rfl)]; exact hmod
    · rw [if_neg (by exact hother)]; exact hmod

/-- Only the root of `t` changes, and only its parent link. -/
theorem Below.adopt {par : Option Ptr} {t : ColorTree (Item κ ν)} (u : Option Ptr)
    (h : Below L z par t) (hn : t.addrs.Nodup) (hz : ∀ q ∈ t.addrs, some q ≠ z) :
    ∃ L', L.adopt z (t.link z) u = some L' ∧ Below L' z u t ∧ L'.root = L.root ∧
      ∀ q ∉ t.addrs, L'.heap q = L.heap q := by
  cases t with
  | nil => exact ⟨L, by simp [Links.adopt], trivial, rfl, fun q _ => rfl⟩
  | node c l a r =>
    have hperm := addrs_node_perm c l a r
    simp only [hperm.mem_iff, List.mem_cons, List.mem_append] at hz ⊢
    rw [hperm.nodup_iff, List.nodup_cons, List.mem_append, not_or] at hn
    refine ⟨L.put a.ptr (a.cell .left c (l.link z) (r.link z) u), ?_, ⟨?_, ?_, ?_⟩, rfl, ?_⟩
    · rw [Links.adopt, ColorTree.link, if_neg (hz _ (.inl rfl)), Links.modify_some h.1,
        Item.cell_setParent]
    · exact Links.put_heap_self ..
    · exact h.2.1.put_of_notMem hn.1.1 _
    · exact h.2.2.put_of_notMem hn.1.2 _
    · intro q hq
      exact Links.put_heap_of_ne _ _ fun e => hq (.inl e)

/-- Rewriting the cell of the root of the focus, links kept. -/
theorem Rep.put {p : Trail (Item κ ν)} {d : Side} {c c' : Color} {t : ColorTree (Item κ ν)}
    {a a' : Item κ ν} {o : ColorTree (Item κ ν)} (h : Rep L z p (join d c t a o))
    (ha : a'.ptr = a.ptr) :
    Rep (L.put a.ptr (a'.cell d c' (t.link z) (o.link z) (top p))) z p (join d c' t a' o) := by
  have hperm := addrs_join_perm d c t a o
  have hperm' := addrs_join_perm d c' t a' o
  rw [ha] at hperm'
  have heq := hperm'.trans hperm.symm
  have hn := (hperm.append_right p.around).nodup_iff.1 h.nodup
  simp only [List.cons_append, List.nodup_cons, List.mem_append, not_or] at hn
  obtain ⟨hc, ht, ho⟩ := below_join.1 h.below
  refine ⟨?_, below_join.2 ⟨?_, ?_, ?_⟩, (heq.append_right _).nodup_iff.2 h.nodup,
    fun q hq => h.real q ((heq.append_right _).mem_iff.1 hq)⟩
  · rw [link_join, ha, ← link_join z d c t a o]
    exact h.above.put_of_notMem hn.1.2 _
  · rw [ha]
    exact Links.put_heap_self ..
  · rw [ha]
    exact ht.put_of_notMem hn.1.1.1 _
  · rw [ha]
    exact ho.put_of_notMem hn.1.1.2 _

theorem Rep.cell {p : Trail (Item κ ν)} {d : Side} {c : Color} {t : ColorTree (Item κ ν)}
    {a : Item κ ν} {o : ColorTree (Item κ ν)} (h : Rep L z p (join d c t a o)) :
    L.heap a.ptr = some (a.cell d c (t.link z) (o.link z) (top p)) := (below_join.1 h.below).1

theorem Rep.parent_cell {f : Frame (Item κ ν)} {p : Trail (Item κ ν)} {t : ColorTree (Item κ ν)}
    (h : Rep L z (f :: p) t) : L.heap f.item.ptr =
      some (f.item.cell f.side f.color (t.link z) (f.other.link z) (top p)) := h.above.1

theorem Rep.root {p : Trail (Item κ ν)} {t : ColorTree (Item κ ν)} (h : Rep L z p t) :
    L.root = (plug p t).link z := (rep_plug.1 h).above

theorem link_plug_cons (z : Option Ptr) (f : Frame (Item κ ν)) (p : Trail (Item κ ν))
    (t : ColorTree (Item κ ν)) : ∃ q ∈ around (f :: p), (plug (f :: p) t).link z = some q := by
  induction p generalizing f t with
  | nil =>
    refine ⟨f.item.ptr, (around_cons_perm f []).mem_iff.2 List.mem_cons_self, ?_⟩
    rw [plug_cons, plug_nil, Frame.fill, link_join]
  | cons g p ih =>
    obtain ⟨q, hq, h⟩ := ih g (f.fill t)
    exact ⟨q, (around_cons_perm f _).mem_iff.2 (by simp [hq]), h⟩

/-- A node below another one is not the root. -/
theorem Rep.ne_root {f : Frame (Item κ ν)} {p : Trail (Item κ ν)} {t : ColorTree (Item κ ν)}
    (h : Rep L z (f :: p) t) : t.link z ≠ L.root := by
  obtain ⟨q, hq, hl⟩ := link_plug_cons z f p t
  rw [h.root, hl]
  intro e
  have hz := h.real q (List.mem_append_right _ hq)
  exact List.disjoint_of_nodup_append h.nodup (mem_addrs_of_link e fun e => hz e.symm) hq

/-- A child on the other side than the hole is not the node in the hole. -/
theorem Rep.other_ne {f : Frame (Item κ ν)} {p : Trail (Item κ ν)} {t : ColorTree (Item κ ν)}
    (h : Rep L z (f :: p) t) (ht : t ≠ .nil) : f.other.link z ≠ t.link z := by
  obtain ⟨c, x, a, y, rfl⟩ := exists_join .left ht
  rw [link_join]
  intro e
  have ha : a.ptr ∈ (join .left c x a y).addrs :=
    (addrs_join_perm .left c x a y).mem_iff.2 List.mem_cons_self
  have hz := h.real a.ptr (List.mem_append_left _ ha)
  refine List.disjoint_of_nodup_append h.nodup ha ((around_cons_perm f p).mem_iff.2 ?_)
  simp [mem_addrs_of_link e fun e => hz e.symm]

theorem Rep.setColor {p : Trail (Item κ ν)} {d : Side} {c : Color} {t : ColorTree (Item κ ν)}
    {a : Item κ ν} {o : ColorTree (Item κ ν)} (k : Color) (h : Rep L z p (join d c t a o)) :
    ∃ L', L.modify (some a.ptr) (·.setColor k) = some L' ∧ Rep L' z p (join d k t a o) ∧
      ∀ q, q ≠ a.ptr → L'.heap q = L.heap q := by
  refine ⟨_, Links.modify_some h.cell _, ?_, fun q hq => Links.put_heap_of_ne _ _ hq⟩
  rw [Item.cell_setColor]
  exact h.put rfl

theorem Rep.setValue {p : Trail (Item κ ν)} {d : Side} {c : Color} {t : ColorTree (Item κ ν)}
    {a : Item κ ν} {o : ColorTree (Item κ ν)} (v : ν) (h : Rep L z p (join d c t a o)) :
    ∃ L', L.modify (some a.ptr) (·.setValue v) = some L' ∧
      Rep L' z p (join d c t { a with value := v } o) ∧ ∀ q, q ≠ a.ptr → L'.heap q = L.heap q := by
  refine ⟨_, Links.modify_some h.cell _, ?_, fun q hq => Links.put_heap_of_ne _ _ hq⟩
  rw [Item.cell_setValue]
  exact h.put rfl

/-- Opening a node at its other child. -/
theorem rep_other {p : Trail (Item κ ν)} {d : Side} {c : Color} {t : ColorTree (Item κ ν)}
    {a : Item κ ν} {o : ColorTree (Item κ ν)} :
    Rep L z p (join d c t a o) ↔ Rep L z (⟨d.other, c, a, t⟩ :: p) o := by
  rw [rep_cons, Frame.fill, join_other]

/-- A frame further down is of another node. -/
theorem Rep.frame_ne {g f : Frame (Item κ ν)} {q p : Trail (Item κ ν)} {t : ColorTree (Item κ ν)}
    (h : Rep L z (g :: q ++ f :: p) t) : some g.item.ptr ≠ some f.item.ptr := by
  intro e
  have hup : Rep L z p (f.fill (plug (g :: q) t)) := rep_cons.1 (rep_append.1 h)
  have hg := mem_addrs_plug g q t
  rw [Option.some_inj.1 e] at hg
  exact hup.root_fresh (List.mem_append_left _ hg)

/-- The sibling of a position, as the position in its place. -/
theorem Rep.sibling {f : Frame (Item κ ν)} {p : Trail (Item κ ν)} {k : Color}
    {x near far : ColorTree (Item κ ν)} {w : Item κ ν} (h : Rep L z (f :: p) x)
    (hs : f.other = join f.side k near w far) :
    Rep L z (⟨f.side.other, f.color, f.item, x⟩ :: p) (join f.side k near w far) := by
  have h₀ := rep_cons.1 h
  rw [Frame.fill, hs] at h₀
  exact rep_other.1 h₀

/-- `L'` differs from `L` at most on the cells of `plug p t`. -/
def Within (L L' : Links κ ν) (p : Trail (Item κ ν)) (t : ColorTree (Item κ ν)) : Prop :=
  ∀ q ∉ t.addrs ++ p.around, L'.heap q = L.heap q

theorem addrs_join_join_perm (d e : Side) (c k : Color) (s t u : ColorTree (Item κ ν))
    (a b : Item κ ν) (l : List Ptr) : ((join d c s a (join e k t b u)).addrs ++ l).Perm
      (a.ptr :: b.ptr :: (s.addrs ++ (t.addrs ++ (u.addrs ++ l)))) := by
  refine ((addrs_join_perm d c s a _).append_right l).trans ?_
  rw [List.cons_append, List.append_assoc]
  refine List.Perm.cons _ ((((addrs_join_perm e k t b u).append_right l).append_left _).trans ?_)
  rw [List.cons_append, List.append_assoc]
  exact List.perm_middle

theorem addrs_join_join_perm_left (d e : Side) (c k : Color) (s t u : ColorTree (Item κ ν))
    (a b : Item κ ν) (l : List Ptr) : ((join d k (join e c s a t) b u).addrs ++ l).Perm
      (a.ptr :: b.ptr :: (s.addrs ++ (t.addrs ++ (u.addrs ++ l)))) := by
  refine ((addrs_join_perm d k _ b u).append_right l).trans ?_
  rw [List.cons_append, List.append_assoc]
  refine List.Perm.trans (List.Perm.cons _ ?_) (List.Perm.swap _ _ _)
  simpa using (addrs_join_perm e c s a t).append_right (u.addrs ++ l)

/-- The rotation of the linked tree is the rotation of the tree. -/
theorem Rep.rotate {p : Trail (Item κ ν)} {d : Side} {c k : Color} {s t u : ColorTree (Item κ ν)}
    {a b : Item κ ν} (h : Rep L z p (join d c s a (join d k t b u))) :
    ∃ L', L.rotate z d (some a.ptr) = some L' ∧ Rep L' z p (join d k (join d c s a t) b u) ∧
      Within L L' p (join d c s a (join d k t b u)) := by
  have hperm := addrs_join_join_perm d d c k s t u a b (around p)
  have hperm' := addrs_join_join_perm_left d d c k s t u a b (around p)
  have hn := hperm.nodup_iff.1 h.nodup
  have hz : ∀ q ∈ a.ptr :: b.ptr :: (s.addrs ++ (t.addrs ++ (u.addrs ++ around p))), some q ≠ z :=
    fun q hq => h.real q (hperm.mem_iff.2 hq)
  simp only [List.nodup_cons, List.mem_cons, List.mem_append, not_or] at hn hz
  obtain ⟨⟨hab, has, hat, hau, hap⟩, ⟨hbs, hbt, hbu, hbp⟩, hn⟩ := hn
  rw [List.nodup_append', List.nodup_append', List.nodup_append', List.disjoint_append_right,
    List.disjoint_append_right, List.disjoint_append_right] at hn
  obtain ⟨-, ⟨htn, ⟨-, hpn, hup⟩, htu, htp⟩, hst, hsu, hsp⟩ := hn
  have hab' : b.ptr ≠ a.ptr := fun e => hab e.symm
  have htop {q : Ptr} (hq : q ∉ around p) : top p ≠ some q := fun e => hq (mem_around_of_top e)
  obtain ⟨hca, hs, hb⟩ := below_join.1 h.below
  obtain ⟨hcb, ht, hu⟩ := below_join.1 hb
  rw [link_join] at hca
  have habove := h.above
  rw [link_join] at habove
  -- the inner subtree goes over to `a`
  set L1 := L.put a.ptr (a.cell d c (s.link z) (t.link z) (top p)) with hL1
  have hf1 {q : Ptr} (hq : q ≠ a.ptr) : L1.heap q = L.heap q := Links.put_heap_of_ne _ _ hq
  have ht1 : Below L1 z (some b.ptr) t := ht.put_of_notMem hat _
  obtain ⟨L2, e2, ht2, hr2, hf2⟩ := ht1.adopt (some a.ptr) htn fun q hq => hz q (by tauto)
  have hca2 : L2.heap a.ptr = some (a.cell d c (s.link z) (t.link z) (top p)) := by
    rw [hf2 _ hat]; exact Links.put_heap_self ..
  have hcb2 : L2.heap b.ptr = some (b.cell d k (t.link z) (u.link z) (some a.ptr)) := by
    rw [hf2 _ hbt, hf1 hab']; exact hcb
  -- `b` takes the place of `a`
  set L3 := L2.put b.ptr (b.cell d k (t.link z) (u.link z) (top p)) with hL3
  have hf3 {q : Ptr} (hq : q ≠ b.ptr) : L3.heap q = L2.heap q := Links.put_heap_of_ne _ _ hq
  have habove3 : Above L3 z p (some a.ptr) := by
    refine habove.congr (fun q hq => ?_) hr2
    rw [hf3 fun e => hbp (e ▸ hq), hf2 _ fun e => htp e hq, hf1 fun e => hap (e ▸ hq)]
  have hca3 : L3.heap a.ptr = some (a.cell d c (s.link z) (t.link z) (top p)) := by
    rw [hf3 hab]; exact hca2
  obtain ⟨L4, e4, habove4, hf4⟩ := habove3.relink (some b.ptr) hca3 (Item.cell_parent ..) hpn
    (fun e => hz a.ptr (.inl rfl) e.symm) hap
  have hcb4 : L4.heap b.ptr = some (b.cell d k (t.link z) (u.link z) (top p)) := by
    rw [hf4 _ (htop hbp)]; exact Links.put_heap_self ..
  have hca4 : L4.heap a.ptr = some (a.cell d c (s.link z) (t.link z) (top p)) := by
    rw [hf4 _ (htop hap)]; exact hca3
  -- and `a` hangs below it
  set L5 := L4.put b.ptr (b.cell d k (some a.ptr) (u.link z) (top p)) with hL5
  have hca5 : L5.heap a.ptr = some (a.cell d c (s.link z) (t.link z) (top p)) := by
    rw [hL5, Links.put_heap_of_ne _ _ hab]; exact hca4
  set L6 := L5.put a.ptr (a.cell d c (s.link z) (t.link z) (some b.ptr)) with hL6
  have hf6 {q : Ptr} (hqa : q ≠ a.ptr) (hqb : q ≠ b.ptr) : L6.heap q = L4.heap q := by
    rw [hL6, Links.put_heap_of_ne _ _ hqa, hL5, Links.put_heap_of_ne _ _ hqb]
  have hsame {q : Ptr} (hqa : q ≠ a.ptr) (hqb : q ≠ b.ptr) (hqt : q ∉ t.addrs)
      (hqp : q ∉ around p) : L6.heap q = L.heap q := by
    rw [hf6 hqa hqb, hf4 _ (htop hqp), hf3 hqb, hf2 _ hqt, hf1 hqa]
  refine ⟨L6, ?_, ⟨?_, ?_, ?_, ?_⟩, ?_⟩
  · simp only [Links.rotate, Links.deref_some, hca, hcb, Option.bind_eq_bind, Option.bind_some,
      Item.cell_child_other, Item.cell_child, Links.modify_some hca, Item.cell_setChild_other,
      ← hL1, e2, hca2, Item.cell_parent, Links.modify_some hcb2, Item.cell_setParent, ← hL3, e4,
      Links.modify_some hcb4, Item.cell_setChild, ← hL5, Links.modify_some hca5, ← hL6]
  · rw [link_join]
    refine habove4.congr (fun q hq => ?_) rfl
    exact hf6 (fun e => hap (e ▸ hq)) (fun e => hbp (e ▸ hq))
  · refine below_join.2 ⟨?_, below_join.2 ⟨?_, ?_, ?_⟩, ?_⟩
    · rw [link_join, hL6, Links.put_heap_of_ne _ _ hab', hL5]
      exact Links.put_heap_self ..
    · exact Links.put_heap_self ..
    · refine hs.congr fun q hq => hsame ?_ ?_ ?_ ?_
      · exact fun e => has (e ▸ hq)
      · exact fun e => hbs (e ▸ hq)
      · exact fun e => hst hq e
      · exact fun e => hsp hq e
    · refine ht2.congr fun q hq => ?_
      rw [hf6 (fun e => hat (e ▸ hq)) (fun e => hbt (e ▸ hq)), hf4 _ (htop fun e => htp hq e),
        hf3 fun e => hbt (e ▸ hq)]
    · refine hu.congr fun q hq => hsame ?_ ?_ ?_ ?_
      · exact fun e => hau (e ▸ hq)
      · exact fun e => hbu (e ▸ hq)
      · exact fun e => htu e hq
      · exact fun e => hup hq e
  · exact hperm'.nodup_iff.2 (hperm.nodup_iff.1 h.nodup)
  · exact fun q hq => h.real q (hperm.mem_iff.2 (hperm'.mem_iff.1 hq))
  · intro q hq
    simp only [hperm.mem_iff, List.mem_cons, List.mem_append, not_or] at hq
    exact hsame hq.1 hq.2.1 hq.2.2.2.1 hq.2.2.2.2.2

/-- The cell that stands for a missing child after its parent link was written:
it changes only when the child `x` is missing. -/
def ColorTree.mark (par : Option Ptr) (x : ColorTree (Item κ ν)) (c : Cell κ ν) : Cell κ ν :=
  match x with
  | .nil => c.setParent par
  | .node .. => c

/-- Writing the parent link of a subtree, or of the sentinel in its place. -/
theorem Below.setParent {par : Option Ptr} {x : ColorTree (Item κ ν)} (u : Option Ptr)
    (h : Below L z par x) (hn : x.addrs.Nodup) (hz : ∀ q ∈ x.addrs, some q ≠ z)
    (hlive : ∀ n, z = some n → (L.heap n).isSome) :
    ∃ L', (if x.link z = none then some L else L.modify (x.link z) (·.setParent u)) = some L' ∧
      Below L' z u x ∧ L'.root = L.root ∧ L'.deref z = (L.deref z).map (x.mark u) ∧
      ∀ q ∉ x.addrs, some q ≠ z → L'.heap q = L.heap q := by
  cases x with
  | nil =>
    cases z with
    | none => exact ⟨L, by simp, trivial, rfl, rfl, fun q _ _ => rfl⟩
    | some n =>
      obtain ⟨c, hc⟩ := Option.isSome_iff_exists.1 (hlive n rfl)
      refine ⟨L.put n (c.setParent u), ?_, trivial, rfl, ?_, ?_⟩
      · rw [link_nil, if_neg (by simp), Links.modify_some hc]
      · rw [Links.deref_some, Links.deref_some, Links.put_heap_self, hc]; rfl
      · exact fun q _ hq => Links.put_heap_of_ne _ _ fun e => hq (by rw [e])
  | node c l a r =>
    obtain ⟨L', e, hb, hr, hf⟩ := h.adopt u hn hz
    have ha : a.ptr ∈ (ColorTree.node c l a r).addrs := by simp [addrs, toList]
    rw [Links.adopt, link_node, if_neg (hz _ ha)] at e
    refine ⟨L', by rw [if_neg (by simp)]; exact e, hb, hr, ?_, fun q hq _ => hf q hq⟩
    cases z with
    | none => rfl
    | some n =>
      rw [Links.deref_some, Links.deref_some, hf n fun hn => hz n hn rfl]
      cases L.heap n <;> rfl

/-- A node with a missing child is replaced by its other child. The cell of the
node that leaves the tree is not touched. -/
theorem Rep.transplant {p : Trail (Item κ ν)} {d : Side} {c : Color} {a : Item κ ν}
    {x : ColorTree (Item κ ν)} (h : Rep L z p (join d c .nil a x))
    (hlive : ∀ n, z = some n → (L.heap n).isSome) :
    ∃ L', L.transplant (some a.ptr) (x.link z) = some L' ∧ Rep L' z p x ∧
      L'.heap a.ptr = L.heap a.ptr ∧ L'.deref z = (L.deref z).map (x.mark (top p)) ∧
      ∀ q ∉ (join d c .nil a x).addrs ++ around p, some q ≠ z → L'.heap q = L.heap q := by
  have hperm := (addrs_join_perm d c .nil a x).append_right (around p)
  have hn := hperm.nodup_iff.1 h.nodup
  have hz : ∀ q ∈ a.ptr :: (x.addrs ++ around p), some q ≠ z := fun q hq => h.real q (hperm.mem_iff.2 hq)
  simp only [addrs_nil, List.nil_append, List.cons_append, List.nodup_cons, List.mem_cons,
    List.mem_append, not_or] at hn hz
  rw [List.nodup_append'] at hn
  obtain ⟨⟨hax, hap⟩, hxn, hpn, hxp⟩ := hn
  obtain ⟨hca, -, hx⟩ := below_join.1 h.below
  have habove := h.above
  rw [link_join] at habove
  have htop {q : Ptr} (hq : q ∉ around p) : top p ≠ some q := fun e => hq (mem_around_of_top e)
  obtain ⟨L1, e1, habove1, hf1⟩ := habove.relink (x.link z) hca (Item.cell_parent ..) hpn
    (fun e => hz a.ptr (.inl rfl) e.symm) hap
  have hx1 : Below L1 z (some a.ptr) x := hx.congr fun q hq => hf1 q (htop fun e => hxp hq e)
  have hz1 : L1.deref z = L.deref z := by
    cases z with
    | none => rfl
    | some n => exact hf1 n (htop fun hn => hz n (.inr (.inr hn)) rfl)
  obtain ⟨L2, e2, hx2, hr2, hd2, hf2⟩ := hx1.setParent (top p) hxn (fun q hq => hz q (.inr (.inl hq)))
    (by rintro n rfl; rw [← Links.deref_some, hz1]; exact hlive n rfl)
  have hca1 : L1.heap a.ptr = L.heap a.ptr := hf1 _ (htop hap)
  refine ⟨L2, ?_, ⟨?_, hx2, ?_, ?_⟩, ?_, ?_, ?_⟩
  · simp only [Links.transplant, e1, Option.bind_eq_bind, Option.bind_some, Links.deref_some, hca1,
      hca, Item.cell_parent]
    exact e2
  · exact habove1.congr (fun q hq => hf2 q (fun e => hxp e hq) (hz q (.inr (.inr hq)))) hr2
  · exact List.nodup_append'.2 ⟨hxn, hpn, hxp⟩
  · exact fun q hq => hz q (.inr (List.mem_append.1 hq))
  · rw [hf2 _ hax (hz _ (.inl rfl)), hca1]
  · rw [hd2, hz1]
  · intro q hq hqz
    rw [hperm.mem_iff] at hq
    simp only [addrs_nil, List.nil_append, List.cons_append, List.mem_cons, List.mem_append,
      not_or] at hq
    rw [hf2 q hq.2.1 hqz, hf1 q (htop hq.2.2)]

/-- A cell outside the tree may die. -/
theorem Rep.free {p : Trail (Item κ ν)} {t : ColorTree (Item κ ν)} (h : Rep L z p t) {q : Ptr}
    (hq : q ∉ t.addrs ++ around p) : Rep (L.free q) z p t := by
  rw [List.mem_append, not_or] at hq
  refine ⟨h.above.congr (fun r hr => ?_) rfl, h.below.congr fun r hr => ?_, h.nodup, h.real⟩
  · have hne : r ≠ q := fun e => hq.2 (e ▸ hr)
    exact Function.update_of_ne hne _ _
  · have hne : r ≠ q := fun e => hq.1 (e ▸ hr)
    exact Function.update_of_ne hne _ _

/-- A new red leaf is hung into the hole. -/
theorem Rep.attach {f : Frame (Item κ ν)} {p : Trail (Item κ ν)} (h : Rep L z (f :: p) .nil)
    {a : Item κ ν} (hfresh : a.ptr ∉ around (f :: p)) (haz : some a.ptr ≠ z) :
    ∃ L', (L.put a.ptr (a.cell .left .red z z (some f.item.ptr))).modify (some f.item.ptr)
        (·.setChild f.side (some a.ptr)) = some L' ∧
      Rep L' z (f :: p) (.node .red .nil a .nil) ∧
      ∀ q ∉ around (f :: p), q ≠ a.ptr → L'.heap q = L.heap q := by
  have hfp : f.item.ptr ∈ around (f :: p) := (around_cons_perm f p).mem_iff.2 List.mem_cons_self
  have hn : (around (f :: p)).Nodup := by simpa [addrs] using h.nodup
  have habove : Above (L.put a.ptr (a.cell .left .red z z (some f.item.ptr))) z (f :: p) z :=
    h.above.put_of_notMem hfresh _
  obtain ⟨L', e, habove', -, hf⟩ := habove.hang (some a.ptr) hn
  refine ⟨L', e, ⟨habove', ⟨?_, trivial, trivial⟩, ?_, ?_⟩, ?_⟩
  · rw [hf _ fun e => hfresh (by rw [e]; exact hfp), Links.put_heap_self]; rfl
  · simpa [addrs, toList] using ⟨hfresh, hn⟩
  · intro q hq
    rcases (by simpa [addrs, toList] using hq : q = a.ptr ∨ q ∈ around (f :: p)) with rfl | hq
    · exact haz
    · exact h.real q (List.mem_append_right _ hq)
  · intro q hq hqa
    rw [hf q fun e => hq (e ▸ hfp), Links.put_heap_of_ne _ _ hqa]

/-- Item `b` has left the tree and holds the right subtree `r`; it is about to
take the place of `a`, whose right link no longer matters. -/
structure Spliced (L : Links κ ν) (z : Option Ptr) (p : Trail (Item κ ν)) (c : Color)
    (l : ColorTree (Item κ ν)) (a b : Item κ ν) (r : ColorTree (Item κ ν)) : Prop where
  above : Above L z p (some a.ptr)
  old : ∃ y, L.heap a.ptr = some (a.cell .left c (l.link z) y (top p))
  left : Below L z (some a.ptr) l
  new : ∃ k x y, L.heap b.ptr = some (b.cell .left k x (r.link z) y)
  right : Below L z (some b.ptr) r
  nodup : (a.ptr :: b.ptr :: (l.addrs ++ (r.addrs ++ around p))).Nodup
  real : ∀ q ∈ a.ptr :: b.ptr :: (l.addrs ++ (r.addrs ++ around p)), some q ≠ z

/-- The right child of `a` is spliced out when it has no left child. -/
theorem Rep.spliced {p : Trail (Item κ ν)} {c k : Color} {l r : ColorTree (Item κ ν)}
    {a b : Item κ ν} (h : Rep L z p (.node c l a (.node k .nil b r))) :
    Spliced L z p c l a b r := by
  have hperm := addrs_join_join_perm .left .left c k l .nil r a b (around p)
  rw [addrs_nil, List.nil_append] at hperm
  exact ⟨h.above, ⟨_, h.below.1⟩, h.below.2.1, ⟨_, _, _, h.below.2.2.1⟩, h.below.2.2.2.2,
    hperm.nodup_iff.1 h.nodup, fun q hq => h.real q (hperm.mem_iff.2 hq)⟩

/-- A free cell `b` takes over the right subtree of `a`. -/
theorem Rep.take_right {p : Trail (Item κ ν)} {c k : Color} {l r : ColorTree (Item κ ν)}
    {a b : Item κ ν} {x y w : Option Ptr} (h : Rep L z p (.node c l a r)) (hr : r ≠ .nil)
    (hb : L.heap b.ptr = some (b.cell .left k x y w))
    (hfree : b.ptr ∉ (ColorTree.node c l a r).addrs ++ around p) (hbz : some b.ptr ≠ z) :
    ∃ L1 L2, L.modify (some b.ptr) (·.setChild .right (r.link z)) = some L1 ∧
      L1.heap b.ptr = some (b.cell .left k x (r.link z) w) ∧
      L1.modify (r.link z) (·.setParent (some b.ptr)) = some L2 ∧ Spliced L2 z p c l a b r ∧
      ∀ q ∉ (ColorTree.node c l a r).addrs ++ around p, q ≠ b.ptr → L2.heap q = L.heap q := by
  have hperm := (addrs_node_perm c l a r).append_right (around p)
  rw [List.cons_append, List.append_assoc] at hperm
  have hn := hperm.nodup_iff.1 h.nodup
  rw [hperm.mem_iff] at hfree
  have hz : ∀ q ∈ a.ptr :: (l.addrs ++ (r.addrs ++ around p)), some q ≠ z :=
    fun q hq => h.real q (hperm.mem_iff.2 hq)
  have hcons := List.nodup_cons.2 ⟨hfree, hn⟩
  simp only [List.nodup_cons, List.mem_cons, List.mem_append, not_or] at hn hfree hz
  rw [List.nodup_append', List.nodup_append', List.disjoint_append_right] at hn
  obtain ⟨⟨hal, har, hap⟩, -, ⟨hrn, -, hrp⟩, hlr, hlp⟩ := hn
  obtain ⟨hba, hbl, hbr, hbp⟩ := hfree
  obtain ⟨hca, hl, hbr'⟩ := h.below
  set L1 := L.put b.ptr (b.cell .left k x (r.link z) w) with hL1
  have hf1 {q : Ptr} (hq : q ≠ b.ptr) : L1.heap q = L.heap q := Links.put_heap_of_ne _ _ hq
  have hr1 : Below L1 z (some a.ptr) r := hbr'.put_of_notMem hbr _
  obtain ⟨L2, e2, hr2, hroot2, hf2⟩ := hr1.adopt (some b.ptr) hrn fun q hq => hz q (by tauto)
  have hne : r.link z ≠ z := by
    obtain ⟨k', x', i, y', rfl⟩ := exists_join .left hr
    rw [link_join]
    exact hz i.ptr (.inr (.inr (.inl ((addrs_join_perm ..).mem_iff.2 List.mem_cons_self))))
  rw [Links.adopt, if_neg hne] at e2
  have hcb2 : L2.heap b.ptr = some (b.cell .left k x (r.link z) w) := by
    rw [hf2 _ hbr]; exact Links.put_heap_self ..
  have hswap := List.Perm.swap a.ptr b.ptr (l.addrs ++ (r.addrs ++ around p))
  refine ⟨L1, L2, Links.modify_some hb _, Links.put_heap_self .., e2, ⟨?_, ⟨r.link z, ?_⟩, ?_,
    ⟨k, x, w, hcb2⟩, hr2, hswap.nodup_iff.1 hcons, ?_⟩, ?_⟩
  · refine h.above.congr (fun q hq => ?_) hroot2
    rw [hf2 _ fun e => hrp e hq, hf1 fun e => hbp (e ▸ hq)]
  · rw [hf2 _ har, hf1 fun e => hba e.symm]; exact hca
  · refine hl.congr fun q hq => ?_
    rw [hf2 _ fun e => hlr hq e, hf1 fun e => hbl (e ▸ hq)]
  · intro q hq
    rcases List.mem_cons.1 (hswap.mem_iff.2 hq) with rfl | hq
    · exact hbz
    · exact hz q (by simpa using hq)
  · intro q hq hqb
    simp only [hperm.mem_iff, List.mem_cons, List.mem_append, not_or] at hq
    rw [hf2 _ hq.2.2.1, hf1 hqb]

/-- `b` takes the place, the left subtree and the colour of `a`. -/
theorem Spliced.finish {p : Trail (Item κ ν)} {c : Color} {l r : ColorTree (Item κ ν)}
    {a b : Item κ ν} (h : Spliced L z p c l a b r) (hl : l ≠ .nil) :
    ∃ L1 L2 L3 L4 y k, L.transplant (some a.ptr) (some b.ptr) = some L1 ∧
      L1.heap a.ptr = some (a.cell .left c (l.link z) y (top p)) ∧
      L1.modify (some b.ptr) (·.setChild .left (l.link z)) = some L2 ∧
      L2.heap b.ptr = some (b.cell .left k (l.link z) (r.link z) (top p)) ∧
      L2.modify (l.link z) (·.setParent (some b.ptr)) = some L3 ∧
      L3.heap a.ptr = some (a.cell .left c (l.link z) y (top p)) ∧
      L3.modify (some b.ptr) (·.setColor c) = some L4 ∧ Rep L4 z p (.node c l b r) ∧
      ∀ q ∉ a.ptr :: b.ptr :: (l.addrs ++ (r.addrs ++ around p)), L4.heap q = L.heap q := by
  obtain ⟨y, hca⟩ := h.old
  obtain ⟨k, x, w, hcb⟩ := h.new
  have hn := h.nodup
  have hz := h.real
  simp only [List.nodup_cons, List.mem_cons, List.mem_append, not_or] at hn hz ⊢
  obtain ⟨⟨hab, hal, har, hap⟩, ⟨hbl, hbr, hbp⟩, hn'⟩ := hn
  have hn := hn'
  rw [List.nodup_append', List.nodup_append', List.disjoint_append_right] at hn
  obtain ⟨hln, ⟨-, hpn, hrp⟩, hlr, hlp⟩ := hn
  have htop {q : Ptr} (hq : q ∉ around p) : top p ≠ some q := fun e => hq (mem_around_of_top e)
  obtain ⟨L0, e0, habove0, hf0⟩ := h.above.relink (some b.ptr) hca (Item.cell_parent ..) hpn
    (fun e => hz a.ptr (.inl rfl) e.symm) hap
  have hca0 : L0.heap a.ptr = some (a.cell .left c (l.link z) y (top p)) := by
    rw [hf0 _ (htop hap)]; exact hca
  have hcb0 : L0.heap b.ptr = some (b.cell .left k x (r.link z) w) := by
    rw [hf0 _ (htop hbp)]; exact hcb
  set L1 := L0.put b.ptr (b.cell .left k x (r.link z) (top p)) with hL1
  have hf1 {q : Ptr} (hq : q ≠ b.ptr) : L1.heap q = L0.heap q := Links.put_heap_of_ne _ _ hq
  have hcb1 : L1.heap b.ptr = some (b.cell .left k x (r.link z) (top p)) := Links.put_heap_self ..
  set L2 := L1.put b.ptr (b.cell .left k (l.link z) (r.link z) (top p)) with hL2
  have hf2 {q : Ptr} (hq : q ≠ b.ptr) : L2.heap q = L0.heap q := by
    rw [hL2, Links.put_heap_of_ne _ _ hq, hf1 hq]
  have hl2 : Below L2 z (some a.ptr) l := h.left.congr fun q hq => by
    rw [hf2 fun e => hbl (e ▸ hq), hf0 q (htop fun e => hlp hq e)]
  obtain ⟨L3, e3, hl3, hroot3, hf3⟩ := hl2.adopt (some b.ptr) hln fun q hq => hz q (by tauto)
  have hne : l.link z ≠ z := by
    obtain ⟨k', x', i, y', rfl⟩ := exists_join .left hl
    rw [link_join]
    exact hz i.ptr (.inr (.inr (.inl ((addrs_join_perm ..).mem_iff.2 List.mem_cons_self))))
  rw [Links.adopt, if_neg hne] at e3
  have hcb2 : L2.heap b.ptr = some (b.cell .left k (l.link z) (r.link z) (top p)) :=
    Links.put_heap_self ..
  have hcb3 : L3.heap b.ptr = some (b.cell .left k (l.link z) (r.link z) (top p)) := by
    rw [hf3 _ hbl, hcb2]
  set L4 := L3.put b.ptr (b.cell .left c (l.link z) (r.link z) (top p)) with hL4
  have hf4 {q : Ptr} (hqb : q ≠ b.ptr) (hql : q ∉ l.addrs) : L4.heap q = L0.heap q := by
    rw [hL4, Links.put_heap_of_ne _ _ hqb, hf3 _ hql, hf2 hqb]
  have hperm := (addrs_node_perm c l b r).append_right (around p)
  rw [List.cons_append, List.append_assoc] at hperm
  refine ⟨L1, L2, L3, L4, y, k, ?_, ?_, ?_, hcb2, e3, ?_, ?_, ⟨?_, ⟨?_, ?_, ?_⟩, ?_, ?_⟩, ?_⟩
  · simp only [Links.transplant, e0, Option.bind_eq_bind, Option.bind_some, Links.deref_some, hca0,
      Item.cell_parent, reduceCtorEq, if_false, Links.modify_some hcb0, Item.cell_setParent, ← hL1]
  · rw [hf1 hab, hca0]
  · rw [Links.modify_some hcb1, Item.cell_setChild]
  · rw [hf3 _ hal, hf2 hab, hca0]
  · rw [Links.modify_some hcb3, Item.cell_setColor]
  · exact habove0.congr (fun q hq => hf4 (fun e => hbp (e ▸ hq)) (fun e => hlp e hq)) hroot3
  · exact Links.put_heap_self ..
  · exact hl3.put_of_notMem hbl _
  · refine h.right.congr fun q hq => ?_
    rw [hf4 (fun e => hbr (e ▸ hq)) (fun e => hlr e hq), hf0 q (htop fun e => hrp hq e)]
  · exact hperm.nodup_iff.2 (List.nodup_cons.2 ⟨by simp [hbl, hbr, hbp], hn'⟩)
  · exact fun q hq => hz q (.inr (by simpa using hperm.mem_iff.1 hq))
  · intro q hq
    rw [hf4 hq.2.1 hq.2.2.1, hf0 q (htop hq.2.2.2.2)]

end

end Lib
