import LearnSpdk.Lib.SearchTree
import LearnSpdk.Spec.RBTree

/-! The repair loops of `RBTree` on a linked red-black tree end, do to the tree
what the abstract repairs do, and leave the shared sentinel as it was. No check
fails. -/

namespace LearnSpdk.RBTree

open Lib ColorTree Trail

theorem Check.run_of (check : Check) {p : Prop} [Decidable p] (hp : p) : check.run p = some () := by
  rw [decide_eq_true hp, check.run_true]

@[simp] theorem Check.off_run (b : Bool) : Check.off.run b = some () := rfl

variable {T : Type} [Inhabited T] {L : Links T T} {nil : Ptr} {par : Option Ptr} (check : Check)

/-- The links spell the tree over the sentinel at `nil`, which is black, has no
children and has parent link `par`. -/
structure Held (nil : Ptr) (par : Option Ptr) (L : Links T T) (p : Trail (Item T T))
    (t : ColorTree (Item T T)) : Prop where
  rep : Rep L (some nil) p t
  sentinel : L.heap nil = some (nilCell par)

theorem held_cons {f : Frame (Item T T)} {p : Trail (Item T T)} {t : ColorTree (Item T T)} :
    Held nil par L (f :: p) t ↔ Held nil par L p (f.fill t) :=
  ⟨fun h => ⟨rep_cons.1 h.rep, h.sentinel⟩, fun h => ⟨rep_cons.2 h.rep, h.sentinel⟩⟩

theorem held_plug {p : Trail (Item T T)} {t : ColorTree (Item T T)} :
    Held nil par L p t ↔ Held nil par L [] (plug p t) :=
  ⟨fun h => ⟨rep_plug.1 h.rep, h.sentinel⟩, fun h => ⟨rep_plug.2 h.rep, h.sentinel⟩⟩

theorem held_other {p : Trail (Item T T)} {d : Side} {c : Color} {t : ColorTree (Item T T)}
    {a : Item T T} {o : ColorTree (Item T T)} :
    Held nil par L p (join d c t a o) ↔ Held nil par L (⟨d.other, c, a, t⟩ :: p) o := by
  rw [held_cons, Frame.fill, join_other]

theorem held_join {p : Trail (Item T T)} {d : Side} {c : Color} {t : ColorTree (Item T T)}
    {a : Item T T} {o : ColorTree (Item T T)} :
    Held nil par L p (join d c t a o) ↔ Held nil par L (⟨d, c, a, o⟩ :: p) t := by
  rw [held_cons, Frame.fill]

theorem Held.sibling {f : Frame (Item T T)} {p : Trail (Item T T)} {k : Color}
    {x near far : ColorTree (Item T T)} {w : Item T T} (h : Held nil par L (f :: p) x)
    (hs : f.other = join f.side k near w far) :
    Held nil par L (⟨f.side.other, f.color, f.item, x⟩ :: p) (join f.side k near w far) :=
  ⟨h.rep.sibling hs, h.sentinel⟩

theorem Held.nil_notMem {p : Trail (Item T T)} {t : ColorTree (Item T T)}
    (h : Held nil par L p t) : nil ∉ t.addrs ++ around p := fun hm => h.rep.real nil hm rfl

theorem Held.setColor {p : Trail (Item T T)} {d : Side} {c : Color} {t : ColorTree (Item T T)}
    {a : Item T T} {o : ColorTree (Item T T)} (k : Color) (h : Held nil par L p (join d c t a o)) :
    ∃ L', L.modify (some a.ptr) (·.setColor k) = some L' ∧ Held nil par L' p (join d k t a o) := by
  obtain ⟨L', e, h', hf⟩ := h.rep.setColor k
  have hne : nil ≠ a.ptr := by
    intro e
    refine h.nil_notMem (List.mem_append_left _ ((addrs_join_perm ..).mem_iff.2 ?_))
    rw [e]
    exact List.mem_cons_self
  exact ⟨L', e, h', by rw [hf nil hne, h.sentinel]⟩

theorem Held.isNode {p : Trail (Item T T)} {t : ColorTree (Item T T)} (h : Held nil par L p t)
    (ht : t ≠ .nil) : IsNode nil (t.link (some nil)) := by
  refine ⟨?_, h.rep.link_ne ht⟩
  obtain ⟨c, x, a, y, rfl⟩ := exists_join .left ht
  simp

theorem Held.rotate {p : Trail (Item T T)} {d : Side} {c k : Color} {s t u : ColorTree (Item T T)}
    {a b : Item T T} (h : Held nil par L p (join d c s a (join d k t b u))) :
    ∃ L', RBTree.rotate nil check d (some a.ptr) L = some L' ∧
      Held nil par L' p (join d k (join d c s a t) b u) := by
  obtain ⟨L', e, h', hf⟩ := h.rep.rotate
  have hchild := (held_other.1 h).isNode (join_ne_nil _ _ _ _ _)
  refine ⟨L', ?_, h', by rw [hf nil h.nil_notMem, h.sentinel]⟩
  simp only [RBTree.rotate, Links.deref_some, h.rep.cell, Item.cell_child_other, Option.bind_eq_bind,
    Option.bind_some, check.run_of hchild, e]

/-- A link to a subtree leads to a cell of the subtree's colour, also when the
subtree is empty. -/
theorem Held.deref {p : Trail (Item T T)} {t : ColorTree (Item T T)} (h : Held nil par L p t) :
    ∃ c, L.deref (t.link (some nil)) = some c ∧ c.color = t.color ∧
      ((t = .nil → par = top p) → c.parent = top p) := by
  cases t with
  | nil => exact ⟨_, h.sentinel, rfl, fun hp => hp rfl⟩
  | node c l a r => exact ⟨_, h.rep.below.1, Item.cell_color .., fun _ => Item.cell_parent ..⟩

theorem Held.lock_top {p : Trail (Item T T)} {t : ColorTree (Item T T)} (h : Held nil par L p t) :
    L.lock (top p) = top p := by
  cases p with
  | nil => rfl
  | cons f p => exact Links.lock_some h.rep.parent_cell

theorem Held.parentOf {p : Trail (Item T T)} {t : ColorTree (Item T T)} (h : Held nil par L p t)
    (ht : t = .nil → par = top p) : parentOf (t.link (some nil)) L = some (top p) := by
  obtain ⟨c, hc, -, hp⟩ := h.deref
  simp [RBTree.parentOf, hc, hp ht, h.lock_top]

theorem Held.parentOf_join {p : Trail (Item T T)} {d : Side} {c : Color} {t o : ColorTree (Item T T)}
    {a : Item T T} (h : Held nil par L p (join d c t a o)) :
    RBTree.parentOf (some a.ptr) L = some (top p) := by
  rw [← link_join (some nil) d c t a o]
  exact h.parentOf fun e => absurd e (join_ne_nil _ _ _ _ _)

theorem Held.seated {f : Frame (Item T T)} {p : Trail (Item T T)} {t : ColorTree (Item T T)}
    (h : Held nil par L (f :: p) t) (ht : t = .nil → par = some f.item.ptr) :
    Seated f.side (t.link (some nil)) (some f.item.ptr) L := by
  refine ⟨h.parentOf ht, ?_⟩
  rw [Links.deref_some, h.rep.parent_cell, Option.map_some, Item.cell_child]

theorem isRed_link {p : Trail (Item T T)} {t : ColorTree (Item T T)} (h : Held nil par L p t) :
    isRed nil (t.link (some nil)) L = some (decide (t.color = .red)) := by
  cases t with
  | nil => simp [isRed]
  | node c l a r =>
    have hne : some a.ptr ≠ some nil := h.rep.node.1
    cases c <;> simp [isRed, hne, h.rep.below.1, color]

/-- The side of a node below its parent, as the code tells it. -/
theorem side_of_left {f : Frame (Item T T)} {p : Trail (Item T T)} {t : ColorTree (Item T T)}
    (h : Held nil par L (f :: p) t) (ht : t = .nil → f.other ≠ .nil) :
    (if t.link (some nil) = (f.item.cell f.side f.color (t.link (some nil)) (f.other.link (some nil))
      (top p)).left then Side.left else Side.right) = f.side := by
  have hne : f.other.link (some nil) ≠ t.link (some nil) := by
    by_cases hx : t = .nil
    · rw [hx, link_nil]
      exact (rep_other.1 (rep_cons.1 h.rep)).link_ne (ht hx)
    · exact h.rep.other_ne hx
  obtain ⟨d, c, a, o⟩ := f
  cases d
  · simp [Item.cell]
  · exact if_neg fun e => hne (Eq.symm e)

/-! ### `insertFixup` -/

theorem insertFixupLoop_black {f : Frame (Item T T)} {p : Trail (Item T T)} {t : ColorTree (Item T T)}
    (h : Held nil par L (f :: p) t) (ht : t ≠ .nil) (hf : f.color = .black) (n : ℕ) :
    insertFixupLoop nil check (n + 1) (t.link (some nil)) L = some L := by
  rw [insertFixupLoop]
  simp [h.parentOf fun e => absurd e ht, top, h.rep.parent_cell, hf]

/-- Recolouring the parent black and the grandparent red and rotating the
grandparent away from the node. -/
theorem lift_outer {g : Frame (Item T T)} {p : Trail (Item T T)} {c : Color}
    {t o : ColorTree (Item T T)} {a : Item T T} (h : Held nil par L (g :: p) (join g.side c t a o))
    (ht : t ≠ .nil) :
    ∃ L₁ L₂ L₃, L.modify (some a.ptr) (·.setColor .black) = some L₁ ∧
      RBTree.parentOf (t.link (some nil)) L₁ = some (some a.ptr) ∧
      RBTree.parentOf (some a.ptr) L₁ = some (some g.item.ptr) ∧
      L₁.modify (some g.item.ptr) (·.setColor .red) = some L₂ ∧
      RBTree.parentOf (t.link (some nil)) L₂ = some (some a.ptr) ∧
      RBTree.parentOf (some a.ptr) L₂ = some (some g.item.ptr) ∧
      rotate nil check g.side.other (some g.item.ptr) L₂ = some L₃ ∧
      Held nil par L₃ p (join g.side .black t a (join g.side .red o g.item g.other)) := by
  obtain ⟨L₁, e₁, h₁⟩ := h.setColor .black
  obtain ⟨L₂, e₂, h₂⟩ := (held_cons.1 h₁).setColor .red
  have h₂' : Held nil par L₂ (⟨g.side, .red, g.item, g.other⟩ :: p) (join g.side .black t a o) :=
    held_cons.2 h₂
  have hnode {L : Links T T} {k : Color} {f : Frame (Item T T)}
      (h : Held nil par L (f :: p) (join g.side k t a o)) :
      RBTree.parentOf (t.link (some nil)) L = some (some a.ptr) :=
    (held_join.1 h).parentOf fun e => absurd e ht
  rw [← join_other g.side .red, ← join_other g.side .black] at h₂
  obtain ⟨L₃, e₃, h₃⟩ := h₂.rotate check
  rw [join_other, join_other] at h₃
  exact ⟨L₁, L₂, L₃, e₁, hnode h₁, h₁.parentOf_join, e₂, hnode h₂', h₂'.parentOf_join, e₃, h₃⟩

/-- A black uncle: one or two rotations bring the node below a black parent. -/
theorem blackUncle_spec {f g : Frame (Item T T)} {p : Trail (Item T T)} {t : ColorTree (Item T T)}
    (h : Held nil par L (f :: g :: p) t) (ht : t ≠ .nil) (hf : f.color = .red)
    (hu : ¬g.other.color = .red) :
    ∃ s k L', blackUncle nil check g.side (t.link (some nil)) L = some (s.link (some nil), L') ∧
      s ≠ .nil ∧ k.color = .black ∧ Held nil par L' (k :: p) s ∧
      plug (k :: p) s = raise (f :: g :: p) t := by
  have hpar := h.parentOf fun e => absurd e ht
  rw [top] at hpar
  unfold raise
  rw [if_pos hf, if_neg hu]
  by_cases hs : f.side = g.side
  · have hup := held_cons.1 h
    rw [Frame.fill, hs] at hup
    obtain ⟨L₁, L₂, L₃, e₁, hz₁, hp₁, e₂, hz₂, hp₂, e₃, h₃⟩ := lift_outer check hup ht
    refine ⟨t, ⟨g.side, .black, f.item, join g.side .red f.other g.item g.other⟩, L₃, ?_, ht, rfl,
      held_cons.2 h₃, by rw [if_pos hs]; rfl⟩
    have hne : t.link (some nil) ≠ f.other.link (some nil) := (h.rep.other_ne ht).symm
    have hcell := h.rep.parent_cell
    rw [hs] at hcell
    simp only [blackUncle, hpar, Option.bind_eq_bind, Option.bind_some, Links.deref_some, hcell,
      Item.cell_child_other, if_neg hne, e₁, hz₁, hp₁, e₂, hz₂, hp₂, e₃, Option.pure_def]
  · have hside : f.side = g.side.other := by
      revert hs
      cases f.side <;> cases g.side <;> simp [Side.other]
    obtain ⟨c, x, a, y, rfl⟩ := exists_join g.side ht
    have hup := held_cons.1 h
    rw [Frame.fill, hside, join_other] at hup
    obtain ⟨L₀, e₀, h₀⟩ := hup.rotate check
    obtain ⟨L₁, L₂, L₃, e₁, hz₁, hp₁, e₂, hz₂, hp₂, e₃, h₃⟩ := lift_outer check h₀ (join_ne_nil _ _ _ _ _)
    have hz₀ := (held_join.1 h₀).parentOf_join
    refine ⟨join g.side .red f.other f.item x,
      ⟨g.side, .black, a, join g.side .red y g.item g.other⟩, L₃, ?_, join_ne_nil _ _ _ _ _, rfl, ?_, ?_⟩
    · have hcell := h.rep.parent_cell
      rw [hside] at hcell
      rw [link_join] at hz₁ hz₂ hcell hpar
      simp only [blackUncle, link_join, hpar, Option.bind_eq_bind, Option.bind_some, Links.deref_some,
        hcell, Item.cell_child, if_true, e₀, Option.pure_def, hz₀, top, e₁, hz₁, hp₁, e₂, hz₂, hp₂, e₃]
    · rw [hf] at h₃
      exact held_cons.2 h₃
    · rw [if_neg hs, split_join]; rfl

/-- One turn of the loop below a red parent, with everything it reads first filled in. -/
theorem insertFixupLoop_red {f g : Frame (Item T T)} {p : Trail (Item T T)} {t : ColorTree (Item T T)}
    (h : Held nil par L (f :: g :: p) t) (ht : t ≠ .nil) (hf : f.color = .red) (n : ℕ) :
    insertFixupLoop nil check (n + 1) (t.link (some nil)) L =
      (if g.other.color = .red then do
        let L ← L.modify (some f.item.ptr) (·.setColor .black)
        let L ← L.modify (g.other.link (some nil)) (·.setColor .black)
        let L ← L.modify (some g.item.ptr) (·.setColor .red)
        if some g.item.ptr = L.root then return L else insertFixupLoop nil check n (some g.item.ptr) L
      else do
        let (z, L) ← blackUncle nil check g.side (t.link (some nil)) L
        if z = L.root then return L else insertFixupLoop nil check n z L) := by
  have hup := held_cons.1 h
  have hpar := h.parentOf fun e => absurd e ht
  have hgrand := hup.parentOf_join
  have hside := side_of_left hup fun e => absurd e (f.fill_ne_nil t)
  have hcell := hup.rep.parent_cell
  have huncle := isRed_link (held_other.1 (held_cons.1 hup))
  rw [top] at hpar hgrand
  rw [Frame.fill, link_join] at hside hcell
  rw [insertFixupLoop]
  simp only [hpar, hgrand, Option.bind_eq_bind, Option.bind_some, reduceCtorEq, if_false,
    Links.deref_some, h.rep.parent_cell, Item.cell_color, hf, hcell, hside, Item.cell_child_other,
    huncle, decide_eq_true_eq]

theorem insertFixupLoop_spec {p : Trail (Item T T)} {t : ColorTree (Item T T)} {m n : ℕ}
    (h : Held nil par L p t) (ht : t ≠ .nil) (hp : Fits p m .black) (hn : p.length < n) :
    ∃ L', insertFixupLoop nil check n (t.link (some nil)) L = some L' ∧ Held nil par L' [] (raise p t) := by
  induction n generalizing L p t m with
  | zero => omega
  | succ n ih =>
    rcases p with _ | ⟨f, p⟩
    · refine ⟨L, ?_, h⟩
      simp [insertFixupLoop, h.parentOf fun e => absurd e ht, top]
    by_cases hf : f.color = .black
    · refine ⟨L, insertFixupLoop_black check h ht hf n, ?_⟩
      rw [raise_of_black hf]
      exact held_plug.1 h
    have hf := Color.ne_black.1 hf
    obtain ⟨g, p, rfl, -⟩ := hp.exists_grandparent hf
    simp only [List.length_cons] at hn
    rw [insertFixupLoop_red check h ht hf]
    by_cases hu : g.other.color = .red
    · obtain ⟨-, -, -, hgp⟩ := hp.below_red hf
      obtain ⟨x, b, y, hu'⟩ := exists_join_of_red .left hu
      obtain ⟨L₁, e₁, h₁⟩ := (held_cons.1 h).setColor .black
      have h₁' := held_cons.1 h₁
      rw [Frame.fill, hu', held_other] at h₁'
      obtain ⟨L₂, e₂, h₂⟩ := h₁'.setColor .black
      obtain ⟨L₃, e₃, h₃⟩ := (held_other.2 h₂).setColor .red
      have hraise : raise (f :: g :: p) t = raise p (join g.side .red
          (join f.side .black t f.item f.other) g.item (join .left .black x b y)) := by
        rw [raise, if_pos hf, if_pos hu, hu', blacken_join]
      rw [hraise, if_pos hu, hu', link_join]
      simp only [e₁, e₂, e₃, Option.bind_eq_bind, Option.bind_some]
      split_ifs with hroot
      · cases p with
        | nil => exact ⟨L₃, rfl, h₃⟩
        | cons k p =>
          have hne := h₃.rep.ne_root
          rw [link_join] at hne
          exact absurd hroot hne
      · obtain ⟨L', e, h'⟩ := ih h₃ (join_ne_nil _ _ _ _ _) hgp (by omega)
        rw [link_join] at e
        exact ⟨L', e, h'⟩
    · obtain ⟨s, k, L', e, hs, hk, h', hplug⟩ := blackUncle_spec check h ht hf hu
      have hstop := insertFixupLoop_black check h' hs hk (n - 1)
      rw [Nat.sub_add_cancel (by omega)] at hstop
      refine ⟨L', ?_, by rw [← hplug]; exact held_plug.1 h'⟩
      rw [if_neg hu]
      simp only [e, Option.bind_eq_bind, Option.bind_some, if_neg h'.rep.ne_root, hstop]

theorem insertFixup_spec {p : Trail (Item T T)} {t : ColorTree (Item T T)} {m n : ℕ}
    (h : Held nil par L p t) (ht : t ≠ .nil) (hp : Fits p m .black) (hn : p.length < n) :
    ∃ L', insertFixup nil check n (t.link (some nil)) L = some L' ∧
      Held nil par L' [] (Lib.fixInsert p t) := by
  obtain ⟨L₁, e₁, h₁⟩ := insertFixupLoop_spec check h ht hp hn
  unfold Lib.fixInsert
  obtain ⟨c, x, a, y, hr⟩ := exists_join .left (raise_ne_nil p ht)
  rw [hr] at h₁ ⊢
  have hroot : L₁.root = some a.ptr := by rw [h₁.rep.root, plug_nil, link_join]
  obtain ⟨L₂, e₂, h₂⟩ := h₁.setColor .black
  rw [blacken_join]
  refine ⟨L₂, ?_, h₂⟩
  simp only [insertFixup, e₁, Option.bind_eq_bind, Option.bind_some, hroot, e₂]

/-! ### `deleteFixup` -/

section Delete
variable {f : Frame (Item T T)} {p : Trail (Item T T)} {x near far : ColorTree (Item T T)}
  {w : Item T T} {k : Color}

theorem redSibling_red (h : Held nil par L (f :: p) x) (hx : x = .nil → par = some f.item.ptr)
    (hs : f.other = join f.side .red near w far) (hn : near ≠ .nil) :
    ∃ L', redSibling nil check (some f.item.ptr) f.side (x.link (some nil)) (some w.ptr) L =
        some (near.link (some nil), L') ∧
      Held nil par L' (⟨f.side, .red, f.item, near⟩ :: ⟨f.side, .black, w, far⟩ :: p) x := by
  have h₀ := h.sibling hs
  obtain ⟨L₁, e₁, h₁⟩ := h₀.setColor .black
  obtain ⟨L₂, e₂, h₂⟩ := (held_other.2 h₁).setColor .red
  obtain ⟨L₃, e₃, h₃⟩ := h₂.rotate check
  have hx₁ := (held_join.1 (held_other.2 h₁)).parentOf hx
  have hx₂ := (held_join.1 h₂).parentOf hx
  have h' : Held nil par L₃ (⟨f.side, .red, f.item, near⟩ :: ⟨f.side, .black, w, far⟩ :: p) x :=
    held_cons.2 (held_cons.2 h₃)
  have hx₃ := h'.parentOf hx
  have hnode := (held_other.1 (held_cons.1 h')).isNode hn
  rw [top] at hx₁ hx₂ hx₃
  refine ⟨L₃, ?_, h'⟩
  simp only [redSibling, Links.deref_some, h₀.rep.cell, Option.bind_eq_bind, Option.bind_some,
    Item.cell_color, if_true, e₁, hx₁, e₂, hx₂, e₃, check.run_of (h'.seated hx), hx₃, h'.rep.parent_cell,
    Item.cell_child_other, check.run_of hnode, Option.pure_def]

theorem redSibling_black (h : Held nil par L (f :: p) x) (hs : f.other = join f.side .black near w far) :
    redSibling nil check (some f.item.ptr) f.side (x.link (some nil)) (some w.ptr) L =
      some (some w.ptr, L) := by
  have h₀ := h.sibling hs
  simp [redSibling, h₀.rep.cell]

/-- The last case of the loop body, at a sibling with a red outer child. -/
theorem outerNephew_spec {d : Side} {c k : Color} {a w b : Item T T} {near l r : ColorTree (Item T T)}
    (h : Held nil par L p (join d c x a (join d k near w (join d .red l b r))))
    (hx : x = .nil → par = some a.ptr) :
    ∃ L', outerNephew nil check (some a.ptr) d (x.link (some nil)) (some w.ptr) L = some L' ∧
      Held nil par L' p (join d c (join d .black x a near) w (join d .black l b r)) := by
  obtain ⟨L₁, e₁, h₁⟩ := (held_other.1 h).setColor c
  have h₁' := held_other.2 h₁
  obtain ⟨L₂, e₂, h₂⟩ := h₁'.setColor .black
  have h₂' := held_other.1 h₂
  obtain ⟨L₃, e₃, h₃⟩ := (held_other.1 h₂').setColor .black
  have h₃' := held_other.2 (held_other.2 h₃)
  obtain ⟨L₄, e₄, h₄⟩ := h₃'.rotate check
  have hx₀ := (held_join.1 h).parentOf hx
  have hx₁ := (held_join.1 h₁').parentOf hx
  have hx₃ := (held_join.1 h₃').parentOf hx
  have hseat := (held_join.1 (held_join.1 h₄)).seated hx
  rw [top] at hx₀ hx₁ hx₃
  refine ⟨L₄, ?_, h₄⟩
  simp only [outerNephew, hx₀, hx₁, hx₃, Links.deref_some, h.rep.cell, Option.bind_eq_bind,
    Option.bind_some, Item.cell_color, e₁, e₂, h₂'.rep.cell, Item.cell_child_other, link_join, e₃, e₄,
    check.run_of hseat, Option.pure_def]

theorem nephew_spec (h : Held nil par L (f :: p) x) (hx : x = .nil → par = some f.item.ptr)
    (hs : f.other = join f.side k near w far) (hred : ¬(near.color = .black ∧ far.color = .black)) :
    ∃ L₁ L₂ v t, innerNephew nil check (some f.item.ptr) f.side (x.link (some nil)) (some w.ptr) L =
        some (some v, L₁) ∧
      outerNephew nil check (some f.item.ptr) f.side (x.link (some nil)) (some v) L₁ = some L₂ ∧
      settle f.side f.color x f.item f.other = .done t ∧ Held nil par L₂ p t := by
  have hsib := h.sibling hs
  have h₀ := held_other.2 hsib
  rw [hs]
  obtain ⟨cf, hcf, hcol, -⟩ := (held_other.1 hsib).deref
  by_cases hf : far.color = .black
  · have hn : near.color = .red := Color.ne_black.1 fun hn => hred ⟨hn, hf⟩
    obtain ⟨nn, v, nf, rfl⟩ := exists_join_of_red f.side hn
    obtain ⟨L₁, e₁, h₁⟩ := (held_join.1 hsib).setColor .black
    obtain ⟨L₂, e₂, h₂⟩ := (held_cons.1 h₁).setColor .red
    rw [← join_other f.side .red, ← join_other f.side .black] at h₂
    obtain ⟨L₃, e₃, h₃⟩ := h₂.rotate check
    rw [join_other, join_other] at h₃
    have h₃' := held_other.2 h₃
    have hx₃ := (held_join.1 h₃').parentOf hx
    have hnode := (held_other.1 h₃').isNode (join_ne_nil _ _ _ _ _)
    rw [top] at hx₃
    rw [link_join] at hnode
    obtain ⟨L₄, e₄, h₄⟩ := outerNephew_spec check h₃' hx
    refine ⟨L₃, L₄, v.ptr, _, ?_, e₄, ?_, h₄⟩
    · simp only [innerNephew, Links.deref_some, hsib.rep.cell, Option.bind_eq_bind, Option.bind_some,
        Item.cell_child_other, Item.cell_child, hcf, hcol, hf, if_true, link_join,
        e₁, e₂, e₃, check.run_of ((held_join.1 h₃').seated hx), hx₃, h₃'.rep.cell, check.run_of hnode,
        Option.pure_def]
    · rw [settle, split_join]
      simp [hf]
  · have hfr := Color.ne_black.1 hf
    obtain ⟨l, b, r, rfl⟩ := exists_join_of_red f.side hfr
    obtain ⟨L₁, e₁, h₁⟩ := outerNephew_spec check h₀ hx
    refine ⟨L, L₁, w.ptr, _, ?_, e₁, ?_, h₁⟩
    · simp only [innerNephew, Links.deref_some, hsib.rep.cell, Option.bind_eq_bind, Option.bind_some,
        Item.cell_child_other, hcf, hcol, color_join, reduceCtorEq, if_false, Option.pure_def]
    · rw [settle, split_join]
      simp

/-- Both nephews black: the loop goes on one level up. -/
theorem blackSibling_up (h : Held nil par L (f :: p) x) (hx : x = .nil → par = some f.item.ptr)
    (hs : f.other = join f.side k near w far) {t : ColorTree (Item T T)}
    (ht : settle f.side f.color x f.item f.other = .up t) :
    ∃ L', blackSibling nil check (some f.item.ptr) f.side (x.link (some nil)) (some w.ptr) L =
        some (t.link (some nil), L') ∧
      Held nil par L' p t ∧ t.color = f.color ∧ t ≠ .nil := by
  have hsib := h.sibling hs
  obtain ⟨cn, hcn, hcoln, -⟩ := (held_join.1 hsib).deref
  obtain ⟨cf, hcf, hcol, -⟩ := (held_other.1 hsib).deref
  by_cases hb : near.color = .black ∧ far.color = .black
  · rw [settle, hs, split_join] at ht
    simp only [if_pos hb, Round.up.injEq] at ht
    subst ht
    obtain ⟨L₁, e₁, h₁⟩ := hsib.setColor .red
    have h₁' := held_other.2 h₁
    have hx₁ := (held_join.1 h₁').parentOf hx
    rw [top] at hx₁
    refine ⟨L₁, ?_, h₁', color_join .., join_ne_nil _ _ _ _ _⟩
    simp only [blackSibling, Links.deref_some, hsib.rep.cell, Option.bind_eq_bind, Option.bind_some,
      Item.cell_child, Item.cell_child_other, hcn, hcf, hcoln, hcol, hb.1, hb.2, decide_true,
      Bool.and_self, if_true, e₁, hx₁, link_join, Option.pure_def]
  · obtain ⟨L₁, L₂, v, t', e₁, e₂, ht', h₂⟩ := nephew_spec check h hx hs hb
    rw [ht] at ht'
    cases ht'

/-- A red nephew: the loop goes on, and ends, at the root. -/
theorem blackSibling_done (h : Held nil par L (f :: p) x) (hx : x = .nil → par = some f.item.ptr)
    (hs : f.other = join f.side k near w far) {t : ColorTree (Item T T)}
    (ht : settle f.side f.color x f.item f.other = .done t) :
    ∃ L', blackSibling nil check (some f.item.ptr) f.side (x.link (some nil)) (some w.ptr) L =
        some (L'.root, L') ∧
      Held nil par L' p t := by
  have hsib := h.sibling hs
  obtain ⟨cn, hcn, hcoln, -⟩ := (held_join.1 hsib).deref
  obtain ⟨cf, hcf, hcol, -⟩ := (held_other.1 hsib).deref
  have hb : ¬(near.color = .black ∧ far.color = .black) := by
    intro hb
    rw [settle, hs, split_join] at ht
    simp [if_pos hb] at ht
  obtain ⟨L₁, L₂, v, t', e₁, e₂, ht', h₂⟩ := nephew_spec check h hx hs hb
  rw [ht] at ht'
  cases ht'
  refine ⟨L₂, ?_, h₂⟩
  have hb' : (decide (near.color = .black) && decide (far.color = .black)) = false := by
    simpa using hb
  simp only [blackSibling, Links.deref_some, hsib.rep.cell, Option.bind_eq_bind, Option.bind_some,
    Item.cell_child, Item.cell_child_other, hcn, hcf, hcoln, hcol, hb', Bool.false_eq_true, if_false,
    e₁, e₂, Option.pure_def]

theorem deleteFixupLoop_ends {q : Trail (Item T T)} (h : Held nil par L q x)
    (hx : q = [] ∨ x.color = .red) (n : ℕ) :
    deleteFixupLoop nil check (n + 1) (x.link (some nil)) L = some (x.link (some nil), L) := by
  rw [deleteFixupLoop]
  cases q with
  | nil => rw [if_pos h.rep.above.symm]; rfl
  | cons f q =>
    obtain ⟨c, hc, hcol, -⟩ := h.deref
    have hred : c.color = .red := by rw [hcol]; simpa using hx
    rw [if_neg h.rep.ne_root]
    simp [hc, hred]

/-- One turn of the loop at a black node, with everything it reads first filled in. -/
theorem deleteFixupLoop_black (h : Held nil par L (f :: p) x) (hx : x = .nil → par = some f.item.ptr)
    (hcol : x.color = .black) (hs : f.other = join f.side k near w far) (n : ℕ) :
    deleteFixupLoop nil check (n + 1) (x.link (some nil)) L =
      (do
        let (w, L) ← redSibling nil check (some f.item.ptr) f.side (x.link (some nil)) (some w.ptr) L
        let (x, L) ← blackSibling nil check (some f.item.ptr) f.side (x.link (some nil)) w L
        deleteFixupLoop nil check n x L) := by
  obtain ⟨c, hc, hcol', -⟩ := h.deref
  have hside := side_of_left h fun _ => by rw [hs]; exact join_ne_nil _ _ _ _ _
  have hpar := h.parentOf hx
  have hcell := h.rep.parent_cell
  have hnode := (held_other.1 (held_cons.1 h)).isNode (by rw [hs]; exact join_ne_nil _ _ _ _ _)
  rw [top] at hpar
  rw [hs, link_join] at hside hcell hnode
  rw [deleteFixupLoop, if_neg h.rep.ne_root]
  simp only [hc, hcol', hcol, Option.bind_eq_bind, Option.bind_some, reduceCtorEq, if_false, hpar,
    Links.deref_some, hcell, hside, check.run_of (h.seated hx), Item.cell_child_other, check.run_of hnode]

/-- A red sibling is rotated up first; its inner child is the sibling from then on. -/
theorem deleteFixupLoop_redSibling {near' far' : ColorTree (Item T T)} {w' : Item T T}
    (h : Held nil par L (f :: p) x) (hx : x = .nil → par = some f.item.ptr) (hcol : x.color = .black)
    (hs : f.other = join f.side .red near w far) (hn : near = join f.side k near' w' far') (n : ℕ) :
    ∃ L', deleteFixupLoop nil check (n + 1) (x.link (some nil)) L =
        (do
          let (x, L) ← blackSibling nil check (some f.item.ptr) f.side (x.link (some nil)) (some w'.ptr) L'
          deleteFixupLoop nil check n x L) ∧
      Held nil par L' (⟨f.side, .red, f.item, near⟩ :: ⟨f.side, .black, w, far⟩ :: p) x := by
  obtain ⟨L', e, h'⟩ := redSibling_red check h hx hs (by rw [hn]; exact join_ne_nil _ _ _ _ _)
  refine ⟨L', ?_, h'⟩
  rw [deleteFixupLoop_black check h hx hcol hs, e, hn, link_join]
  rfl

theorem deleteFixupLoop_blackSibling (h : Held nil par L (f :: p) x)
    (hx : x = .nil → par = some f.item.ptr) (hcol : x.color = .black)
    (hs : f.other = join f.side .black near w far) (n : ℕ) :
    deleteFixupLoop nil check (n + 1) (x.link (some nil)) L =
      (do
        let (x, L) ← blackSibling nil check (some f.item.ptr) f.side (x.link (some nil)) (some w.ptr) L
        deleteFixupLoop nil check n x L) := by
  rw [deleteFixupLoop_black check h hx hcol hs, redSibling_black check h hs]
  rfl

/-- The loop ends at a position whose painting black completes the repair. -/
theorem deleteFixupLoop_spec {q : Trail (Item T T)} {m n : ℕ} (h : Held nil par L q x)
    (hx : x = .nil → par = top q) (hq : Short q x m) (hn : q.length + 1 < n) :
    ∃ q' y L', deleteFixupLoop nil check n (x.link (some nil)) L = some (y.link (some nil), L') ∧
      Held nil par L' q' y ∧ plug q' y.blacken = Lib.fixDelete q x := by
  fun_induction Lib.fixDelete q x generalizing L m n with
  | case1 x =>
    obtain ⟨n, rfl⟩ : ∃ k, n = k + 1 := ⟨n - 1, by omega⟩
    exact ⟨[], x, L, deleteFixupLoop_ends check h (.inl rfl) n, h, rfl⟩
  | case2 f p x hred =>
    obtain ⟨n, rfl⟩ : ∃ k, n = k + 1 := ⟨n - 1, by omega⟩
    exact ⟨f :: p, x, L, deleteFixupLoop_ends check h (.inr hred) n, h, rfl⟩
  | case3 f p x hred near w far hs t ht =>
    simp only [List.length_cons] at hn
    obtain ⟨n, rfl⟩ : ∃ k, n = k + 2 := ⟨n - 2, by omega⟩
    have hs' := eq_join_of_split hs
    obtain ⟨k', near', w', far', hn'⟩ := exists_join f.side (hq.red_sibling hs').2.1.ne_nil
    obtain ⟨L₁, e₁, h₁⟩ := deleteFixupLoop_redSibling check h hx (Color.ne_red.1 hred) hs' hn' (n + 1)
    obtain ⟨L₂, e₂, h₂⟩ := blackSibling_done check h₁ hx hn' ht
    have h₂' := held_plug.1 h₂
    have hstop := deleteFixupLoop_ends check h₂' (.inl rfl) n
    refine ⟨[], _, L₂, ?_, h₂', rfl⟩
    simp only [e₁, Option.bind_eq_bind, Option.bind_some, e₂, h₂.rep.root, hstop]
  | case4 f p x hred near w far hs t ht =>
    simp only [List.length_cons] at hn
    obtain ⟨n, rfl⟩ : ∃ k, n = k + 2 := ⟨n - 2, by omega⟩
    have hs' := eq_join_of_split hs
    obtain ⟨k', near', w', far', hn'⟩ := exists_join f.side (hq.red_sibling hs').2.1.ne_nil
    obtain ⟨L₁, e₁, h₁⟩ := deleteFixupLoop_redSibling check h hx (Color.ne_red.1 hred) hs' hn' (n + 1)
    obtain ⟨L₂, e₂, h₂, hc, -⟩ := blackSibling_up check h₁ hx hn' ht
    have hstop := deleteFixupLoop_ends check h₂ (.inr hc) n
    refine ⟨⟨f.side, .black, w, far⟩ :: p, t, L₂, ?_, h₂, rfl⟩
    simp only [e₁, Option.bind_eq_bind, Option.bind_some, e₂, hstop]
  | case5 f p x hred t ht hs =>
    simp only [List.length_cons] at hn
    obtain ⟨n, rfl⟩ : ∃ k, n = k + 2 := ⟨n - 2, by omega⟩
    obtain ⟨near, w, far, hs'⟩ := hq.black_sibling hs
    obtain ⟨L₂, e₂, h₂⟩ := blackSibling_done check h hx hs' ht
    have h₂' := held_plug.1 h₂
    have hstop := deleteFixupLoop_ends check h₂' (.inl rfl) n
    refine ⟨[], _, L₂, ?_, h₂', rfl⟩
    rw [deleteFixupLoop_blackSibling check h hx (Color.ne_red.1 hred) hs']
    simp only [Option.bind_eq_bind, Option.bind_some, e₂, h₂.rep.root, hstop]
  | case6 f p x hred t ht hs ih =>
    simp only [List.length_cons] at hn
    obtain ⟨n, rfl⟩ : ∃ k, n = k + 1 := ⟨n - 1, by omega⟩
    obtain ⟨near, w, far, hs'⟩ := hq.black_sibling hs
    obtain ⟨m', hm'⟩ := hq.up hred hs ht
    obtain ⟨L₂, e₂, h₂, -, hne⟩ := blackSibling_up check h hx hs' ht
    obtain ⟨q', y, L', e, h', hy⟩ := ih (n := n) h₂ (fun e => absurd e hne) hm' (by omega)
    refine ⟨q', y, L', ?_, h', hy⟩
    rw [deleteFixupLoop_blackSibling check h hx (Color.ne_red.1 hred) hs']
    simp only [Option.bind_eq_bind, Option.bind_some, e₂, e]

/-- Painting black what the loop ends at does not change the sentinel. -/
theorem deleteFixup_spec {q : Trail (Item T T)} {m n : ℕ} (h : Held nil par L q x)
    (hx : x = .nil → par = top q) (hq : Short q x m) (hn : q.length + 1 < n) :
    ∃ L', deleteFixup nil check n (x.link (some nil)) L = some L' ∧
      Held nil par L' [] (Lib.fixDelete q x) := by
  obtain ⟨q', y, L₁, e₁, h₁, hy⟩ := deleteFixupLoop_spec check h hx hq hn
  rw [← hy]
  by_cases hnil : y = .nil
  · subst hnil
    have hsame : L₁.modify (some nil) (·.setColor .black) = some L₁ := by
      rw [Links.modify_some h₁.sentinel]
      exact congrArg some (Links.put_eq_self h₁.sentinel)
    refine ⟨L₁, ?_, held_plug.1 h₁⟩
    simp only [deleteFixup, e₁, Option.bind_eq_bind, Option.bind_some, link_nil, hsame]
  · obtain ⟨c, l, a, r, rfl⟩ := exists_join .left hnil
    obtain ⟨L₂, e₂, h₂⟩ := h₁.setColor .black
    rw [blacken_join]
    refine ⟨L₂, ?_, held_plug.1 h₂⟩
    simp only [deleteFixup, e₁, Option.bind_eq_bind, Option.bind_some, link_join, e₂]

end Delete

end LearnSpdk.RBTree
