import LearnSpdk.Lib.SearchTree
import LearnSpdk.Spec.RedBlackTree

/-! The fix-up loops of `RedBlackTree` carry out the abstract repairs: started on
a linked tree with the one violation they are meant for, they end, and the links
spell the repaired tree. The results hold for every `exit`, so no defensive exit
is ever taken. -/

namespace LearnSpdk.RedBlackTree

open Lib ColorTree Trail

variable {K V : Type} {L : Links K V} (exit : Links K V → Option (Links K V))

theorem isBlack_of_hangs {t : ColorTree (Item K V)} (h : Hangs L none t) :
    isBlack (t.link none) L = some (decide (t.color = .black)) := by
  cases t with
  | nil => rfl
  | node c l a r =>
    obtain ⟨par, ha⟩ := h.1
    rw [link_node, isBlack, ha]
    rfl

theorem isBlack_link {par : Option Ptr} {t : ColorTree (Item K V)} (h : Below L none par t) :
    isBlack (t.link none) L = some (decide (t.color = .black)) := isBlack_of_hangs h.hangs

section Frame
variable {f : Frame (Item K V)} {p : Trail (Item K V)} {t : ColorTree (Item K V)}

theorem lock_parent (h : Rep L none (f :: p) t) (ht : t ≠ .nil) :
    ∃ c, L.deref (t.link none) = some c ∧ c.color = t.color ∧ L.lock c.parent = some f.item.ptr := by
  obtain ⟨c, x, a, y, rfl⟩ := exists_join .left ht
  refine ⟨_, by rw [link_join]; exact h.cell, by rw [Item.cell_color, color_join], ?_⟩
  rw [Item.cell_parent, top]
  exact Links.lock_some h.parent_cell

theorem isLeftChild_link (h : Rep L none (f :: p) t) (ht : t ≠ .nil) :
    isLeftChild (t.link none) L = some (f.side == .left) := by
  obtain ⟨c, hc, -, hp⟩ := lock_parent h ht
  have hother := h.other_ne ht
  simp only [isLeftChild, hc, Option.bind_eq_bind, Option.bind_some, hp, h.parent_cell]
  obtain ⟨d, k, a, o⟩ := f
  cases d
  · simp [Item.cell]
  · exact congrArg some (decide_eq_false hother)

theorem sibling_link (h : Rep L none (f :: p) t) (ht : t ≠ .nil) :
    sibling (t.link none) L = some (f.other.link none) := by
  obtain ⟨c, hc, -, hp⟩ := lock_parent h ht
  simp only [sibling, hc, Option.bind_eq_bind, Option.bind_some, hp, h.parent_cell,
    isLeftChild_link h ht]
  obtain ⟨d, k, a, o⟩ := f
  cases d <;> rfl

end Frame

theorem rotate_eq {p : Trail (Item K V)} {d : Side} {c k : Color} {s t u : ColorTree (Item K V)}
    {a b : Item K V} (h : Rep L none p (join d c s a (join d k t b u))) :
    rotate exit d (some a.ptr) L = L.rotate none d (some a.ptr) := by
  simp [rotate, h.cell]

theorem rotate_link {p : Trail (Item K V)} {d : Side} {c k : Color} {s t u : ColorTree (Item K V)}
    {a b : Item K V} (h : Rep L none p (join d c s a (join d k t b u))) :
    ∃ L', rotate exit d (some a.ptr) L = some L' ∧
      Rep L' none p (join d k (join d c s a t) b u) := by
  obtain ⟨L', e, hrep, -⟩ := h.rotate
  exact ⟨L', by rw [rotate_eq exit h, e], hrep⟩

theorem fixInsertLoop_black {f : Frame (Item K V)} {p : Trail (Item K V)} {t : ColorTree (Item K V)}
    (h : Rep L none (f :: p) t) (ht : t ≠ .nil) (hf : f.color = .black) (n : ℕ) :
    fixInsertLoop exit (n + 1) (t.link none) L = some L := by
  obtain ⟨c, hc, -, hp⟩ := lock_parent h ht
  rw [fixInsertLoop, if_neg h.ne_root]
  simp [hc, hp, h.parent_cell, hf]

/-- Recolouring the parent black and the grandparent red and rotating the
grandparent away from the node. -/
theorem lift_outer {g : Frame (Item K V)} {p : Trail (Item K V)} {c : Color}
    {t o : ColorTree (Item K V)} {a : Item K V} (h : Rep L none (g :: p) (join g.side c t a o)) :
    ∃ L₁ L₂ L₃, L.modify (some a.ptr) (·.setColor .black) = some L₁ ∧
      L₁.modify (some g.item.ptr) (·.setColor .red) = some L₂ ∧
      rotate exit g.side.other (some g.item.ptr) L₂ = some L₃ ∧
      Rep L₃ none p (join g.side .black t a (join g.side .red o g.item g.other)) := by
  obtain ⟨L₁, e₁, h₁, -⟩ := h.setColor .black
  obtain ⟨L₂, e₂, h₂, -⟩ := (rep_cons.1 h₁).setColor .red
  rw [← join_other g.side .red, ← join_other g.side .black] at h₂
  obtain ⟨L₃, e₃, h₃⟩ := rotate_link exit h₂
  rw [join_other, join_other] at h₃
  exact ⟨L₁, L₂, L₃, e₁, e₂, e₃, h₃⟩

/-- One turn of the loop below a red parent, with everything it reads filled in. -/
theorem fixInsertLoop_red {f g : Frame (Item K V)} {p : Trail (Item K V)}
    {t : ColorTree (Item K V)} (h : Rep L none (f :: g :: p) t) (ht : t ≠ .nil)
    (hf : f.color = .red) (n : ℕ) :
    fixInsertLoop exit (n + 1) (t.link none) L =
      (if g.other.color = .red then do
        let L ← L.modify (some f.item.ptr) (·.setColor .black)
        let L ← L.modify (g.other.link none) (·.setColor .black)
        let L ← L.modify (some g.item.ptr) (·.setColor .red)
        fixInsertLoop exit n (some g.item.ptr) L
      else if f.side = g.side then do
        let L ← L.modify (some f.item.ptr) (·.setColor .black)
        let L ← L.modify (some g.item.ptr) (·.setColor .red)
        let L ← rotate exit g.side.other (some g.item.ptr) L
        fixInsertLoop exit n (t.link none) L
      else do
        let L ← rotate exit g.side (some f.item.ptr) L
        let parent := L.lock (← L.heap f.item.ptr).parent
        let grandparent ← if parent = none then some none
          else do pure (L.lock (← L.deref parent).parent)
        if grandparent = none then exit L
        else
          let L ← L.modify parent (·.setColor .black)
          let L ← L.modify grandparent (·.setColor .red)
          let L ← rotate exit g.side.other grandparent L
          fixInsertLoop exit n (some f.item.ptr) L) := by
  have hup := rep_cons.1 h
  obtain ⟨c, hc, -, hlock⟩ := lock_parent h ht
  obtain ⟨c', hc', hcol, hlock'⟩ := lock_parent hup (f.fill_ne_nil t)
  have hside := isLeftChild_link hup (f.fill_ne_nil t)
  have hsib := sibling_link hup (f.fill_ne_nil t)
  have hunc := isBlack_link hup.above.2.1
  have hnode := isLeftChild_link h ht
  simp only [Frame.fill, link_join, color_join, hf, Links.deref_some] at hc' hcol hside hsib
  have hd : (if (g.side == Side.left) = true then Side.left else Side.right) = g.side := by
    cases g.side <;> rfl
  have hsame : ((f.side == Side.left) == (g.side == Side.left)) = true ↔ f.side = g.side := by
    cases f.side <;> cases g.side <;> decide
  have hred : (!decide (g.other.color = .black)) = true ↔ g.other.color = .red := by
    cases g.other.color <;> decide
  rw [fixInsertLoop, if_neg h.ne_root]
  simp only [hc, hlock, Links.deref_some, hc', hcol, hlock', hside, hsib, hunc, hnode, hd, hsame,
    hred, Option.bind_eq_bind, Option.bind_some, reduceCtorEq, if_false]

section Turns
variable {f g : Frame (Item K V)} {p : Trail (Item K V)} {t : ColorTree (Item K V)}

/-- A red uncle: the colours are changed, and the loop goes on at the grandparent. -/
theorem fixInsertLoop_uncle (h : Rep L none (f :: g :: p) t) (ht : t ≠ .nil) (hf : f.color = .red)
    (hu : g.other.color = .red) (n : ℕ) :
    ∃ L', fixInsertLoop exit (n + 1) (t.link none) L = fixInsertLoop exit n (some g.item.ptr) L' ∧
      Rep L' none p (join g.side .red (join f.side .black t f.item f.other) g.item g.other.blacken) := by
  obtain ⟨x, b, y, hu'⟩ := exists_join_of_red .left hu
  obtain ⟨L₁, e₁, h₁, -⟩ := (rep_cons.1 h).setColor .black
  have h₁' := rep_cons.1 h₁
  rw [Frame.fill, hu', rep_other] at h₁'
  obtain ⟨L₂, e₂, h₂, -⟩ := h₁'.setColor .black
  obtain ⟨L₃, e₃, h₃, -⟩ := (rep_other.2 h₂).setColor .red
  refine ⟨L₃, ?_, by rw [hu', blacken_join]; exact h₃⟩
  rw [fixInsertLoop_red exit h ht hf, if_pos hu, hu', link_join]
  simp only [e₁, e₂, e₃, Option.bind_eq_bind, Option.bind_some]

/-- An outer grandchild: the grandparent is rotated away, and the next turn is the last. -/
theorem fixInsertLoop_outer (h : Rep L none (f :: g :: p) t) (ht : t ≠ .nil) (hf : f.color = .red)
    (hu : g.other.color ≠ .red) (hs : f.side = g.side) (n : ℕ) :
    ∃ L', fixInsertLoop exit (n + 2) (t.link none) L = some L' ∧
      Rep L' none p (join g.side .black t f.item (join g.side .red f.other g.item g.other)) := by
  have hup := rep_cons.1 h
  rw [Frame.fill, hs] at hup
  obtain ⟨L₁, L₂, L₃, e₁, e₂, e₃, h₃⟩ := lift_outer exit hup
  have hstop := fixInsertLoop_black exit (f := ⟨g.side, .black, f.item, join g.side .red f.other g.item g.other⟩)
    (rep_cons.2 h₃) ht rfl n
  refine ⟨L₃, ?_, h₃⟩
  rw [fixInsertLoop_red exit h ht hf, if_neg hu, if_pos hs]
  simp only [e₁, e₂, e₃, Option.bind_eq_bind, Option.bind_some, hstop]

/-- An inner grandchild is rotated up to the place of its parent first. -/
theorem fixInsertLoop_inner {c : Color} {x y : ColorTree (Item K V)} {a : Item K V}
    (h : Rep L none (f :: g :: p) (join g.side c x a y)) (hf : f.color = .red)
    (hu : g.other.color ≠ .red) (hs : f.side ≠ g.side) (n : ℕ) :
    ∃ L', fixInsertLoop exit (n + 2) ((join g.side c x a y).link none) L = some L' ∧
      Rep L' none p (join g.side .black (join g.side .red f.other f.item x) a
        (join g.side .red y g.item g.other)) := by
  have hside : f.side = g.side.other := by
    revert hs
    cases f.side <;> cases g.side <;> simp [Side.other]
  have hup := rep_cons.1 h
  rw [Frame.fill, hside, join_other, hf] at hup
  obtain ⟨L₀, e₀, h₀⟩ := rotate_link exit hup
  have hdown : Rep L₀ none (⟨g.side, c, a, y⟩ :: g :: p) (join g.side .red f.other f.item x) :=
    rep_cons.2 h₀
  obtain ⟨L₁, L₂, L₃, e₁, e₂, e₃, h₃⟩ := lift_outer exit h₀
  have hstop := fixInsertLoop_black exit (f := ⟨g.side, .black, a, join g.side .red y g.item g.other⟩)
    (rep_cons.2 h₃) (join_ne_nil _ _ _ _ _) rfl n
  rw [link_join] at hstop
  refine ⟨L₃, ?_, h₃⟩
  rw [fixInsertLoop_red exit h (join_ne_nil _ _ _ _ _) hf, if_neg hu, if_neg hs]
  simp only [e₀, Option.bind_eq_bind, Option.bind_some, hdown.cell, Item.cell_parent, top,
    Links.lock_some h₀.cell, reduceCtorEq, if_false, Links.deref_some, h₀.cell,
    Links.lock_some h₀.parent_cell, e₁, e₂, e₃, hstop, Option.pure_def]

end Turns

theorem fixInsertLoop_spec {p : Trail (Item K V)} {t : ColorTree (Item K V)} {m n : ℕ}
    (h : Rep L none p t) (ht : t ≠ .nil) (hp : Fits p m .black) (hn : p.length < n) :
    ∃ L', fixInsertLoop exit n (t.link none) L = some L' ∧ Rep L' none [] (raise p t) := by
  fun_induction raise p t generalizing L m n with
  | case1 f g p t hf hu ih =>
    simp only [List.length_cons] at hn
    obtain ⟨n, rfl⟩ : ∃ k, n = k + 1 := ⟨n - 1, by omega⟩
    obtain ⟨-, -, -, hgp⟩ := hp.below_red hf
    obtain ⟨L₁, e₁, h₁⟩ := fixInsertLoop_uncle exit h ht hf hu n
    obtain ⟨L', e, h'⟩ := ih (n := n) h₁ (join_ne_nil _ _ _ _ _) hgp (by omega)
    rw [link_join] at e
    exact ⟨L', by rw [e₁, e], h'⟩
  | case2 f g p t hf hu hs =>
    simp only [List.length_cons] at hn
    obtain ⟨n, rfl⟩ : ∃ k, n = k + 2 := ⟨n - 2, by omega⟩
    obtain ⟨L', e, h'⟩ := fixInsertLoop_outer exit h ht hf hu hs n
    exact ⟨L', e, rep_plug.1 h'⟩
  | case3 f g p t hf hu hs c x a y hsplit =>
    simp only [List.length_cons] at hn
    obtain ⟨n, rfl⟩ : ∃ k, n = k + 2 := ⟨n - 2, by omega⟩
    rw [eq_join_of_split hsplit] at h ⊢
    obtain ⟨L', e, h'⟩ := fixInsertLoop_inner exit h hf hu hs n
    exact ⟨L', e, rep_plug.1 h'⟩
  | case4 f g p t hf hu hs hsplit =>
    obtain ⟨c, x, a, y, rfl⟩ := exists_join g.side ht
    simp at hsplit
  | case5 f g p t hf =>
    obtain ⟨n, rfl⟩ : ∃ k, n = k + 1 := ⟨n - 1, by omega⟩
    exact ⟨L, fixInsertLoop_black exit h ht (Color.ne_red.1 hf) n, rep_plug.1 h⟩
  | case6 p t hp' =>
    obtain ⟨n, rfl⟩ : ∃ k, n = k + 1 := ⟨n - 1, by omega⟩
    refine ⟨L, ?_, rep_plug.1 h⟩
    cases p with
    | nil => rw [fixInsertLoop, if_pos h.above.symm]; rfl
    | cons f p =>
      refine fixInsertLoop_black exit h ht ?_ n
      by_contra hf
      obtain ⟨g, q, rfl, -⟩ := hp.exists_grandparent (Color.ne_black.1 hf)
      exact hp' f g q rfl

theorem fixInsert_spec {p : Trail (Item K V)} {t : ColorTree (Item K V)} {m n : ℕ}
    (h : Rep L none p t) (ht : t ≠ .nil) (hp : Fits p m .black) (hn : p.length < n) :
    ∃ L', fixInsert exit n (t.link none) L = some L' ∧ Rep L' none [] (Lib.fixInsert p t) := by
  obtain ⟨L₁, e₁, h₁⟩ := fixInsertLoop_spec exit h ht hp hn
  unfold Lib.fixInsert
  obtain ⟨c, x, a, y, hr⟩ := exists_join .left (raise_ne_nil p ht)
  rw [hr] at h₁ ⊢
  have hroot : L₁.root = some a.ptr := by rw [h₁.root, plug_nil, link_join]
  obtain ⟨L₂, e₂, h₂, -⟩ := h₁.setColor .black
  rw [blacken_join]
  refine ⟨L₂, ?_, h₂⟩
  simp only [fixInsert, e₁, Option.bind_eq_bind, Option.bind_some, hroot, reduceCtorEq, if_false, e₂]

/-! ### `fix_delete` -/

theorem lock_top {p : Trail (Item K V)} {t : ColorTree (Item K V)} (h : Rep L none p t) :
    L.lock (top p) = top p := by
  cases p with
  | nil => rfl
  | cons f p => exact Links.lock_some h.parent_cell

theorem redSibling_red {f : Frame (Item K V)} {p : Trail (Item K V)} {x near far : ColorTree (Item K V)}
    {w : Item K V} (h : Rep L none (f :: p) x) (hs : f.other = join f.side .red near w far) :
    ∃ L', redSibling exit f.side (some f.item.ptr) (some w.ptr) L = some (near.link none, L') ∧
      Rep L' none (⟨f.side, .red, f.item, near⟩ :: ⟨f.side, .black, w, far⟩ :: p) x := by
  have h₀ := h.sibling hs
  obtain ⟨L₁, e₁, h₁, -⟩ := h₀.setColor .black
  obtain ⟨L₂, e₂, h₂, -⟩ := (rep_other.2 h₁).setColor .red
  obtain ⟨L₃, e₃, h₃⟩ := rotate_link exit h₂
  have h' : Rep L₃ none (⟨f.side, .red, f.item, near⟩ :: ⟨f.side, .black, w, far⟩ :: p) x :=
    rep_cons.2 (rep_cons.2 h₃)
  refine ⟨L₃, ?_, h'⟩
  simp only [redSibling, Links.deref_some, h₀.cell, Option.bind_eq_bind, Option.bind_some,
    Item.cell_color, if_true, e₁, e₂, e₃, h'.parent_cell, Item.cell_child_other, Option.pure_def]

theorem redSibling_black {f : Frame (Item K V)} {p : Trail (Item K V)}
    {x near far : ColorTree (Item K V)} {w : Item K V} (h : Rep L none (f :: p) x)
    (hs : f.other = join f.side .black near w far) :
    redSibling exit f.side (some f.item.ptr) (some w.ptr) L = some (some w.ptr, L) := by
  have h₀ := h.sibling hs
  simp [redSibling, h₀.cell]

/-- The last two cases of the loop body, at a sibling with a red child. -/
theorem nephew_spec {f : Frame (Item K V)} {p : Trail (Item K V)} {x near far : ColorTree (Item K V)}
    {w : Item K V} {k : Color} (h : Rep L none (f :: p) x) (hs : f.other = join f.side k near w far)
    (hred : ¬(near.color = .black ∧ far.color = .black)) :
    ∃ L₁ L₂ v t, innerNephew exit f.side (some f.item.ptr) (some w.ptr) L = some (some v, L₁) ∧
      outerNephew exit f.side (some f.item.ptr) (some v) L₁ = some L₂ ∧
      settle f.side f.color x f.item f.other = .done t ∧ Rep L₂ none p t := by
  have hsib := h.sibling hs
  have h₀ := rep_other.2 hsib
  rw [hs]
  -- the last case, at any sibling with a red outer child
  have outer {L : Links K V} {k : Color} {near l r : ColorTree (Item K V)} {w b : Item K V}
      (h : Rep L none p (join f.side f.color x f.item (join f.side k near w (join f.side .red l b r)))) :
      ∃ L', outerNephew exit f.side (some f.item.ptr) (some w.ptr) L = some L' ∧
        Rep L' none p (join f.side f.color (join f.side .black x f.item near) w
          (join f.side .black l b r)) := by
    obtain ⟨L₁, e₁, h₁, -⟩ := (rep_other.1 h).setColor f.color
    obtain ⟨L₂, e₂, h₂, -⟩ := (rep_other.2 h₁).setColor .black
    have h₂' := rep_other.1 h₂
    obtain ⟨L₃, e₃, h₃, -⟩ := (rep_other.1 h₂').setColor .black
    obtain ⟨L₄, e₄, h₄⟩ := rotate_link exit (rep_other.2 (rep_other.2 h₃))
    refine ⟨L₄, ?_, h₄⟩
    simp only [outerNephew, Links.deref_some, h.cell, Option.bind_eq_bind, Option.bind_some,
      Item.cell_color, e₁, e₂, h₂'.cell, Item.cell_child_other, link_join, reduceCtorEq, if_false,
      e₃, e₄]
  have hfar := isBlack_link (below_join.1 hsib.below).2.2
  by_cases hf : far.color = .black
  · have hn : near.color = .red := Color.ne_black.1 fun hn => hred ⟨hn, hf⟩
    obtain ⟨nn, v, nf, rfl⟩ := exists_join_of_red f.side hn
    obtain ⟨L₁, e₁, h₁, -⟩ := (rep_cons (f := ⟨f.side, k, w, far⟩).2 hsib).setColor .black
    obtain ⟨L₂, e₂, h₂, -⟩ := (rep_cons.1 h₁).setColor .red
    rw [← join_other f.side .red, ← join_other f.side .black] at h₂
    obtain ⟨L₃, e₃, h₃⟩ := rotate_link exit h₂
    rw [join_other, join_other] at h₃
    have h₃' := rep_other.2 h₃
    obtain ⟨L₄, e₄, h₄⟩ := outer h₃'
    refine ⟨L₃, L₄, v.ptr, _, ?_, e₄, ?_, h₄⟩
    · simp only [innerNephew, Links.deref_some, hsib.cell, Option.bind_eq_bind, Option.bind_some,
        Item.cell_child_other, Item.cell_child, hfar, hf, decide_true, if_true, link_join,
        reduceCtorEq, if_false, e₁, e₂, e₃, h₃'.cell, Option.pure_def]
    · rw [settle, split_join]
      simp [hf]
  · have hfr := Color.ne_black.1 hf
    obtain ⟨l, b, r, rfl⟩ := exists_join_of_red f.side hfr
    obtain ⟨L₁, e₁, h₁⟩ := outer h₀
    refine ⟨L, L₁, w.ptr, _, ?_, e₁, ?_, h₁⟩
    · simp only [innerNephew, Links.deref_some, hsib.cell, Option.bind_eq_bind, Option.bind_some,
        Item.cell_child_other, hfar, color_join, reduceCtorEq, decide_false, Bool.false_eq_true,
        if_false, Option.pure_def]
    · rw [settle, split_join]
      simp

theorem fixDeleteLoop_red {f : Frame (Item K V)} {p : Trail (Item K V)} {x : ColorTree (Item K V)}
    (h : Rep L none (f :: p) x) (hx : x.color = .red) (n : ℕ) (parent : Option Ptr) :
    fixDeleteLoop exit (n + 1) (x.link none) parent L = some (x.link none, L) := by
  rw [fixDeleteLoop, if_neg h.ne_root]
  simp [isBlack_link h.below, hx]

/-- One turn of the loop at a black node, with everything it reads first filled in. -/
theorem fixDeleteLoop_black {f : Frame (Item K V)} {p : Trail (Item K V)}
    {x near far : ColorTree (Item K V)} {w : Item K V} {k : Color} (h : Rep L none (f :: p) x)
    (hx : x.color = .black) (hs : f.other = join f.side k near w far) (n : ℕ) :
    fixDeleteLoop exit (n + 1) (x.link none) (some f.item.ptr) L =
      (do
        let (sibling, L) ← redSibling exit f.side (some f.item.ptr) (some w.ptr) L
        if sibling = none then return (x.link none, ← exit L)
        blackSibling exit (fixDeleteLoop exit n) f.side (x.link none) (some f.item.ptr) sibling L) := by
  have hd : (if x.link none = (f.item.cell f.side f.color (x.link none) (f.other.link none)
      (top p)).left then Side.left else Side.right) = f.side := by
    have hne : f.other.link none ≠ x.link none := by
      by_cases hx : x = .nil
      · rw [hs, hx]
        simp
      · exact h.other_ne hx
    obtain ⟨d, c, a, o⟩ := f
    cases d
    · simp [Item.cell]
    · exact if_neg fun e => hne (Eq.symm e)
  rw [hs, link_join] at hd
  rw [fixDeleteLoop, if_neg h.ne_root]
  simp only [isBlack_link h.below, hx, decide_true, Bool.not_true, Bool.false_eq_true, if_false,
    reduceCtorEq, Links.deref_some, h.parent_cell, Option.bind_eq_bind, Option.bind_some, hd,
    Item.cell_child_other, hs, link_join]

/-- A red sibling is rotated up first; its inner child is the sibling from then on. -/
theorem fixDeleteLoop_redSibling {f : Frame (Item K V)} {p : Trail (Item K V)}
    {x near far near' far' : ColorTree (Item K V)} {w w' : Item K V} {k : Color} (h : Rep L none (f :: p) x)
    (hx : x.color = .black) (hs : f.other = join f.side .red near w far)
    (hn : near = join f.side k near' w' far') (n : ℕ) :
    ∃ L', fixDeleteLoop exit (n + 1) (x.link none) (some f.item.ptr) L =
        blackSibling exit (fixDeleteLoop exit n) f.side (x.link none) (some f.item.ptr) (some w'.ptr) L' ∧
      Rep L' none (⟨f.side, .red, f.item, near⟩ :: ⟨f.side, .black, w, far⟩ :: p) x := by
  obtain ⟨L', e, h'⟩ := redSibling_red exit h hs
  refine ⟨L', ?_, h'⟩
  rw [fixDeleteLoop_black exit h hx hs, e, hn, link_join]
  rfl

theorem fixDeleteLoop_blackSibling {f : Frame (Item K V)} {p : Trail (Item K V)}
    {x near far : ColorTree (Item K V)} {w : Item K V} (h : Rep L none (f :: p) x)
    (hx : x.color = .black) (hs : f.other = join f.side .black near w far) (n : ℕ) :
    fixDeleteLoop exit (n + 1) (x.link none) (some f.item.ptr) L =
      blackSibling exit (fixDeleteLoop exit n) f.side (x.link none) (some f.item.ptr) (some w.ptr) L := by
  rw [fixDeleteLoop_black exit h hx hs, redSibling_black exit h hs]
  rfl

section BlackSibling
variable {f : Frame (Item K V)} {p : Trail (Item K V)} {x near far : ColorTree (Item K V)}
  {w : Item K V} {k : Color}
  (loop : Option Ptr → Option Ptr → Links K V → Option (Option Ptr × Links K V))

/-- Both nephews black: the loop goes on one level up. -/
theorem blackSibling_up (h : Rep L none (f :: p) x) (hs : f.other = join f.side k near w far)
    {t : ColorTree (Item K V)} (ht : settle f.side f.color x f.item f.other = .up t) :
    ∃ L', blackSibling exit loop f.side (x.link none) (some f.item.ptr) (some w.ptr) L =
        loop (t.link none) (top p) L' ∧ Rep L' none p t ∧ t.color = f.color := by
  have hsib := h.sibling hs
  have hnear := isBlack_link (below_join.1 hsib.below).2.1
  have hfar := isBlack_link (below_join.1 hsib.below).2.2
  by_cases hb : near.color = .black ∧ far.color = .black
  · rw [settle, hs, split_join] at ht
    simp only [if_pos hb, Round.up.injEq] at ht
    subst ht
    obtain ⟨L₁, e₁, h₁, -⟩ := hsib.setColor .red
    have h₁' := rep_other.2 h₁
    refine ⟨L₁, ?_, h₁', color_join ..⟩
    simp only [blackSibling, Links.deref_some, hsib.cell, Option.bind_eq_bind, Option.bind_some,
      Item.cell_child, Item.cell_child_other, hnear, hfar, hb.1, hb.2, decide_true, Bool.and_self,
      if_true, e₁, h₁'.cell, Item.cell_parent, lock_top h₁', link_join]
  · obtain ⟨L₁, L₂, v, t', e₁, e₂, ht', h₂⟩ := nephew_spec exit h hs hb
    rw [ht] at ht'
    cases ht'

/-- A red nephew: the loop ends at the root. -/
theorem blackSibling_done (h : Rep L none (f :: p) x) (hs : f.other = join f.side k near w far)
    {t : ColorTree (Item K V)} (ht : settle f.side f.color x f.item f.other = .done t) :
    ∃ L', blackSibling exit loop f.side (x.link none) (some f.item.ptr) (some w.ptr) L =
        some (L'.root, L') ∧ Rep L' none p t := by
  have hsib := h.sibling hs
  have hnear := isBlack_link (below_join.1 hsib.below).2.1
  have hfar := isBlack_link (below_join.1 hsib.below).2.2
  have hb : ¬(near.color = .black ∧ far.color = .black) := by
    intro hb
    rw [settle, hs, split_join] at ht
    simp [if_pos hb] at ht
  obtain ⟨L₁, L₂, v, t', e₁, e₂, ht', h₂⟩ := nephew_spec exit h hs hb
  rw [ht] at ht'
  cases ht'
  refine ⟨L₂, ?_, h₂⟩
  have hb' : (decide (near.color = .black) && decide (far.color = .black)) = false := by
    simpa using hb
  simp only [blackSibling, Links.deref_some, hsib.cell, Option.bind_eq_bind, Option.bind_some,
    Item.cell_child, Item.cell_child_other, hnear, hfar, hb', Bool.false_eq_true, if_false, e₁,
    reduceCtorEq, e₂, Option.pure_def]

end BlackSibling

/-- The loop ends at a position whose painting black completes the repair. -/
theorem fixDeleteLoop_spec {p : Trail (Item K V)} {x : ColorTree (Item K V)} {m n : ℕ}
    (h : Rep L none p x) (hp : Short p x m) (hn : p.length + 1 < n) :
    ∃ q y L', fixDeleteLoop exit n (x.link none) (top p) L = some (y.link none, L') ∧
      Rep L' none q y ∧ plug q y.blacken = Lib.fixDelete p x := by
  fun_induction Lib.fixDelete p x generalizing L m n with
  | case1 x =>
    obtain ⟨n, rfl⟩ : ∃ k, n = k + 1 := ⟨n - 1, by omega⟩
    refine ⟨[], x, L, ?_, h, rfl⟩
    rw [fixDeleteLoop, if_pos h.above.symm]; rfl
  | case2 f p x hx =>
    obtain ⟨n, rfl⟩ : ∃ k, n = k + 1 := ⟨n - 1, by omega⟩
    exact ⟨f :: p, x, L, fixDeleteLoop_red exit h hx n _, h, rfl⟩
  | case3 f p x hx near w far hs t ht =>
    obtain ⟨n, rfl⟩ : ∃ k, n = k + 1 := ⟨n - 1, by omega⟩
    have hs' := eq_join_of_split hs
    obtain ⟨k', near', w', far', hn'⟩ := exists_join f.side (hp.red_sibling hs').2.1.ne_nil
    obtain ⟨L₁, e₁, h₁⟩ := fixDeleteLoop_redSibling exit h (Color.ne_red.1 hx) hs' hn' n
    obtain ⟨L₂, e₂, h₂⟩ := blackSibling_done exit (fixDeleteLoop exit n) h₁ hn' ht
    refine ⟨[], plug (⟨f.side, .black, w, far⟩ :: p) t, L₂, ?_, rep_plug.1 h₂, rfl⟩
    rw [top, e₁, e₂, h₂.root]
  | case4 f p x hx near w far hs t ht =>
    simp only [List.length_cons] at hn
    obtain ⟨n, rfl⟩ : ∃ k, n = k + 2 := ⟨n - 2, by omega⟩
    have hs' := eq_join_of_split hs
    obtain ⟨k', near', w', far', hn'⟩ := exists_join f.side (hp.red_sibling hs').2.1.ne_nil
    obtain ⟨L₁, e₁, h₁⟩ := fixDeleteLoop_redSibling exit h (Color.ne_red.1 hx) hs' hn' (n + 1)
    obtain ⟨L₂, e₂, h₂, hc⟩ := blackSibling_up exit (fixDeleteLoop exit (n + 1)) h₁ hn' ht
    refine ⟨⟨f.side, .black, w, far⟩ :: p, t, L₂, ?_, h₂, rfl⟩
    -- the parent has become red, so the next turn is the last
    rw [top, e₁, e₂, fixDeleteLoop_red exit h₂ hc]
  | case5 f p x hx t ht hs =>
    obtain ⟨n, rfl⟩ : ∃ k, n = k + 1 := ⟨n - 1, by omega⟩
    obtain ⟨near, w, far, hs'⟩ := hp.black_sibling hs
    obtain ⟨L₂, e₂, h₂⟩ := blackSibling_done exit (fixDeleteLoop exit n) h hs' ht
    refine ⟨[], plug p t, L₂, ?_, rep_plug.1 h₂, rfl⟩
    rw [top, fixDeleteLoop_blackSibling exit h (Color.ne_red.1 hx) hs', e₂, h₂.root]
  | case6 f p x hx t ht hs ih =>
    simp only [List.length_cons] at hn
    obtain ⟨n, rfl⟩ : ∃ k, n = k + 1 := ⟨n - 1, by omega⟩
    obtain ⟨near, w, far, hs'⟩ := hp.black_sibling hs
    obtain ⟨m', hm'⟩ := hp.up hx hs ht
    obtain ⟨L₂, e₂, h₂, -⟩ := blackSibling_up exit (fixDeleteLoop exit n) h hs' ht
    obtain ⟨q, y, L', e, h', hq⟩ := ih (n := n) h₂ hm' (by omega)
    refine ⟨q, y, L', ?_, h', hq⟩
    rw [top, fixDeleteLoop_blackSibling exit h (Color.ne_red.1 hx) hs', e₂, e]

theorem fixDelete_spec {f : Frame (Item K V)} {p : Trail (Item K V)} {x : ColorTree (Item K V)}
    {m n : ℕ} (h : Rep L none (f :: p) x) (hp : Short (f :: p) x m) (hn : (f :: p).length + 1 < n) :
    ∃ L', fixDelete exit n (x.link none) (some f.item.ptr) L = some L' ∧
      Rep L' none [] (Lib.fixDelete (f :: p) x) := by
  obtain ⟨q, y, L₁, e₁, h₁, hq⟩ := fixDeleteLoop_spec exit h hp hn
  rw [top] at e₁
  have hroot : L.root ≠ none := by
    obtain ⟨r, -, hr⟩ := link_plug_cons none f p x
    rw [h.root, hr]
    simp
  rw [← hq]
  by_cases hy : y = .nil
  · subst hy
    refine ⟨L₁, ?_, rep_plug.1 h₁⟩
    simp only [fixDelete, if_neg hroot, e₁, Option.bind_eq_bind, Option.bind_some, link_nil, if_true,
      Option.pure_def]
  · obtain ⟨c, l, a, r, rfl⟩ := exists_join .left hy
    obtain ⟨L₂, e₂, h₂, -⟩ := h₁.setColor .black
    rw [blacken_join]
    refine ⟨L₂, ?_, rep_plug.1 h₂⟩
    simp only [fixDelete, if_neg hroot, e₁, Option.bind_eq_bind, Option.bind_some, link_join,
      reduceCtorEq, if_false, e₂]

end LearnSpdk.RedBlackTree
