import LearnSpdk.Lib.RedBlackLinks

/-! Rotations as edits of the heap. A tree and its links determine each other on the cells of the
tree, so what a rotation writes is read off the trees before and after it: the cells it touches,
what it leaves there, and that the rotation back restores the heap. -/

namespace Lib

open ColorTree Trail

variable {κ ν : Type}

/-- Among the cells reached from the root, the parent links are the child links turned around. -/
def ParentsInverse (L : Links κ ν) : Prop :=
  ∀ p q, (L.Reach none L.root q ∧ ∃ c, L.heap q = some c ∧ c.parent = some p) ↔
    L.Reach none L.root p ∧ ∃ c d, L.heap p = some c ∧ c.child d = some q

/-- What a cell holds besides its links. -/
def Cell.data (c : Cell κ ν) : κ × ν × Color := (c.key, c.value, c.color)

@[simp] theorem Cell.data_setChild (d : Side) (p : Option Ptr) (c : Cell κ ν) :
    (c.setChild d p).data = c.data := by cases d <;> rfl

@[simp] theorem Cell.data_setParent (p : Option Ptr) (c : Cell κ ν) : (c.setParent p).data = c.data := rfl

/-- `y`, the child of `x` away from side `d`, has taken the place of `x`: what was written to
the cells `c` of `x` and `k` of `y`, to the child of `y` that went over to `x`, and to the cell or
the root that `x` hung from. No other cell was written. -/
structure Turned (d : Side) (x y : Ptr) (c k : Cell κ ν) (L L' : Links κ ν) : Prop where
  down : L.heap x = some c ∧ L'.heap x = some ((c.setChild d.other (k.child d)).setParent (some y))
  up : L.heap y = some k ∧ L'.heap y = some ((k.setChild d (some x)).setParent c.parent)
  inner : ∀ i, k.child d = some i →
    ∃ b, L.heap i = some b ∧ L'.heap i = some (b.setParent (some x))
  outer : ∀ g, c.parent = some g →
    ∃ b e, L.heap g = some b ∧ b.child e = some x ∧ L'.heap g = some (b.setChild e (some y))
  root : L'.root = if L.root = some x then some y else L.root
  rest : ∀ q, q ≠ x → q ≠ y → k.child d ≠ some q → c.parent ≠ some q → L'.heap q = L.heap q

/-- Only links were written. -/
theorem Turned.data {d : Side} {x y : Ptr} {c k : Cell κ ν} {L L' : Links κ ν}
    (h : Turned d x y c k L L') (q : Ptr) : (L'.heap q).map Cell.data = (L.heap q).map Cell.data := by
  by_cases hx : q = x
  · rw [hx, h.down.1, h.down.2]
    simp
  by_cases hy : q = y
  · rw [hy, h.up.1, h.up.2]
    simp
  by_cases hi : k.child d = some q
  · obtain ⟨b, hb, hb'⟩ := h.inner q hi
    rw [hb, hb']
    simp
  by_cases hg : c.parent = some q
  · obtain ⟨b, e, hb, -, hb'⟩ := h.outer q hg
    rw [hb, hb']
    simp
  rw [h.rest q hx hy hi hg]

section
variable {L L' : Links κ ν} {z : Option Ptr} {p : Trail (Item κ ν)} {s t u : ColorTree (Item κ ν)}

/-! ### The tree determines its cells -/

theorem Below.heap_eq {par : Option Ptr} (h : Below L z par t) (h' : Below L' z par t) {q : Ptr}
    (hq : q ∈ t.addrs) : L'.heap q = L.heap q := by
  induction t generalizing par with
  | nil => cases hq
  | node c l a r ihl ihr =>
    simp only [addrs, toList, List.map_append, List.map_cons, List.mem_append, List.mem_cons] at hq
    rcases hq with hq | rfl | hq
    · exact ihl h.2.1 h'.2.1 hq
    · rw [h.1, h'.1]
    · exact ihr h.2.2 h'.2.2 hq

/-- Hung from somewhere else, a tree differs at most in the cell of its root. -/
theorem Below.heap_eq_of_ne {par par' : Option Ptr} (h : Below L z par t) (h' : Below L' z par' t) {q : Ptr}
    (hq : q ∈ t.addrs) (hne : t.link z ≠ some q) : L'.heap q = L.heap q := by
  cases t with
  | nil => cases hq
  | node c l a r =>
    simp only [addrs, toList, List.map_append, List.map_cons, List.mem_append, List.mem_cons] at hq
    rcases hq with hq | rfl | hq
    · exact h.2.1.heap_eq h'.2.1 hq
    · exact absurd rfl hne
    · exact h.2.2.heap_eq h'.2.2 hq

/-- There it differs in the parent link. -/
theorem Below.root_cell {par par' : Option Ptr} (h : Below L none par t) (h' : Below L' none par' t) {q : Ptr}
    (hq : t.link none = some q) : ∃ b, L.heap q = some b ∧ L'.heap q = some (b.setParent par') := by
  cases t with
  | nil => cases hq
  | node c l a r =>
    cases hq
    exact ⟨_, h.1, by rw [h'.1, Item.cell_setParent]⟩

theorem Above.heap_eq {hole : Option Ptr} (h : Above L z p hole) (h' : Above L' z p hole) {q : Ptr}
    (hq : q ∈ around p) : L'.heap q = L.heap q := by
  induction p generalizing hole with
  | nil => cases hq
  | cons f p ih =>
    rw [(around_cons_perm f p).mem_iff, List.mem_cons, List.mem_append] at hq
    rcases hq with rfl | hq | hq
    · rw [h.1, h'.1]
    · exact h.2.1.heap_eq h'.2.1 hq
    · exact ih h.2.2 h'.2.2 hq

/-- With another tree in the hole, at most the parent of the hole differs. -/
theorem Above.heap_eq_of_ne {hole hole' : Option Ptr} (h : Above L z p hole) (h' : Above L' z p hole') {q : Ptr}
    (hq : q ∈ around p) (hne : top p ≠ some q) : L'.heap q = L.heap q := by
  cases p with
  | nil => cases hq
  | cons f p =>
    rw [(around_cons_perm f p).mem_iff, List.mem_cons, List.mem_append] at hq
    rcases hq with rfl | hq | hq
    · exact absurd rfl hne
    · exact h.2.1.heap_eq h'.2.1 hq
    · exact h.2.2.heap_eq h'.2.2 hq

theorem Above.root_eq {hole : Option Ptr} (h : Above L z p hole) (h' : Above L' z p hole) :
    L'.root = L.root := by
  induction p generalizing hole with
  | nil => exact h'.trans h.symm
  | cons f p ih => exact ih h.2.2 h'.2.2

theorem Rep.eq_of_within (h : Rep L z p t) (h' : Rep L' z p t) (hw : Within L L' p t) : L' = L := by
  have hheap : L'.heap = L.heap := by
    funext q
    by_cases hq : q ∈ t.addrs ++ around p
    · rcases List.mem_append.1 hq with hq | hq
      · exact h.below.heap_eq h'.below hq
      · exact h.above.heap_eq h'.above hq
    · exact hw q hq
  have hroot := h.above.root_eq h'.above
  cases L
  cases L'
  cases hheap
  cases hroot
  rfl

/-! ### Rotations -/

section Turn
variable {d : Side} {c k : Color} {a b : Item κ ν}

/-- The two trees of a rotation have the same cells. -/
theorem mem_addrs_rotate (q : Ptr) : q ∈ (join d k (join d c s a t) b u).addrs ++ around p ↔
    q ∈ (join d c s a (join d k t b u)).addrs ++ around p := by
  rw [(addrs_join_join_perm_left d d c k s t u a b (around p)).mem_iff,
    (addrs_join_join_perm d d c k s t u a b (around p)).mem_iff]

theorem Rep.rotate_back (h : Rep L z p (join d c s a (join d k t b u)))
    (e : L.rotate z d (some a.ptr) = some L') : L'.rotate z d.other (some b.ptr) = some L := by
  obtain ⟨L₁, e₁, h₁, hw₁⟩ := h.rotate
  cases e.symm.trans e₁
  rw [← join_other d k, ← join_other d c] at h₁
  obtain ⟨L₂, e₂, h₂, hw₂⟩ := h₁.rotate
  rw [join_other, join_other] at h₂ hw₂
  have hw : Within L L₂ p (join d c s a (join d k t b u)) := by
    intro q hq
    rw [hw₂ q (by rw [mem_addrs_rotate]; exact hq), hw₁ q hq]
  rw [e₂, h.eq_of_within h₂ hw]

theorem Rep.turned (h : Rep L none p (join d c s a (join d k t b u)))
    (h' : Rep L' none p (join d k (join d c s a t) b u))
    (hw : Within L L' p (join d c s a (join d k t b u))) :
    Turned d a.ptr b.ptr (a.cell d c (s.link none) (some b.ptr) (top p))
      (b.cell d k (t.link none) (u.link none) (some a.ptr)) L L' := by
  obtain ⟨hca, hs, hb⟩ := below_join.1 h.below
  obtain ⟨hcb, ht, hu⟩ := below_join.1 hb
  obtain ⟨hcb', ha', hu'⟩ := below_join.1 h'.below
  obtain ⟨hca', hs', ht'⟩ := below_join.1 ha'
  rw [link_join] at hca hcb'
  have habove := h.above
  have habove' := h'.above
  rw [link_join] at habove habove'
  refine ⟨⟨hca, ?_⟩, ⟨hcb, ?_⟩, ?_, ?_, ?_, ?_⟩
  · rw [hca', Item.cell_child, Item.cell_setChild_other, Item.cell_setParent]
  · rw [hcb', Item.cell_setChild, Item.cell_setParent, Item.cell_parent]
  · intro i hi
    rw [Item.cell_child] at hi
    exact ht.root_cell ht' hi
  · intro g hg
    rw [Item.cell_parent] at hg
    cases p with
    | nil => cases hg
    | cons f p =>
      cases hg
      exact ⟨_, f.side, habove.1, Item.cell_child .., by rw [habove'.1, Item.cell_setChild]⟩
  · cases p with
    | nil =>
      have hroot : L.root = some a.ptr := habove
      rw [if_pos hroot]
      exact habove'
    | cons f p =>
      have hne := h.ne_root
      rw [link_join] at hne
      rw [if_neg fun e => hne e.symm]
      exact habove.2.2.root_eq habove'.2.2
  · intro q hqa hqb hi hg
    rw [Item.cell_child] at hi
    rw [Item.cell_parent] at hg
    by_cases hq : q ∈ (join d c s a (join d k t b u)).addrs ++ around p
    · rw [(addrs_join_join_perm d d c k s t u a b (around p)).mem_iff] at hq
      simp only [List.mem_cons, List.mem_append] at hq
      rcases hq with hq | hq | hq | hq | hq | hq
      · exact absurd hq hqa
      · exact absurd hq hqb
      · exact hs.heap_eq hs' hq
      · exact ht.heap_eq_of_ne ht' hq hi
      · exact hu.heap_eq hu' hq
      · exact habove.heap_eq_of_ne habove' hq hg
    · exact hw q hq

end Turn

/-! ### Parent links -/

/-- A child link stays in the tree and never leads to its root. -/
theorem Hangs.child_mem {p q : Ptr} {b : Cell κ ν} {d : Side} (h : Hangs L none t) (hn : t.addrs.Nodup)
    (hp : p ∈ t.addrs) (hb : L.heap p = some b) (hd : b.child d = some q) :
    q ∈ t.addrs ∧ t.link none ≠ some q := by
  induction t with
  | nil => cases hp
  | node c l a r ihl ihr =>
    obtain ⟨⟨par, ha⟩, hl, hr⟩ := h
    have hperm := addrs_node_perm c l a r
    rw [hperm.nodup_iff, List.nodup_cons, List.nodup_append'] at hn
    obtain ⟨han, hln, hrn, -⟩ := hn
    have hq : q ∈ l.addrs ++ r.addrs := by
      rw [hperm.mem_iff, List.mem_cons, List.mem_append] at hp
      rw [List.mem_append]
      rcases hp with rfl | hp | hp
      · cases hb.symm.trans ha
        cases d
        · exact .inl (mem_addrs_of_link hd (by simp))
        · exact .inr (mem_addrs_of_link hd (by simp))
      · exact .inl (ihl hl hln hp).1
      · exact .inr (ihr hr hrn hp).1
    refine ⟨hperm.mem_iff.2 (List.mem_cons_of_mem _ hq), ?_⟩
    intro e
    cases e
    exact han hq

theorem Hangs.below {par : Option Ptr} (h : Hangs L none t)
    (hroot : ∀ q b, t.link none = some q → L.heap q = some b → b.parent = par)
    (hchild : ∀ p ∈ t.addrs, ∀ b d q b', L.heap p = some b → b.child d = some q → L.heap q = some b' →
      b'.parent = some p) : Below L none par t := by
  induction t generalizing par with
  | nil => trivial
  | node c l a r ihl ihr =>
    obtain ⟨⟨par', ha⟩, hl, hr⟩ := h
    have hpar := hroot a.ptr _ rfl ha
    rw [Item.cell_parent] at hpar
    rw [hpar] at ha
    simp only [(addrs_node_perm c l a r).mem_iff, List.mem_cons, List.mem_append] at hchild
    refine ⟨ha, ihl hl ?_ ?_, ihr hr ?_ ?_⟩
    · exact fun q b hq hb => hchild a.ptr (.inl rfl) _ .left q b ha hq hb
    · exact fun p hp => hchild p (.inr (.inl hp))
    · exact fun q b hq hb => hchild a.ptr (.inl rfl) _ .right q b ha hq hb
    · exact fun p hp => hchild p (.inr (.inr hp))

/-- A tree of child links with inverse parent links is a linked tree. -/
theorem ParentsInverse.rep (hp : ParentsInverse L) (hroot : L.root = t.link none) (h : Hangs L none t)
    (hn : t.addrs.Nodup) : Rep L none [] t := by
  have hreach (q : Ptr) : L.Reach none L.root q ↔ q ∈ t.addrs := by
    rw [hroot]
    exact reach_iff h (fun q _ => Option.some_ne_none q) q
  have hbelow : Below L none none t := by
    apply h.below
    · intro q b hq hb
      by_contra hne
      obtain ⟨g, hg⟩ := Option.ne_none_iff_exists'.1 hne
      have hqt : q ∈ t.addrs := mem_addrs_of_link hq (by simp)
      obtain ⟨hgt, b', d, hb', hd⟩ := (hp g q).1 ⟨(hreach q).2 hqt, b, hb, hg⟩
      exact (h.child_mem hn ((hreach g).1 hgt) hb' hd).2 hq
    · intro p hpt b d q b' hb hd hb'
      obtain ⟨-, b'', hb'', hpar⟩ := (hp p q).2 ⟨(hreach p).2 hpt, b, d, hb, hd⟩
      cases hb'.symm.trans hb''
      exact hpar
  exact ⟨hroot, hbelow, by simpa using hn, fun q _ => Option.some_ne_none q⟩

theorem Rep.parentsInverse (h : Rep L none [] t) : ParentsInverse L := by
  intro p q
  rw [h.reach_root, h.reach_root]
  refine ⟨?_, ?_⟩
  · rintro ⟨hq, b, hb, hpar⟩
    obtain ⟨b', d, hp, hb', hd⟩ := h.parent_mem hq hb hpar
    exact ⟨hp, b', d, hb', hd⟩
  · rintro ⟨hp, b, d, hb, hd⟩
    rcases h.child_mem hp hb d with hnil | ⟨q', b', hq', hmem, hb', hpar⟩
    · cases hnil.symm.trans hd
    · cases hq'.symm.trans hd
      exact ⟨hmem, b', hb', hpar⟩

end

end Lib
