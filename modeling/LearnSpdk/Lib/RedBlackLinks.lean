import LearnSpdk.Lib.LinkedTree
import LearnSpdk.Lib.SearchTree

/-! The red-black conditions read off the cells themselves: what can be reached
from the root, what its cells hold, and the number of black cells on the ways
down. Links that spell a red-black search tree satisfy them. -/

namespace Lib

open ColorTree Trail

variable {κ ν : Type} {L : Links κ ν} {z : Option Ptr}

/-- The cell at `q` is reached by going down from the link. -/
inductive Links.Reach (L : Links κ ν) (z : Option Ptr) : Option Ptr → Ptr → Prop
  | here {p : Ptr} : some p ≠ z → Reach L z (some p) p
  | down {p q : Ptr} {c : Cell κ ν} (d : Side) : some p ≠ z → L.heap p = some c →
      Reach L z (c.child d) q → Reach L z (some p) q

/-- Some way down from the link to a missing child passes `n` black cells. -/
inductive Links.Blacks (L : Links κ ν) (z : Option Ptr) : Option Ptr → ℕ → Prop
  | leaf : Blacks L z z 0
  | down {p : Ptr} {c : Cell κ ν} {n : ℕ} (d : Side) : some p ≠ z → L.heap p = some c →
      Blacks L z (c.child d) n → Blacks L z (some p) (n + c.color.weight)

structure RedBlackLinks [LinearOrder κ] (L : Links κ ν) (z : Option Ptr) : Prop where
  root : L.root = z ∨
    ∃ p c, L.root = some p ∧ L.heap p = some c ∧ c.color = .black ∧ c.parent = none
  live : ∀ p, L.Reach z L.root p → ∃ c, L.heap p = some c
  red : ∀ p c, L.Reach z L.root p → L.heap p = some c → c.color = .red →
    ∀ d q c', c.child d = some q → some q ≠ z → L.heap q = some c' → c'.color = .black
  blacks : ∃ n, ∀ m, L.Blacks z L.root m ↔ m = n
  search : ∀ p c, L.Reach z L.root p → L.heap p = some c → ∀ q c', L.heap q = some c' →
    (L.Reach z c.left q → c'.key < c.key) ∧ (L.Reach z c.right q → c.key < c'.key)
  child : ∀ p c, L.Reach z L.root p → L.heap p = some c → ∀ d, c.child d = z ∨
    ∃ q c', c.child d = some q ∧ L.Reach z L.root q ∧ L.heap q = some c' ∧ c'.parent = some p
  parent : ∀ q c', L.Reach z L.root q → L.heap q = some c' → ∀ p, c'.parent = some p →
    ∃ c d, L.Reach z L.root p ∧ L.heap p = some c ∧ c.child d = some q

theorem not_reach_missing (q : Ptr) : ¬L.Reach z z q := by
  intro h
  cases h with
  | here hne => exact hne rfl
  | down d hne => exact hne rfl

theorem reach_some {p q : Ptr} {c : Cell κ ν} (hp : some p ≠ z) (hc : L.heap p = some c) :
    L.Reach z (some p) q ↔ q = p ∨ ∃ d, L.Reach z (c.child d) q := by
  refine ⟨?_, ?_⟩
  · intro h
    cases h with
    | here => exact .inl rfl
    | down d hne hc' h =>
      cases hc.symm.trans hc'
      exact .inr ⟨d, h⟩
  · rintro (rfl | ⟨d, h⟩)
    · exact .here hp
    · exact .down d hp hc h

theorem blacks_missing (m : ℕ) : L.Blacks z z m ↔ m = 0 := by
  refine ⟨?_, ?_⟩
  · intro h
    cases h with
    | leaf => rfl
    | down d hne => exact absurd rfl hne
  · rintro rfl
    exact .leaf

theorem blacks_some {p : Ptr} {c : Cell κ ν} (hp : some p ≠ z) (hc : L.heap p = some c) (m : ℕ) :
    L.Blacks z (some p) m ↔ ∃ d n, L.Blacks z (c.child d) n ∧ m = n + c.color.weight := by
  refine ⟨?_, ?_⟩
  · intro h
    generalize hx : some p = x at h
    cases h with
    | leaf => exact absurd hx hp
    | down d hne hc' h =>
      cases hx
      cases hc.symm.trans hc'
      exact ⟨d, _, h, rfl⟩
  · rintro ⟨d, n, h, rfl⟩
    exact .down d hp hc h

theorem reach_iff {t : ColorTree (Item κ ν)} (h : Hangs L z t) (hz : ∀ q ∈ t.addrs, some q ≠ z) (q : Ptr) :
    L.Reach z (t.link z) q ↔ q ∈ t.addrs := by
  induction t with
  | nil => exact iff_of_false (not_reach_missing q) List.not_mem_nil
  | node c l a r ihl ihr =>
    obtain ⟨⟨par, ha⟩, hl, hr⟩ := h
    simp only [addrs, toList, List.map_append, List.map_cons, List.mem_append, List.mem_cons] at hz ⊢
    have hl' := ihl hl fun q hq => hz q (.inl hq)
    have hr' := ihr hr fun q hq => hz q (.inr (.inr hq))
    rw [link_node, reach_some (hz a.ptr (.inr (.inl rfl))) ha]
    refine ⟨?_, ?_⟩
    · rintro (hq | ⟨_ | _, hq⟩)
      · exact .inr (.inl hq)
      · exact .inl (hl'.1 hq)
      · exact .inr (.inr (hr'.1 hq))
    · rintro (hq | hq | hq)
      · exact .inr ⟨.left, hl'.2 hq⟩
      · exact .inl hq
      · exact .inr ⟨.right, hr'.2 hq⟩

theorem blacks_iff {par : Option Ptr} {t : ColorTree (Item κ ν)} {n : ℕ} (h : Below L z par t)
    (hz : ∀ q ∈ t.addrs, some q ≠ z) (ht : Balanced t n) (m : ℕ) :
    L.Blacks z (t.link z) m ↔ m = n := by
  induction t generalizing par n m with
  | nil =>
    rw [balanced_nil] at ht
    rw [ht]
    exact blacks_missing m
  | node c l a r ihl ihr =>
    obtain ⟨ha, hl, hr⟩ := h
    simp only [addrs, toList, List.map_append, List.map_cons, List.mem_append, List.mem_cons] at hz
    obtain ⟨k, rfl, hlk, hrk⟩ : ∃ k, n = k + c.weight ∧ Balanced l k ∧ Balanced r k := by
      cases c with
      | red => exact ⟨n, rfl, ht.2.2.1, ht.2.2.2⟩
      | black => exact ht
    have hl' := ihl hl (fun q hq => hz q (.inl hq)) hlk
    have hr' := ihr hr (fun q hq => hz q (.inr (.inr hq))) hrk
    rw [link_node, blacks_some (hz a.ptr (.inr (.inl rfl))) ha]
    refine ⟨?_, ?_⟩
    · rintro ⟨_ | _, n, hn, rfl⟩
      · rw [(hl' n).1 hn]; rfl
      · rw [(hr' n).1 hn]; rfl
    · rintro rfl
      exact ⟨.left, k, (hl' k).2 rfl, rfl⟩

/-- Any node of a tree can be brought into focus. -/
theorem exists_focus {t : ColorTree (Item κ ν)} {q : Ptr} (h : q ∈ t.addrs) :
    ∃ p c l a r, plug p (.node c l a r) = t ∧ a.ptr = q := by
  induction t with
  | nil => cases h
  | node c l a r ihl ihr =>
    simp only [addrs, toList, List.map_append, List.map_cons, List.mem_append, List.mem_cons] at h
    rcases h with h | rfl | h
    · obtain ⟨p, c', l', a', r', rfl, hq⟩ := ihl h
      refine ⟨p ++ [⟨.left, c, a, r⟩], c', l', a', r', ?_, hq⟩
      rw [plug_append]; rfl
    · exact ⟨[], c, l, a, r, rfl, rfl⟩
    · obtain ⟨p, c', l', a', r', rfl, hq⟩ := ihr h
      refine ⟨p ++ [⟨.right, c, a, l⟩], c', l', a', r', ?_, hq⟩
      rw [plug_append]; rfl

variable {t : ColorTree (Item κ ν)}

theorem Rep.reach_root (h : Rep L z [] t) (q : Ptr) : L.Reach z L.root q ↔ q ∈ t.addrs := by
  have hroot : L.root = t.link z := h.above
  rw [hroot]
  exact reach_iff h.below.hangs (fun q hq => h.real q (List.mem_append_left _ hq)) q

/-- What is known of a cell of the tree: its place in it. -/
theorem Rep.of_mem (h : Rep L z [] t) (d : Side) {q : Ptr} (hq : q ∈ t.addrs) :
    ∃ p c x a y, plug p (join d c x a y) = t ∧ a.ptr = q ∧ Rep L z p (join d c x a y) ∧
      L.heap q = some (a.cell d c (x.link z) (y.link z) (top p)) := by
  obtain ⟨p, c, l, a, r, hplug, rfl⟩ := exists_focus hq
  obtain ⟨c', x, b, y, hj⟩ := exists_join d (node_ne_nil c l a r)
  have hb : b = a := by
    cases d <;> cases hj <;> rfl
  subst hb
  rw [hj] at hplug
  have hrep : Rep L z p (join d c' x b y) := by rw [rep_plug, hplug]; exact h
  exact ⟨p, c', x, b, y, hplug, rfl, hrep, hrep.cell⟩

theorem mem_addrs_of_focus {p : Trail (Item κ ν)} {d : Side} {c : Color} {x y : ColorTree (Item κ ν)}
    {a : Item κ ν} : a.ptr ∈ (plug p (join d c x a y)).addrs := by
  have hperm := addrs_append_perm p [] (join d c x a y)
  have hempty : around ([] : Trail (Item κ ν)) = [] := rfl
  rw [List.append_nil, hempty, List.append_nil] at hperm
  exact hperm.mem_iff.1 (List.mem_append_left _ ((addrs_join_perm ..).mem_iff.2 List.mem_cons_self))

/-- A child that is there has its parent link right. -/
theorem Rep.child_cell {p : Trail (Item κ ν)} {d : Side} {c : Color} {x y : ColorTree (Item κ ν)}
    {a : Item κ ν} (h : Rep L z p (join d c x a y)) (hx : x ≠ .nil) :
    ∃ b cell, x.link z = some b ∧ b ∈ (plug p (join d c x a y)).addrs ∧ L.heap b = some cell ∧
      cell.color = x.color ∧ cell.parent = some a.ptr := by
  obtain ⟨c', l, b, r, rfl⟩ := exists_join .left hx
  have hdown : Rep L z (⟨d, c, a, y⟩ :: p) (join .left c' l b r) := rep_cons.2 h
  refine ⟨b.ptr, _, link_join .., ?_, hdown.cell, by rw [Item.cell_color, color_join], Item.cell_parent ..⟩
  exact mem_addrs_of_focus (p := ⟨d, c, a, y⟩ :: p)

/-- A child link leads to a cell of the tree whose parent link leads back. -/
theorem Rep.child_mem (h : Rep L z [] t) {p : Ptr} {cell : Cell κ ν} (hp : p ∈ t.addrs)
    (hc : L.heap p = some cell) (d : Side) : cell.child d = z ∨
      ∃ q cell', cell.child d = some q ∧ q ∈ t.addrs ∧ L.heap q = some cell' ∧ cell'.parent = some p := by
  obtain ⟨p', c, x, a, y, hplug, rfl, hrep, hcell⟩ := h.of_mem d hp
  cases hc.symm.trans hcell
  rw [Item.cell_child]
  by_cases hx : x = .nil
  · exact .inl (by rw [hx]; rfl)
  · obtain ⟨b, cb, hb, hmem, hcb, -, hpar⟩ := hrep.child_cell hx
    rw [hplug] at hmem
    exact .inr ⟨b, cb, hb, hmem, hcb, hpar⟩

/-- A parent link leads to a cell of the tree with a child link back. -/
theorem Rep.parent_mem (h : Rep L z [] t) {q p : Ptr} {cell : Cell κ ν} (hq : q ∈ t.addrs)
    (hc : L.heap q = some cell) (hp : cell.parent = some p) :
    ∃ cell' d, p ∈ t.addrs ∧ L.heap p = some cell' ∧ cell'.child d = some q := by
  obtain ⟨p', c, x, a, y, hplug, rfl, hrep, hcell⟩ := h.of_mem .left hq
  cases hc.symm.trans hcell
  rw [Item.cell_parent] at hp
  cases p' with
  | nil => cases hp
  | cons f p' =>
    cases hp
    refine ⟨_, f.side, ?_, hrep.parent_cell, ?_⟩
    · rw [← hplug]
      exact mem_addrs_plug f p' _
    · rw [Item.cell_child, link_join]

theorem Below.key_of_reach {par : Option Ptr} (h : Below L z par t)
    (hz : ∀ q ∈ t.addrs, some q ≠ z) {q : Ptr} {cell : Cell κ ν} (hq : L.Reach z (t.link z) q)
    (hc : L.heap q = some cell) : ∃ b ∈ t.toList, cell.key = b.key := by
  rw [reach_iff h.hangs hz] at hq
  induction t generalizing par with
  | nil => cases hq
  | node c l a r ihl ihr =>
    obtain ⟨ha, hl, hr⟩ := h
    simp only [addrs, toList, List.map_append, List.map_cons, List.mem_append, List.mem_cons] at hz hq ⊢
    rcases hq with hq | rfl | hq
    · obtain ⟨b, hb, hk⟩ := ihl hl (fun q hq => hz q (.inl hq)) hq
      exact ⟨b, .inl hb, hk⟩
    · rw [ha, Option.some_inj] at hc
      exact ⟨a, .inr (.inl rfl), by rw [← hc, Item.cell_key]⟩
    · obtain ⟨b, hb, hk⟩ := ihr hr (fun q hq => hz q (.inr (.inr hq))) hq
      exact ⟨b, .inr (.inr hb), hk⟩

/-- The node that was removed is not among those left. -/
theorem Rep.removed_notMem {p : Trail (Item κ ν)} {c : Color} {l r : ColorTree (Item κ ν)} {a : Item κ ν}
    (h : Rep L z p (.node c l a r)) :
    a.ptr ∉ (removeHole p (.node c l a r)).addrs ++ around ([] : Trail (Item κ ν)) := by
  have hfresh := h.root_fresh (d := .left)
  rw [removeHole, addrs, toList_mend, toList_splice]
  simpa [around, Trail.before, Trail.after, addrs, and_assoc, or_assoc, and_left_comm] using hfresh

variable [LinearOrder κ]

/-- The keys on the two sides of a node in focus. -/
theorem key_lt_of_focus {p : Trail (Item κ ν)} {c : Color} {l r : ColorTree (Item κ ν)}
    {a : Item κ ν} (h : Increasing Item.key (plug p (.node c l a r)).toList) :
    (∀ b ∈ l.toList, b.key < a.key) ∧ ∀ b ∈ r.toList, a.key < b.key := by
  rw [toList_plug, Increasing, List.pairwise_append] at h
  have hmid := (List.pairwise_append.1 h.2.1).1
  rw [toList, List.pairwise_append, List.pairwise_cons] at hmid
  exact ⟨fun b hb => hmid.2.2 b hb a List.mem_cons_self, hmid.2.1.1⟩

theorem Rep.redBlackLinks (h : Rep L z [] t) (hrb : IsRedBlack t)
    (hinc : Increasing Item.key t.toList) : RedBlackLinks L z where
  root := by
    have hroot : L.root = t.link z := h.above
    cases t with
    | nil => exact .inl hroot
    | node c l a r =>
      refine .inr ⟨a.ptr, _, hroot, h.below.1, ?_, Item.cell_parent ..⟩
      rw [Item.cell_color]
      exact hrb.1
  live := by
    intro p hp
    obtain ⟨p', c, x, a, y, -, -, -, hc⟩ := h.of_mem .left ((h.reach_root p).1 hp)
    exact ⟨_, hc⟩
  red := by
    intro p cell hp hc hred d q cell' hd hq hc'
    obtain ⟨p', c, x, a, y, hplug, rfl, hrep, hcell⟩ := h.of_mem d ((h.reach_root p).1 hp)
    cases hc.symm.trans hcell
    rw [Item.cell_color] at hred
    subst hred
    rw [Item.cell_child] at hd
    have hx : x ≠ .nil := by
      rintro rfl
      exact hq hd.symm
    rw [← hplug] at hrb
    obtain ⟨n, hn, -⟩ := hrb.focus
    obtain ⟨b, cb, hb, -, hcb, hcol, -⟩ := hrep.child_cell hx
    cases hb.symm.trans hd
    cases hc'.symm.trans hcb
    rw [hcol]
    exact (balanced_red.1 hn).1
  blacks := by
    have hroot : L.root = t.link z := h.above
    obtain ⟨n, hn⟩ := hrb.2
    rw [hroot]
    exact ⟨n, blacks_iff h.below (fun q hq => h.real q (List.mem_append_left _ hq)) hn⟩
  search := by
    intro p cell hp hc q cell' hc'
    obtain ⟨p', c, l, a, r, hplug, rfl, hrep, hcell⟩ := h.of_mem .left ((h.reach_root p).1 hp)
    cases hc.symm.trans hcell
    rw [← hplug] at hinc
    have hkeys := key_lt_of_focus hinc
    have hreal := hrep.real
    rw [Item.cell_left, Item.cell_right, Item.cell_key]
    simp only [join, addrs, toList, List.map_append, List.map_cons, List.mem_append, List.mem_cons] at hreal
    refine ⟨?_, ?_⟩
    · intro hq
      obtain ⟨b, hb, hk⟩ := hrep.below.2.1.key_of_reach (fun q hq => hreal q (.inl (.inl hq))) hq hc'
      rw [hk]
      exact hkeys.1 b hb
    · intro hq
      obtain ⟨b, hb, hk⟩ := hrep.below.2.2.key_of_reach (fun q hq => hreal q (.inl (.inr (.inr hq)))) hq hc'
      rw [hk]
      exact hkeys.2 b hb
  child := by
    intro p cell hp hc d
    simp only [h.reach_root] at hp ⊢
    exact h.child_mem hp hc d
  parent := by
    intro q cell hq hc p hp
    simp only [h.reach_root] at hq ⊢
    exact h.parent_mem hq hc hp

end Lib
