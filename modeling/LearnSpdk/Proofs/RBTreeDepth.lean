import LearnSpdk.Lib.LessDefined
import LearnSpdk.Proofs.RBTreeRuns

/-! The loops of `RBTree` take no more turns than the tree is high, and the height is logarithmic
in the number of keys. -/

namespace LearnSpdk.RBTree

open Lib

variable {T : Type} {L : Links T T} {nil : Ptr} {n m : ℕ}

open ColorTree Trail

/-! ### A loop with more turns -/

section More
variable (nil) (check : Check)

theorem insertFixupLoop_more (h : n ≤ m) (z : Option Ptr) (L : Links T T) :
    LessDefined (insertFixupLoop nil check n z L) (insertFixupLoop nil check m z L) := by
  induction n generalizing m z L with
  | zero => exact .none
  | succ n ih =>
    obtain ⟨m, rfl⟩ : ∃ k, m = k + 1 := ⟨m - 1, by omega⟩
    have hmore := ih (Nat.le_of_succ_le_succ h)
    unfold insertFixupLoop
    refine .next fun parent => .ite .rfl ?_
    refine .next fun c => .ite .rfl ?_
    refine .next fun grandparent => .next fun g => .next fun g' => .next fun red => .ite ?_ ?_
    · exact .next fun L₁ => .next fun L₂ => .next fun L₃ => .ite .rfl (hmore _ L₃)
    · exact .next fun r => .ite .rfl (hmore r.1 r.2)

theorem insertFixup_more (h : n ≤ m) (z : Option Ptr) (L : Links T T) :
    LessDefined (insertFixup nil check n z L) (insertFixup nil check m z L) :=
  (insertFixupLoop_more nil check h z L).bind fun _ => .rfl

theorem deleteFixupLoop_more (h : n ≤ m) (x : Option Ptr) (L : Links T T) :
    LessDefined (deleteFixupLoop nil check n x L) (deleteFixupLoop nil check m x L) := by
  induction n generalizing m x L with
  | zero => exact .none
  | succ n ih =>
    obtain ⟨m, rfl⟩ : ∃ k, m = k + 1 := ⟨m - 1, by omega⟩
    have hmore := ih (Nat.le_of_succ_le_succ h)
    unfold deleteFixupLoop
    refine .ite .rfl (.next fun c => .ite .rfl ?_)
    refine .next fun parent => .next fun c => .next fun _ => .next fun c' => .next fun _ => ?_
    exact .next fun r => .next fun r' => hmore r'.1 r'.2

theorem repair_more (h : n ≤ m) (original : Color) (x : Option Ptr) (L : Links T T) :
    LessDefined (repair nil check n original x L) (repair nil check m original x L) := by
  unfold repair deleteFixup
  exact .ite ((deleteFixupLoop_more nil check h x L).bind fun _ => .rfl) .rfl

end More

theorem unlink_eq {p : Trail (Item T T)} {c : Color} {l r : ColorTree (Item T T)} {a : Item T T}
    (h : Rep L (some nil) p (.node c l a r)) (hn : r.height < n) (hm : r.height < m) :
    unlink nil n (some a.ptr) L = unlink nil m (some a.ptr) L := by
  have ha : L.heap a.ptr = _ := h.cell (d := .left)
  simp only [unlink, Links.deref_some, ha, Option.bind_eq_bind, Option.bind_some, Item.cell_left, Item.cell_right]
  by_cases hr : r = .nil
  · subst hr
    simp only [link_nil, if_true]
  · have hdown : Rep L (some nil) (⟨.right, c, a, l⟩ :: p) r := rep_cons.2 h
    obtain ⟨b, -, hb, e, -⟩ := outermost_spec .left hdown hr hn
    obtain ⟨b', -, hb', e', -⟩ := outermost_spec .left hdown hr hm
    obtain rfl : b = b' := Option.some.inj (hb.symm.trans hb')
    rw [minimum, minimum, e, e']

/-! ### The operations -/

section Operations
variable [LinearOrder T] [Inhabited T] {t : RBTree T} {S : ColorTree (Item T T)}

theorem insertWith_eq (k v : T) (h : Stores t S) (hn : S.height < n) (hm : S.height < m) :
    insertWith .off n k v t = insertWith .off m k v t := by
  simp only [insertWith, h.searchNode k hn, h.searchNode k hm]
  rcases hloc : locate Item.key k [] S with ⟨p, _ | ⟨c, l, a, r⟩⟩
  swap
  · -- the key is there
    have hne : some a.ptr ≠ some t.nil := (h.focus hloc).rep.node.1
    simp [hne]
  simp only [h.descend hloc hn, h.descend hloc hm]
  rcases p with _ | ⟨f, p⟩
  · have hparent : parentOf (some t.next) { t.links.put t.next ⟨k, v, .red, some t.nil, some t.nil, none⟩ with
        root := some t.next } = some none := by
      rw [parentOf, Links.deref_some, Links.put_heap_self]
      rfl
    simp only [top, link_nil, Option.bind_eq_bind, Option.bind_some, ne_eq, not_true_eq_false, false_and, if_false,
      if_true, hparent]
  have hplug := plug_of_locate hloc
  have hheld := h.focus hloc
  have hbetween := between_locate_nil (k := k) h.increasing
  rw [hloc] at hbetween
  have hfresh : t.next ∉ around (f :: p) := by
    intro hmem
    have haddr := mem_addrs_of_around hmem .nil
    rw [hplug] at haddr
    exact absurd (h.fresh _ haddr) (lt_irrefl _)
  have hne : t.next ≠ t.nil := h.nil_lt.ne'
  obtain ⟨L₁, e₁, h₁, hf₁⟩ := hheld.rep.attach (a := ⟨t.next, k, v⟩) hfresh (by simpa using hne)
  have hheld₁ : Held t.nil none L₁ (f :: p) (join .left .red .nil ⟨t.next, k, v⟩ .nil) := by
    refine ⟨h₁, ?_⟩
    rw [hf₁ t.nil (fun hm => hheld.nil_notMem (List.mem_append_right _ hm)) hne.symm, hheld.sentinel]
  obtain ⟨b, -, hp⟩ := (hplug ▸ h.redBlack).focus
  have hlen : (f :: p).length ≤ S.height := hplug ▸ length_le_height (f :: p) .nil
  obtain ⟨L₂, e₂, -⟩ := insertFixup_spec .off hheld₁ (by simp) hp (Nat.lt_succ_self _)
  have heq := (insertFixup_more t.nil .off (Nat.succ_le_of_lt (hlen.trans_lt hn)) _ L₁).eq
    (insertFixup_more t.nil .off (Nat.succ_le_of_lt (hlen.trans_lt hm)) _ L₁) e₂
  have hfn : f.item.ptr ≠ t.next := fun e => hfresh (e ▸ mem_around_of_top rfl)
  simp only [Item.cell] at e₁
  rw [← side_of_between hbetween] at e₁
  rw [link_join] at heq
  simp only [top, link_nil, Option.bind_eq_bind, Option.bind_some, ne_eq, not_true_eq_false, false_and, if_false,
    reduceCtorEq, Links.deref_some, Links.put_heap_of_ne _ _ hfn, hheld.rep.parent_cell, Item.cell_key, e₁, heq]

theorem removeWith_eq (k : T) (h : Stores t S) (hn : S.height < n) (hm : S.height < m) :
    removeWith .off n k t = removeWith .off m k t := by
  simp only [removeWith, h.searchNode k hn, h.searchNode k hm]
  rcases hloc : locate Item.key k [] S with ⟨p, _ | ⟨c, l, a, r⟩⟩
  · rfl
  · have hplug := plug_of_locate hloc
    have hheld := h.focus hloc
    have hheight := length_add_height_le p (.node c l a r)
    have hsplice := length_splice_lt_height p c l a r
    rw [hplug, ColorTree.height] at hheight
    rw [hplug] at hsplice
    obtain ⟨par, L₁, e₁, h₁, hpar⟩ := unlink_spec hheld (show r.height < n by omega)
    have e₁' := (unlink_eq hheld.rep (show r.height < m by omega) (by omega)).trans e₁
    obtain ⟨-, hblack⟩ := splice_spec (hplug ▸ h.redBlack)
    obtain ⟨L₂, e₂, -⟩ := repair_spec .off _ h₁ hpar hblack (Nat.lt_succ_self _)
    have heq := (repair_more t.nil .off (show _ ≤ n by omega) _ _ L₁).eq
      (repair_more t.nil .off (show _ ≤ m by omega) _ _ L₁) e₂
    simp only [Option.bind_eq_bind, Option.bind_some, link_node, e₁, e₁', Check.off_run, heq]

theorem getWith_eq (k : T) (h : Stores t S) (hn : S.height < n) (hm : S.height < m) :
    getWith n k t = getWith m k t := by
  rw [getWith, getWith, h.searchNode k hn, h.searchNode k hm]

/-- After every run of calls each loop of the next `insert`, `remove` or `get` is over after a
number of turns that is logarithmic in the number of keys. -/
theorem run_turns_logarithmic (ops : List (Op T)) :
    ∃ t, run ops = some t ∧ ∀ n, 2 * Nat.log 2 ({k | reference ops k ≠ none}.ncard + 1) < n →
      (∀ k v, ∃ t', insertWith .off n k v t = some t' ∧ insert k v t = some t') ∧
      (∀ k, ∃ t', removeWith .off n k t = some t' ∧ remove k t = some t') ∧
      ∀ k, ∃ r, getWith n k t = some r ∧ get k t = some r := by
  obtain ⟨t, S, e, h, hm⟩ := run_spec ops
  refine ⟨t, e, fun n hn => ?_⟩
  rw [hm.ncard, pairs, List.length_map] at hn
  have hheight : S.height < n := h.redBlack.height_le.trans_lt hn
  refine ⟨fun k v => ?_, fun k => ?_, fun k => ?_⟩
  · obtain ⟨t', e', -⟩ := insertWith_spec .off k v h
    exact ⟨t', (insertWith_eq k v h hheight h.height_lt_fuel).trans e', e'⟩
  · obtain ⟨t', e', -⟩ := removeWith_spec .off k h
    exact ⟨t', (removeWith_eq k h hheight h.height_lt_fuel).trans e', e'⟩
  · exact ⟨_, (getWith_eq k h hheight h.height_lt_fuel).trans (h.get k), h.get k⟩

end Operations

end LearnSpdk.RBTree
