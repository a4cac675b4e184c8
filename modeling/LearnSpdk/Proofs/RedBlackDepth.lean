import LearnSpdk.Lib.LessDefined
import LearnSpdk.Proofs.RedBlackTreeRuns

/-! The loops of `RedBlackTree` take no more turns than the tree is high, and the height is
logarithmic: above the height the results of the operations do not depend on the bound for the
turns of their loops. -/

namespace LearnSpdk.RedBlackTree

open Lib

variable {K V : Type} {L : Links K V}

open ColorTree Trail

/-! ### A loop with more turns -/

theorem fixInsertLoop_more {n m : ℕ} (h : n ≤ m) (node : Option Ptr) (L : Links K V) :
    LessDefined (fixInsertLoop some n node L) (fixInsertLoop some m node L) := by
  induction n generalizing m node L with
  | zero => exact .none
  | succ n ih =>
    obtain ⟨m, rfl⟩ : ∃ k, m = k + 1 := ⟨m - 1, by omega⟩
    have hmore := ih (Nat.le_of_succ_le_succ h)
    unfold fixInsertLoop
    refine .ite .rfl ?_
    refine .next fun c => .next fun p => .ite .rfl ?_
    refine .next fun p' => .ite .rfl ?_
    refine .next fun left => .next fun uncle => .next fun black => .ite ?_ ?_
    · exact .next fun L₁ => .next fun L₂ => .next fun L₃ => hmore _ L₃
    · refine .next fun outer => .ite ?_ ?_
      · exact .next fun L₁ => .next fun L₂ => .next fun L₃ => hmore node L₃
      · refine .next fun L₁ => .next fun c => .ite (.next ?_) (.next fun p => .next ?_)
        all_goals
          refine fun grandparent => .ite .rfl ?_
          exact .next fun L₂ => .next fun L₃ => .next fun L₄ => hmore _ L₄

theorem fixInsert_more {n m : ℕ} (h : n ≤ m) (node : Option Ptr) (L : Links K V) :
    LessDefined (fixInsert some n node L) (fixInsert some m node L) :=
  (fixInsertLoop_more h node L).bind fun _ => .rfl

theorem fixDeleteLoop_more {n m : ℕ} (h : n ≤ m) (node parent : Option Ptr) (L : Links K V) :
    LessDefined (fixDeleteLoop some n node parent L) (fixDeleteLoop some m node parent L) := by
  induction n generalizing m node parent L with
  | zero => exact .none
  | succ n ih =>
    obtain ⟨m, rfl⟩ : ∃ k, m = k + 1 := ⟨m - 1, by omega⟩
    have hmore := ih (Nat.le_of_succ_le_succ h)
    unfold fixDeleteLoop
    refine .ite .rfl (.next fun black => .ite .rfl (.ite .rfl ?_))
    refine .next fun c => .next fun c' => .ite .rfl ?_
    refine .next fun r => .ite .rfl ?_
    unfold blackSibling
    refine .next fun c => .next fun c' => .next fun near => .next fun far => .ite ?_ .rfl
    exact .next fun L₁ => .next fun c => hmore parent _ L₁

theorem fixDelete_more {n m : ℕ} (h : n ≤ m) (node parent : Option Ptr) (L : Links K V) :
    LessDefined (fixDelete some n node parent L) (fixDelete some m node parent L) := by
  unfold fixDelete
  exact .ite .rfl ((fixDeleteLoop_more h node parent L).bind fun _ => .rfl)

theorem repair_more {n m : ℕ} (h : n ≤ m) (original : Color) (x parent : Option Ptr) (L : Links K V) :
    LessDefined (repair some n original x parent L) (repair some m original x parent L) := by
  unfold repair
  exact .ite (.ite .rfl (.ite .rfl (fixDelete_more h x parent L))) .rfl

/-! ### The operations -/

section Operations
variable [LinearOrder K] {t : RedBlackTree K V} {T : ColorTree (Item K V)} {n m : ℕ}

theorem insertWith_eq (k : K) (v : V) (h : Stores t T) (hn : T.height < n) (hm : T.height < m) :
    insertWith some n k v t = insertWith some m k v t := by
  simp only [insertWith, h.findPlace k hn, h.findPlace k hm]
  rcases hloc : locate Item.key k [] T with ⟨_ | ⟨f, p⟩, _ | ⟨c, l, a, r⟩⟩
  · have hT : T = .nil := (plug_of_locate hloc).symm
    rw [if_pos (by rw [h.root, hT]; rfl), if_pos (by rw [h.root, hT]; rfl)]
  · rfl
  · have hplug := plug_of_locate hloc
    have hrep := h.focus hloc
    have hbetween := between_locate_nil (k := k) h.increasing
    rw [hloc] at hbetween
    have hfresh : t.next ∉ around (f :: p) := by
      intro hmem
      have haddr := mem_addrs_of_around hmem .nil
      rw [hplug] at haddr
      exact absurd (h.fresh _ haddr) (lt_irrefl _)
    obtain ⟨L₁, e₁, h₁, -⟩ := hrep.attach (a := ⟨t.next, k, v⟩) hfresh (by simp)
    obtain ⟨b, -, hp⟩ := (hplug ▸ h.redBlack).focus
    have hlen : (f :: p).length ≤ T.height := hplug ▸ length_le_height (f :: p) .nil
    obtain ⟨L₂, e₂, -⟩ := fixInsert_spec some h₁ (by simp) hp (Nat.lt_succ_self _)
    have heq := (fixInsert_more (Nat.succ_le_of_lt (hlen.trans_lt hn)) _ L₁).eq
      (fixInsert_more (Nat.succ_le_of_lt (hlen.trans_lt hm)) _ L₁) e₂
    have hne : f.item.ptr ≠ t.next := fun e => hfresh (e ▸ mem_around_of_top rfl)
    simp only [Option.bind_eq_bind, Option.bind_some, link_nil, top, Links.deref_some,
      Links.put_heap_of_ne _ _ hne, hrep.parent_cell, Item.cell_key, side_of_between hbetween]
    simp only [Item.cell] at e₁
    rw [link_node] at heq
    rw [e₁, Option.bind_some, heq, Option.bind_some]
  · rfl

theorem unlink_eq {p : Trail (Item K V)} {c : Color} {l r : ColorTree (Item K V)} {a : Item K V}
    (h : Rep L none p (.node c l a r)) (hn : r.height < n) (hm : r.height < m) :
    unlink n (some a.ptr) L = unlink m (some a.ptr) L := by
  have ha : L.heap a.ptr = _ := h.cell (d := .left)
  simp only [unlink, Links.deref_some, ha, Option.bind_eq_bind, Option.bind_some, Item.cell_left, Item.cell_right]
  by_cases hr : r = .nil
  · subst hr
    simp only [link_nil, if_true]
  · have hdown : Rep L none (⟨.right, c, a, l⟩ :: p) r := rep_cons.2 h
    rw [minimum_spec hdown hr hn, minimum_spec hdown hr hm]

theorem removeWith_eq (k : K) (h : Stores t T) (hn : T.height < n) (hm : T.height < m) :
    removeWith some n k t = removeWith some m k t := by
  simp only [removeWith, h.findNode k hn, h.findNode k hm]
  rcases hloc : locate Item.key k [] T with ⟨p, _ | ⟨c, l, a, r⟩⟩
  · rfl
  · have hplug := plug_of_locate hloc
    have hrep := h.focus hloc
    have hheight := length_add_height_le p (.node c l a r)
    have hsplice := length_splice_lt_height p c l a r
    rw [hplug, ColorTree.height] at hheight
    rw [hplug] at hsplice
    obtain ⟨L₁, e₁, h₁⟩ := unlink_spec hrep (show r.height < n by omega)
    have e₁' := (unlink_eq hrep (show r.height < m by omega) (by omega)).trans e₁
    obtain ⟨-, hblack⟩ := splice_spec (hplug ▸ h.redBlack)
    obtain ⟨L₂, e₂, -⟩ := repair_spec some _ h₁ hblack (Nat.lt_succ_self _)
    have heq := (repair_more (show _ ≤ n by omega) _ _ _ L₁).eq (repair_more (show _ ≤ m by omega) _ _ _ L₁) e₂
    simp only [Option.bind_eq_bind, Option.bind_some, link_node, e₁, e₁', heq]

theorem findWith_eq (k : K) (h : Stores t T) (hn : T.height < n) (hm : T.height < m) :
    findWith n k t = findWith m k t := by
  rw [findWith, findWith, h.findNode k hn, h.findNode k hm]

/-- After every run of calls each loop of the next call is over after a number of turns that is
logarithmic in the size: with no more than that the call returns what it returns. -/
theorem run_loops_logarithmic (ops : List (Op K V)) :
    ∃ t, run ops = some t ∧ ∀ n, 2 * Nat.log 2 (t.size + 1) < n →
      (∀ k v, ∃ r, insertWith some n k v t = some r ∧ insert k v t = some r) ∧
      (∀ k, ∃ r, removeWith some n k t = some r ∧ remove k t = some r) ∧
      ∀ k, ∃ r, findWith n k t = some r ∧ find k t = some r := by
  obtain ⟨t, T, e, h, -⟩ := run_spec ops
  refine ⟨t, e, fun n hn => ?_⟩
  have hlog := h.redBlack.height_le
  rw [← h.count] at hlog
  have hheight : T.height < n := hlog.trans_lt hn
  refine ⟨fun k v => ?_, fun k => ?_, fun k => ?_⟩
  · obtain ⟨t', e', -⟩ := insertWith_spec some k v h
    exact ⟨_, (insertWith_eq k v h hheight h.height_lt_fuel).trans e', e'⟩
  · obtain ⟨t', e', -⟩ := removeWith_spec some k h
    exact ⟨_, (removeWith_eq k h hheight h.height_lt_fuel).trans e', e'⟩
  · exact ⟨_, (findWith_eq k h hheight h.height_lt_fuel).trans (h.find k), h.find k⟩

end Operations

end LearnSpdk.RedBlackTree
