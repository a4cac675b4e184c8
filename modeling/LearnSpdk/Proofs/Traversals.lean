import LearnSpdk.Lib.TreeWalk
import LearnSpdk.Proofs.RBTreeRuns
import LearnSpdk.Proofs.RedBlackTreeRuns

/-! The traversals that are loops visit the nodes that the recursive ones visit: `level_order` of
`RedBlackTree` with its queue, and `inOrder` of `RBTree` with its stack. -/

namespace LearnSpdk

open Lib ColorTree

namespace RedBlackTree

variable {K V : Type} {L : Links K V} {F : List (ColorTree (Item K V))}

def pointers (F : List (ColorTree (Item K V))) : List Ptr := F.filterMap (link none)

theorem pointers_append (F G : List (ColorTree (Item K V))) : pointers (F ++ G) = pointers F ++ pointers G :=
  List.filterMap_append

theorem pointers_eq_nil : pointers F = [] ↔ tallest F = 0 := by
  induction F with
  | nil => simp [pointers, tallest]
  | cons s F ih =>
    cases s with
    | nil => simpa [pointers, tallest, ColorTree.height] using ih
    | node c l a r => simp [pointers, tallest, ColorTree.height]

def keyColor (e : Item K V × Color) : K × Color := (e.1.key, e.2)

/-- The queue has the rest `F` of a level in front of the part `G` of the next one. -/
theorem levelLoop_spec (h : ∀ s ∈ F, Hangs L none s) (G : List (ColorTree (Item K V)))
    (level : List (K × Color)) :
    levelLoop (pointers F).length (pointers F ++ pointers G) L level =
      some (level ++ (F.flatMap (·.level 0)).map keyColor, pointers (G ++ F.flatMap children)) := by
  induction F generalizing G level with
  | nil => simp [pointers, levelLoop]
  | cons s F ih =>
    have hF : ∀ s ∈ F, Hangs L none s := fun s hs => h s (List.mem_cons_of_mem _ hs)
    cases s with
    | nil => exact ih hF G level
    | node c l a r =>
      obtain ⟨⟨par, ha⟩, -, -⟩ := h _ List.mem_cons_self
      have hpush : pointers F ++ pointers G ++ (l.link none).toList ++ (r.link none).toList =
          pointers F ++ pointers (G ++ [l, r]) := by
        rw [pointers_append, List.append_assoc, List.append_assoc]
        congr 2
        cases l <;> cases r <;> rfl
      have hstep : levelLoop (pointers (.node c l a r :: F)).length
          (pointers (.node c l a r :: F) ++ pointers G) L level =
          levelLoop (pointers F).length (pointers F ++ pointers (G ++ [l, r])) L
            (level ++ [(a.key, c)]) := by
        rw [← hpush]
        simp [pointers, levelLoop, ha]
      rw [hstep, ih hF]
      simp [ColorTree.level, children, keyColor]

theorem hangs_children (h : ∀ s ∈ F, Hangs L none s) : ∀ s ∈ F.flatMap children, Hangs L none s := by
  intro s hs
  obtain ⟨u, hu, hs⟩ := List.mem_flatMap.1 hs
  have hhangs := h u hu
  cases u with
  | nil => simp [children] at hs
  | node c l a r =>
    obtain ⟨-, hl, hr⟩ := hhangs
    rcases List.mem_pair.1 hs with rfl | rfl
    · exact hl
    · exact hr

theorem levelOrderLoop_spec {n : ℕ} (h : ∀ s ∈ F, Hangs L none s) (hn : tallest F < n)
    (result : List (List (K × Color))) :
    levelOrderLoop n (pointers F) L result =
      some (result ++ (List.range (tallest F)).map fun d => (F.flatMap (·.level d)).map keyColor) := by
  induction n generalizing F result with
  | zero => omega
  | succ n ih =>
    have hdown := tallest_flatMap_children F
    by_cases hnil : pointers F = []
    · rw [levelOrderLoop, if_pos hnil, pointers_eq_nil.1 hnil]
      simp
    have hpos : tallest F ≠ 0 := mt pointers_eq_nil.2 hnil
    -- a level has been taken from the queue, and the next one is in it
    have hlevel := levelLoop_spec h [] []
    rw [show pointers ([] : List (ColorTree (Item K V))) = [] from rfl, List.append_nil,
      List.nil_append, List.nil_append] at hlevel
    rw [levelOrderLoop, if_neg hnil]
    simp only [hlevel, Option.bind_eq_bind, Option.bind_some]
    rw [ih (hangs_children h) (by omega), hdown]
    obtain ⟨m, hm⟩ := Nat.exists_eq_succ_of_ne_zero hpos
    rw [hm, Nat.succ_sub_one, List.range_succ_eq_map]
    simp only [List.map_cons, List.map_map, Function.comp_def, Nat.succ_eq_add_one, flatMap_level_succ,
      List.append_assoc, List.singleton_append]

variable {t : RedBlackTree K V} {S : ColorTree (Item K V)}

theorem Spells.levelOrder (h : t.Spells S) :
    levelOrder t = some ((List.range S.height).map fun d => (S.level d).map keyColor) := by
  unfold RedBlackTree.levelOrder
  rw [h.root]
  cases S with
  | nil => rfl
  | node c l a r =>
    have hheight := (height_le_length (.node c l a r)).trans h.size_le
    have hloop := levelOrderLoop_spec (L := t.links) (F := [.node c l a r]) (n := t.next + 2)
      (by simpa using h.hangs) (by simp only [tallest]; omega) []
    simpa [pointers, tallest] using hloop

theorem level_keys_perm (S : ColorTree (Item K V)) :
    (((List.range S.height).map fun d => (S.level d).map keyColor).flatten.map Prod.fst).Perm
      ((pairs Item.key Item.value S).map Prod.fst) := by
  have hperm := (level_perm_colored (le_refl S.height)).map fun e => e.1.key
  simpa [List.flatMap, List.map_flatten, Function.comp_def, keyColor, pairs, ← map_fst_colored] using hperm

/-- The levels are as many as the tree is high, level `d` lists the nodes at depth `d` from left to
right, and the levels together have the keys of `inorder`, each as often as there; after a run
of calls these are as many as `size` says. -/
theorem levelOrder_views [LinearOrder K] (h : t.Spells S) :
    ∃ levels entries, RedBlackTree.levelOrder t = some levels ∧ RedBlackTree.inorder t = some entries ∧
      RedBlackTree.getHeight t = some levels.length ∧
      (∀ d < levels.length, levels[d]? = some ((S.level d).map keyColor)) ∧
      (levels.flatten.map Prod.fst).Perm (entries.map Prod.fst) ∧
      ∀ ops, run ops = some t → levels.flatten.length = t.size := by
  have hcount := (level_keys_perm S).length_eq
  simp only [List.length_map] at hcount
  refine ⟨_, _, h.levelOrder, h.inorder, by simpa using h.getHeight, ?_, level_keys_perm S, ?_⟩
  · intro d hd
    simp only [List.length_map, List.length_range] at hd
    simp [hd]
  · intro ops hrun
    obtain ⟨t', T, e, hT, -⟩ := run_spec ops
    obtain rfl : t' = t := Option.some_inj.1 (e.symm.trans hrun)
    have hsame := Option.some_inj.1 (h.inorder.symm.trans hT.spells.inorder)
    rw [hcount, hsame, pairs, List.length_map]
    exact hT.count.symm

/-- The views of a tree that is not red-black, and of one that two calls made. -/
theorem levelOrder_views_instances :
    (∃ levels entries, RedBlackTree.levelOrder lopsidedTree = some levels ∧
      RedBlackTree.inorder lopsidedTree = some entries ∧
      RedBlackTree.getHeight lopsidedTree = some levels.length ∧
      (levels.flatten.map Prod.fst).Perm (entries.map Prod.fst)) ∧
    ∃ (t : RedBlackTree ℕ ℕ) (levels : List (List (ℕ × Color))), run [.insert 1 1, .insert 2 2] = some t ∧
      RedBlackTree.levelOrder t = some levels ∧ levels.flatten.length = t.size := by
  refine ⟨?_, ?_⟩
  · obtain ⟨levels, entries, hlevels, hentries, hheight, -, hperm, -⟩ := levelOrder_views lopsidedTree_spells
    exact ⟨levels, entries, hlevels, hentries, hheight, hperm⟩
  · obtain ⟨t, S, e, h, -⟩ := run_spec [.insert (1 : ℕ) (1 : ℕ), .insert 2 2]
    obtain ⟨levels, entries, hlevels, -, -, -, -, hsize⟩ := levelOrder_views h.spells
    exact ⟨t, levels, e, hlevels, hsize _ e⟩

end RedBlackTree

namespace RBTree

variable {T : Type} {nil : Ptr} {L : Links T T} {t s : ColorTree (Item T T)} {S : List (ColorTree (Item T T))}

theorem Walkable.link_eq_nil (h : Walkable nil L t) : t.link (some nil) = some nil ↔ t = .nil := by
  cases t with
  | nil => simp
  | node c l a r => simpa using h.node.2.1

def entry (e : Item T T × Color) : T × T × Color := (e.1.key, e.1.value, e.2)

/-- The traversal in order as a recursion. -/
def recursiveInOrder (nil : Ptr) : ℕ → Option Ptr → Links T T → Option (List (T × T × Color))
  | 0, _, _ => none
  | n + 1, current, L =>
    if current = some nil then some []
    else do
      let c ← L.deref current
      let left ← recursiveInOrder nil n c.left L
      let right ← recursiveInOrder nil n c.right L
      return left ++ (c.key, c.value, c.color) :: right

theorem recursiveInOrder_spec {n : ℕ} (h : Walkable nil L t) (hn : t.toList.length < n) :
    recursiveInOrder nil n (t.link (some nil)) L = some (t.colored.map entry) := by
  induction t generalizing n with
  | nil =>
    obtain ⟨n, rfl⟩ : ∃ m, n = m + 1 := ⟨n - 1, by omega⟩
    simp [recursiveInOrder, colored]
  | node c l a r ihl ihr =>
    obtain ⟨⟨par, ha⟩, hne, hl, hr⟩ := h.node
    simp only [toList, List.length_append, List.length_cons] at hn
    obtain ⟨n, rfl⟩ : ∃ m, n = m + 1 := ⟨n - 1, by omega⟩
    simp only [link_node, recursiveInOrder, if_neg hne, Links.deref_some, ha, Option.bind_eq_bind,
      Option.bind_some, Item.cell_left, Item.cell_right, ihl (n := n) hl (by omega),
      ihr (n := n) hr (by omega)]
    simp [colored, entry]

theorem pushLeft_spec {n : ℕ} (h : Walkable nil L t) (hn : t.toList.length < n) (S : List (ColorTree (Item T T))) :
    pushLeft nil n (t.link (some nil)) L (S.map (link (some nil))) =
      some ((t.leftSpine S).map (link (some nil))) := by
  induction t generalizing n S with
  | nil =>
    obtain ⟨n, rfl⟩ : ∃ m, n = m + 1 := ⟨n - 1, by omega⟩
    simp [pushLeft, leftSpine]
  | node c l a r ihl ihr =>
    obtain ⟨⟨par, ha⟩, hne, hl, -⟩ := h.node
    simp only [toList, List.length_append, List.length_cons] at hn
    obtain ⟨n, rfl⟩ : ∃ m, n = m + 1 := ⟨n - 1, by omega⟩
    have hdown := ihl (n := n) hl (by omega) (.node c l a r :: S)
    rw [List.map_cons, link_node] at hdown
    simp only [link_node, pushLeft, if_neg hne, Links.deref_some, ha, Option.bind_eq_bind,
      Option.bind_some, Item.cell_left, hdown, leftSpine]

/-- What is printed from a state of the loop on: the current subtree, then what is left of the
subtrees on the stack. -/
theorem inOrderLoop_spec {n : ℕ} (h : Walkable nil L t) (hS : ∀ u ∈ S, u ≠ .nil ∧ Walkable nil L u)
    (hn : (t.colored ++ S.flatMap pending).length < n) (printed : List (T × T × Color)) :
    inOrderLoop nil n (t.link (some nil)) L (S.map (link (some nil))) printed =
      some (printed ++ (t.colored ++ S.flatMap pending).map entry) := by
  induction n generalizing t S printed with
  | zero => omega
  | succ n ih =>
    by_cases hdone : t = .nil ∧ S = []
    · obtain ⟨rfl, rfl⟩ := hdone
      simp [inOrderLoop, colored]
    have hgo : ¬(t.link (some nil) = some nil ∧ S.map (link (some nil)) = []) := by
      rwa [h.link_eq_nil, List.map_eq_nil_iff]
    have hspine : t.leftSpine S ≠ [] := by
      apply leftSpine_ne_nil
      tauto
    have hmem := forall_mem_leftSpine (P := Walkable nil L) (fun c l a r h => h.node.2.2.1) h hS
    have hrest := flatMap_pending_leftSpine t S
    have hsize : t.toList.length < n + 1 := by
      rw [← map_fst_colored, List.length_map]
      rw [List.length_append] at hn
      omega
    have hpush := pushLeft_spec h hsize S
    -- the top of the stack is printed, and its right subtree is the current one then
    obtain ⟨u, S', hS'⟩ := List.exists_cons_of_ne_nil hspine
    rw [hS', List.forall_mem_cons] at hmem
    rw [hS', List.flatMap_cons] at hrest
    rw [hS', List.map_cons] at hpush
    obtain ⟨⟨hu, hwalk⟩, hmem⟩ := hmem
    cases u with
    | nil => exact absurd rfl hu
    | node c l a r =>
      obtain ⟨⟨par, ha⟩, -, -, hr⟩ := hwalk.node
      rw [pending, List.cons_append] at hrest
      rw [← hrest, List.length_cons] at hn
      rw [inOrderLoop, if_neg hgo, hpush]
      simp only [Option.bind_eq_bind, Option.bind_some, link_node, Links.deref_some, ha, Item.cell_right,
        Item.cell_key, Item.cell_value, Item.cell_color, ih hr hmem (by omega), ← hrest, List.map_cons,
        entry, List.append_assoc, List.singleton_append]

variable [LinearOrder T] [Inhabited T]

theorem Stores.walkable {t : RBTree T} {S : ColorTree (Item T T)} (h : Stores t S) :
    Walkable t.nil t.links S where
  hangs := h.held.rep.below.hangs
  real := by
    rintro q hq rfl
    exact h.held.nil_notMem (List.mem_append_left _ hq)

/-- After every run of calls `inOrder` ends, without taking the top of an empty stack, and prints
what the recursion gives: the entries of the reference map in the order of their keys. -/
theorem run_inOrder_eq_recursive (ops : List (Op T)) :
    ∃ t printed, run ops = some t ∧ inOrder t = some printed ∧
      recursiveInOrder t.nil t.fuel t.links.root t.links = some printed ∧
      (printed.map Prod.fst).Pairwise (· < ·) ∧
      ∀ k v, (∃ c, (k, v, c) ∈ printed) ↔ reference ops k = some v := by
  obtain ⟨t, S, e, h, hm⟩ := run_spec ops
  have hsize : S.toList.length < t.fuel := Nat.lt_succ_of_le (Nat.le_succ_of_le h.size_le)
  have hrec := recursiveInOrder_spec h.walkable hsize
  have hloop := inOrderLoop_spec (S := []) h.walkable (by simp)
    (by simpa [← map_fst_colored] using hsize) []
  rw [← h.root] at hrec hloop
  have hpairs : pairs Item.key Item.value S = (S.colored.map entry).map fun e => (e.1, e.2.1) := by
    simp [pairs, ← map_fst_colored, entry]
  rw [hpairs] at hm
  refine ⟨t, S.colored.map entry, e, by simpa [inOrder] using hloop, hrec, ?_, ?_⟩
  · have hsorted := hm.sorted
    unfold Increasing at hsorted
    rwa [List.pairwise_map] at hsorted ⊢
  · intro k v
    rw [← hm.mem, List.mem_map]
    constructor
    · rintro ⟨c, hc⟩
      exact ⟨_, hc, rfl⟩
    · rintro ⟨x, hx, hkv⟩
      obtain ⟨rfl, rfl⟩ := Prod.mk.inj hkv
      exact ⟨x.2.2, hx⟩

end RBTree

end LearnSpdk
