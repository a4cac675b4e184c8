import LearnSpdk.Lib.TreeDepth
import LearnSpdk.Proofs.Traversals

/-! `levelOrder` of `RBTree` prints one line for each depth, and the line of a node says how many
turns the search for its key takes. -/

namespace LearnSpdk.RBTree

open Lib

variable {T : Type} {nil : Ptr} {L : Links T T} {s : ColorTree (Item T T)} {F : List (ColorTree (Item T T))}

/-- The queue with the trees of a forest that are not empty. -/
def queue (nil : Ptr) (F : List (ColorTree (Item T T))) : List (Option Ptr) :=
  (F.map (·.link (some nil))).filter (· ≠ some nil)

theorem queue_append (F G : List (ColorTree (Item T T))) : queue nil (F ++ G) = queue nil F ++ queue nil G := by
  simp [queue]

open ColorTree

theorem queue_cons_nil (F : List (ColorTree (Item T T))) : queue nil (.nil :: F) = queue nil F := by
  simp [queue]

theorem queue_cons_node {c : Color} {l : ColorTree (Item T T)} {a : Item T T} {r : ColorTree (Item T T)}
    (hne : some a.ptr ≠ some nil) (F : List (ColorTree (Item T T))) :
    queue nil (.node c l a r :: F) = some a.ptr :: queue nil F := by
  simp [queue, List.filter_cons_of_pos, hne]

theorem queue_eq_nil (h : ∀ s ∈ F, Walkable nil L s) : queue nil F = [] ↔ tallest F = 0 := by
  induction F with
  | nil => simp [queue, tallest]
  | cons s F ih =>
    have hF := ih fun s hs => h s (List.mem_cons_of_mem _ hs)
    cases s with
    | nil => simpa [queue_cons_nil, tallest, ColorTree.height] using hF
    | node c l a r =>
      rw [queue_cons_node (h _ List.mem_cons_self).node.2.1]
      simp [tallest, ColorTree.height]

/-- The queue has the rest `F` of a level in front of the part `G` of the next one. -/
theorem levelLoop_spec (h : ∀ s ∈ F, Walkable nil L s) (G : List (ColorTree (Item T T)))
    (line : List (T × T × Color)) :
    levelLoop nil (queue nil F).length (queue nil F ++ queue nil G) L line =
      some (line ++ (F.flatMap (·.level 0)).map entry, queue nil (G ++ F.flatMap children)) := by
  induction F generalizing G line with
  | nil => simp [queue, levelLoop]
  | cons s F ih =>
    have hF : ∀ s ∈ F, Walkable nil L s := fun s hs => h s (List.mem_cons_of_mem _ hs)
    cases s with
    | nil =>
      rw [queue_cons_nil]
      exact ih hF G line
    | node c l a r =>
      obtain ⟨⟨par, ha⟩, hne, -, -⟩ := (h _ List.mem_cons_self).node
      -- the children that are there go to the end of the queue
      have hrest := ih hF (G ++ [l, r]) (line ++ [(a.key, a.value, c)])
      rw [queue_append, ← List.append_assoc] at hrest
      rw [queue_cons_node hne, List.length_cons, List.cons_append, levelLoop, if_pos hne]
      simp only [Links.deref_some, ha, Option.bind_eq_bind, Option.bind_some, Item.cell_left,
        Item.cell_right, Item.cell_key, Item.cell_value, Item.cell_color]
      simp only [List.flatMap_cons, level, children, List.map_append, List.map_cons, List.map_nil, entry,
        ← List.append_assoc] at hrest ⊢
      rw [← hrest]
      by_cases hl : l.link (some nil) = some nil <;> by_cases hr : r.link (some nil) = some nil <;>
        simp [queue, hl, hr]

theorem walkable_children (h : ∀ s ∈ F, Walkable nil L s) : ∀ s ∈ F.flatMap children, Walkable nil L s := by
  intro s hs
  obtain ⟨u, hu, hs⟩ := List.mem_flatMap.1 hs
  have hwalk := h u hu
  cases u with
  | nil => simp [children] at hs
  | node c l a r =>
    obtain ⟨-, -, hl, hr⟩ := hwalk.node
    rcases List.mem_pair.1 hs with rfl | rfl
    · exact hl
    · exact hr

theorem levelOrderLoop_spec {n : ℕ} (h : ∀ s ∈ F, Walkable nil L s) (hn : tallest F < n)
    (printed : List (List (T × T × Color))) :
    levelOrderLoop nil n (queue nil F) L printed =
      some (printed ++ (List.range (tallest F)).map fun d => (F.flatMap (·.level d)).map entry) := by
  induction n generalizing F printed with
  | zero => omega
  | succ n ih =>
    have hdown := tallest_flatMap_children F
    by_cases hnil : queue nil F = []
    · rw [levelOrderLoop, if_pos hnil, (queue_eq_nil h).1 hnil]
      simp
    have hpos : tallest F ≠ 0 := mt (queue_eq_nil h).2 hnil
    have hline := levelLoop_spec h [] []
    rw [show queue nil ([] : List (ColorTree (Item T T))) = [] from rfl, List.append_nil,
      List.nil_append, List.nil_append] at hline
    rw [levelOrderLoop, if_neg hnil]
    simp only [hline, Option.bind_eq_bind, Option.bind_some]
    rw [ih (walkable_children h) (by omega), hdown]
    obtain ⟨m, hm⟩ := Nat.exists_eq_succ_of_ne_zero hpos
    rw [hm, Nat.succ_sub_one, List.range_succ_eq_map]
    simp only [List.map_cons, List.map_map, Function.comp_def, Nat.succ_eq_add_one, flatMap_level_succ,
      List.append_assoc, List.singleton_append]

theorem getHeight_spec {n : ℕ} (h : Walkable nil L s) (hn : s.height < n) :
    getHeight nil n (s.link (some nil)) L = some s.height := by
  induction s generalizing n with
  | nil =>
    obtain ⟨n, rfl⟩ : ∃ m, n = m + 1 := ⟨n - 1, by omega⟩
    simp [getHeight, ColorTree.height]
  | node c l a r ihl ihr =>
    obtain ⟨⟨par, ha⟩, hne, hl, hr⟩ := h.node
    rw [ColorTree.height] at hn ⊢
    obtain ⟨n, rfl⟩ : ∃ m, n = m + 1 := ⟨n - 1, by omega⟩
    simp only [link_node, getHeight, if_neg hne, Links.deref_some, ha, Option.bind_eq_bind,
      Option.bind_some, Item.cell_left, Item.cell_right, ihl (n := n) hl (by omega),
      ihr (n := n) hr (by omega)]
    rfl

section Search
variable [LinearOrder T]

/-- A node at depth `d` is found in the turn after the first `d`. -/
theorem searchLoop_level (h : Walkable nil L s) (hs : Increasing Item.key s.toList) {d : ℕ}
    {e : Item T T × Color} (he : e ∈ s.level d) :
    searchLoop nil e.1.key d (s.link (some nil)) L = none ∧
      searchLoop nil e.1.key (d + 1) (s.link (some nil)) L = some (some e.1.ptr) ∧
      ∃ cell, L.heap e.1.ptr = some cell ∧ (cell.key, cell.value, cell.color) = entry e := by
  induction d generalizing s with
  | zero =>
    cases s with
    | nil => cases he
    | node c l a r =>
      obtain ⟨⟨par, ha⟩, hne, -, -⟩ := h.node
      obtain rfl : e = (a, c) := by simpa [level] using he
      refine ⟨rfl, ?_, _, ha, rfl⟩
      simp [searchLoop, hne, ha]
  | succ d ih =>
    cases s with
    | nil => cases he
    | node c l a r =>
      obtain ⟨⟨par, ha⟩, hne, hl, hr⟩ := h.node
      rw [toList, Increasing, List.pairwise_append, List.pairwise_cons] at hs
      obtain ⟨hsl, ⟨har, hsr⟩, hla⟩ := hs
      rcases List.mem_append.1 he with he | he
      · have hmem : e.1 ∈ l.toList :=
          map_fst_colored l ▸ List.mem_map_of_mem ((level_sublist l d).subset he)
        have hlt : e.1.key < a.key := hla _ hmem a List.mem_cons_self
        have hstep (n : ℕ) : searchLoop nil e.1.key (n + 1) (some a.ptr) L =
            searchLoop nil e.1.key n (l.link (some nil)) L := by
          rw [searchLoop, if_neg hne, Links.deref_some, ha]
          simp [hlt.ne, hlt]
        simpa only [link_node, hstep] using ih hl hsl he
      · have hmem : e.1 ∈ r.toList :=
          map_fst_colored r ▸ List.mem_map_of_mem ((level_sublist r d).subset he)
        have hlt : a.key < e.1.key := har _ hmem
        have hstep (n : ℕ) : searchLoop nil e.1.key (n + 1) (some a.ptr) L =
            searchLoop nil e.1.key n (r.link (some nil)) L := by
          rw [searchLoop, if_neg hne, Links.deref_some, ha]
          simp [hlt.ne', hlt.not_gt]
        simpa only [link_node, hstep] using ih hr hsr he

variable [Inhabited T] {t : RBTree T} {S : ColorTree (Item T T)}

theorem Stores.levelOrder (h : Stores t S) :
    levelOrder t = some ((List.range S.height).map fun d => (S.level d).map entry) := by
  unfold RBTree.levelOrder
  by_cases hroot : t.links.root = some t.nil
  · rw [if_pos hroot, h.root_eq_nil.1 hroot]
    rfl
  · rw [if_neg hroot, h.root]
    have hlink : S.link (some t.nil) ≠ some t.nil := h.root ▸ hroot
    have hloop := levelOrderLoop_spec (F := [S]) (n := t.fuel) (by simpa using h.walkable)
      (by simpa [tallest] using h.height_lt_fuel) []
    simpa [queue, hlink, tallest] using hloop

theorem Stores.inOrder (h : Stores t S) : inOrder t = some (S.colored.map entry) := by
  have hsize : S.toList.length < t.fuel := Nat.lt_succ_of_le (Nat.le_succ_of_le h.size_le)
  have hloop := inOrderLoop_spec (S := []) h.walkable (by simp)
    (by simpa [← map_fst_colored] using hsize) []
  rw [← h.root] at hloop
  simpa [RBTree.inOrder] using hloop

/-- After every run of calls `levelOrder` prints as many lines as `height` says, logarithmically
many in the number of entries. Together the lines have the entries of `inOrder`; each line has
some of them in their order, and line `d` those whose keys a search meets in its turn `d + 1`. -/
theorem run_levelOrder (ops : List (Op T)) :
    ∃ t lines printed, run ops = some t ∧ RBTree.levelOrder t = some lines ∧ RBTree.inOrder t = some printed ∧
      height t = some lines.length ∧ lines.length ≤ 2 * Nat.log 2 (printed.length + 1) ∧
      lines.flatten.Perm printed ∧
      ∀ d line, lines[d]? = some line → line ≠ [] ∧ line.length ≤ 2 ^ d ∧ line.Sublist printed ∧
        ∀ e ∈ line, searchLoop t.nil e.1 d t.links.root t.links = none ∧
          ∃ p cell, searchLoop t.nil e.1 (d + 1) t.links.root t.links = some (some p) ∧
            t.links.heap p = some cell ∧ (cell.key, cell.value, cell.color) = e := by
  obtain ⟨t, S, e, h, -⟩ := run_spec ops
  have hlength : (S.colored.map entry).length = S.toList.length := by
    rw [List.length_map, ← map_fst_colored, List.length_map]
  refine ⟨t, _, _, e, h.levelOrder, h.inOrder, ?_, ?_, ?_, ?_⟩
  · rw [height, h.root, getHeight_spec h.walkable h.height_lt_fuel, List.length_map, List.length_range]
  · rw [hlength, List.length_map, List.length_range]
    exact h.redBlack.height_le
  · have hperm := (level_perm_colored (le_refl S.height)).map entry
    simpa [List.flatMap, List.map_flatten, Function.comp_def] using hperm
  · intro d line hline
    obtain ⟨hd, rfl⟩ : d < S.height ∧ (S.level d).map entry = line := by
      simpa [List.getElem?_eq_some_iff] using hline
    refine ⟨by simpa using level_ne_nil hd, by simpa using length_level_le S d,
      (level_sublist S d).map entry, ?_⟩
    intro e he
    obtain ⟨x, hx, rfl⟩ := List.mem_map.1 he
    obtain ⟨hearly, hfound, cell, hcell, hentry⟩ := searchLoop_level h.walkable h.increasing hx
    rw [← h.root] at hearly hfound
    exact ⟨hearly, x.1.ptr, cell, hfound, hcell, hentry⟩

end Search

end LearnSpdk.RBTree
