import LearnSpdk.Lib.FiniteMap
import LearnSpdk.Lib.RedBlackLinks
import LearnSpdk.Proofs.Checkers
import LearnSpdk.Proofs.RedBlackTree

/-! Runs of `RedBlackTree`: after every run of calls on the empty tree, the tree
holds the entries of the reference map, the queries answer from them, and the
cells satisfy the red-black conditions. -/

namespace LearnSpdk.RedBlackTree

open Lib ColorTree Trail

variable {K V : Type} {L : Links K V}

/-! ### Queries -/

theorem inorderTraversal_spec {s : ColorTree (Item K V)} {n : ℕ} (h : Hangs L none s)
    (hn : s.toList.length ≤ n) (result : List (K × V)) :
    inorderTraversal n (s.link none) L result = some (result ++ pairs Item.key Item.value s) := by
  induction s generalizing n result with
  | nil => simp [inorderTraversal, pairs]
  | node c l a r ihl ihr =>
    obtain ⟨⟨par, ha⟩, hl, hr⟩ := h
    simp only [toList, List.length_append, List.length_cons] at hn
    obtain ⟨n, rfl⟩ : ∃ m, n = m + 1 := ⟨n - 1, by omega⟩
    rw [link_node, inorderTraversal, ha]
    simp only [Option.bind_eq_bind, Option.bind_some, Item.cell_left, Item.cell_right, Item.cell_key,
      Item.cell_value, ihl (n := n) hl (by omega), ihr (n := n) hr (by omega)]
    simp [pairs, toList]

theorem height_spec {s : ColorTree (Item K V)} {n : ℕ} (h : Hangs L none s) (hn : s.toList.length ≤ n) :
    height n (s.link none) L = some s.height := by
  induction s generalizing n with
  | nil => rw [link_nil, height, ColorTree.height]
  | node c l a r ihl ihr =>
    obtain ⟨⟨par, ha⟩, hl, hr⟩ := h
    simp only [toList, List.length_append, List.length_cons] at hn
    obtain ⟨n, rfl⟩ : ∃ m, n = m + 1 := ⟨n - 1, by omega⟩
    rw [link_node, height, ha]
    simp only [Option.bind_eq_bind, Option.bind_some, Item.cell_left, Item.cell_right,
      ihl (n := n) hl (by omega), ihr (n := n) hr (by omega)]
    rfl

section Spells
variable {t : RedBlackTree K V} {S : ColorTree (Item K V)}

theorem Spells.inorder (h : t.Spells S) : inorder t = some (pairs Item.key Item.value S) := by
  unfold RedBlackTree.inorder
  rw [h.root, inorderTraversal_spec h.hangs (Nat.le_add_right_of_le h.size_le)]
  rfl

theorem Spells.getHeight (h : t.Spells S) : getHeight t = some S.height := by
  unfold RedBlackTree.getHeight
  rw [h.root, height_spec h.hangs (Nat.le_add_right_of_le h.size_le)]

end Spells

section Runs
variable [LinearOrder K] {t : RedBlackTree K V} {T : ColorTree (Item K V)}

theorem Stores.spells (h : Stores t T) : t.Spells T where
  root := h.root
  hangs := h.rep.below.hangs
  nodup := (List.nodup_append'.1 h.rep.nodup).1
  fresh := h.fresh

theorem Stores.validate (h : Stores t T) : validate t = some true := by
  obtain ⟨ok, e, hok⟩ := validate_iff h.spells
  rw [e, hok.2 h.redBlack]

theorem Stores.find (h : Stores t T) (k : K) :
    find k t = some ((lookup Item.key k T).map Item.value) := by
  unfold RedBlackTree.find findWith lookup
  rw [h.findNode _ h.height_lt_fuel]
  rcases hloc : locate Item.key k [] T with ⟨p, _ | ⟨c, l, a, r⟩⟩
  · rfl
  · simp [(h.focus hloc).below.1]

theorem Stores.contains (h : Stores t T) (k : K) :
    contains k t = some (lookup Item.key k T).isSome := by
  unfold RedBlackTree.contains lookup
  rw [h.findNode _ h.height_lt_fuel]
  rcases locate Item.key k [] T with ⟨p, _ | ⟨c, l, a, r⟩⟩
  · rfl
  · rfl

/-! ### Runs -/

theorem step_spec (h : Stores t T) {m : K → Option V} (hm : Entries m (pairs Item.key Item.value T))
    (op : Op K V) :
    ∃ t' T', step t op = some t' ∧ Stores t' T' ∧
      Entries (op.apply m) (pairs Item.key Item.value T') := by
  cases op with
  | insert k v =>
    obtain ⟨t', e, h'⟩ := insertWith_spec some k v h
    obtain ⟨-, -, -, -, hkey, -, -, -⟩ := toList_split k h.increasing
    have hm' := hm.put (Item.renew_key t.next v hkey)
    rw [Item.renew_value] at hm'
    exact ⟨t', _, by rw [step, insert, e]; rfl, h', hm'⟩
  | remove k =>
    obtain ⟨t', e, h'⟩ := removeWith_spec some k h
    exact ⟨t', _, by rw [step, remove, e]; rfl, h', hm.erase k⟩
  | clear => exact ⟨_, _, rfl, clear_spec t, entries_empty⟩

theorem run_append {ops : List (Op K V)} (h : run ops = some t) (op : Op K V) :
    run (ops ++ [op]) = step t op := by
  unfold run at h ⊢
  rw [List.foldlM_append, h]
  simp

theorem run_spec (ops : List (Op K V)) :
    ∃ t T, run ops = some t ∧ Stores t T ∧ Entries (reference ops) (pairs Item.key Item.value T) := by
  induction ops using List.reverseRecOn with
  | nil => exact ⟨empty, .nil, rfl, clear_spec empty, entries_empty⟩
  | append_singleton ops op ih =>
    obtain ⟨t, T, e, h, hm⟩ := ih
    obtain ⟨t', T', e', h', hm'⟩ := step_spec h hm op
    refine ⟨t', T', ?_, h', ?_⟩
    · rw [run_append e, e']
    · unfold reference at hm' ⊢
      rwa [List.foldl_append]

/-- A run of calls stores the entries of the reference map. The call after it
answers whether the key was there, and leads to the state of the longer run. -/
theorem run_refines_map (ops : List (Op K V)) :
    ∃ t l, run ops = some t ∧ RedBlackTree.inorder t = some l ∧ Entries (reference ops) l ∧
      (∀ k, RedBlackTree.find k t = some (reference ops k)) ∧
      (∀ k, RedBlackTree.contains k t = some (reference ops k).isSome) ∧
      t.size = {k | reference ops k ≠ none}.ncard ∧
      (∀ k v, ∃ t', insert k v t = some ((reference ops k).isNone, t') ∧
        run (ops ++ [.insert k v]) = some t') ∧
      ∀ k, ∃ t', remove k t = some ((reference ops k).isSome, t') ∧
        run (ops ++ [.remove k]) = some t' := by
  obtain ⟨t, T, e, h, hm⟩ := run_spec ops
  have hlookup (k : K) := hm.lookup_eq k
  refine ⟨t, _, e, h.spells.inorder, hm, ?_, ?_, ?_, ?_, ?_⟩
  · intro k
    rw [h.find, hlookup]
  · intro k
    rw [h.contains, hlookup, Option.isSome_map]
  · rw [hm.ncard, pairs, List.length_map]
    exact h.count
  · intro k v
    obtain ⟨t', e', -⟩ := insertWith_spec some k v h
    rw [hlookup, Option.isNone_map, run_append e, step, insert, e']
    exact ⟨t', rfl, rfl⟩
  · intro k
    obtain ⟨t', e', -⟩ := removeWith_spec some k h
    rw [hlookup, Option.isSome_map, run_append e, step, remove, e']
    exact ⟨t', rfl, rfl⟩

/-- After every run of calls the cells satisfy the red-black conditions. -/
theorem run_redBlack (ops : List (Op K V)) :
    ∃ t, run ops = some t ∧ RedBlackLinks t.links none ∧ RedBlackTree.validate t = some true := by
  obtain ⟨t, T, e, h, -⟩ := run_spec ops
  exact ⟨t, e, h.rep.redBlackLinks h.redBlack h.increasing, h.validate⟩

/-- After every run of calls the height is logarithmic in the size. -/
theorem run_height_le (ops : List (Op K V)) :
    ∃ t h, run ops = some t ∧ RedBlackTree.getHeight t = some h ∧ h ≤ 2 * Nat.log 2 (t.size + 1) := by
  obtain ⟨t, T, e, h, -⟩ := run_spec ops
  refine ⟨t, T.height, e, h.spells.getHeight, ?_⟩
  rw [RedBlackTree.size, h.count]
  exact h.redBlack.height_le

end Runs

end LearnSpdk.RedBlackTree
