import LearnSpdk.Lib.FiniteMap
import LearnSpdk.Lib.RedBlackLinks
import LearnSpdk.Proofs.RBTree
import LearnSpdk.Proofs.RBTreeGuards

/-! Runs of `RBTree`: after every run of calls on a fresh tree, the queries answer
from the reference map, the cells satisfy the red-black conditions, and the
shared sentinel is as it was made. -/

namespace LearnSpdk.RBTree

open Lib ColorTree Trail

variable {T : Type} [LinearOrder T] [Inhabited T] {t : RBTree T} {S : ColorTree (Item T T)}
  {m : T → Option T}

/-! ### Queries -/

theorem Stores.get (h : Stores t S) (k : T) :
    get k t = some (match (lookup Item.key k S).map Item.value with
      | none => .error "Key not found"
      | some v => .ok v) := by
  unfold RBTree.get getWith lookup
  rw [h.searchNode _ h.height_lt_fuel]
  rcases hloc : locate Item.key k [] S with ⟨p, _ | ⟨c, l, a, r⟩⟩
  · rfl
  · simp [(h.focus hloc).rep.below.1]

theorem Stores.root_eq_nil (h : Stores t S) : t.links.root = some t.nil ↔ S = .nil := by
  rw [h.root]
  cases S with
  | nil => simp
  | node c l a r =>
    have hne : some a.ptr ≠ some t.nil := h.held.rep.node.1
    simpa using hne

theorem Stores.empty (h : Stores t S) : t.empty = true ↔ S = .nil := by
  unfold RBTree.empty
  rw [decide_eq_true_eq]
  exact h.root_eq_nil

/-- Both ends of a tree that is not empty. -/
theorem Stores.outermost (h : Stores t S) (hS : S ≠ .nil) (d : Side) :
    ∃ a c, S.outermost d = some a ∧ RBTree.outermost t.nil d t.fuel t.links.root t.links =
      some (some a.ptr) ∧ t.links.heap a.ptr = some c ∧ c.key = a.key := by
  rw [h.root]
  exact outermost_spec d h.held.rep hS h.height_lt_fuel

theorem Stores.min (h : Stores t S) :
    min t = some (match S.toList.head? with
      | none => .error "Tree is empty"
      | some a => .ok a.key) := by
  unfold RBTree.min
  by_cases hS : S = .nil
  · rw [if_pos (h.root_eq_nil.2 hS), hS]
    rfl
  · obtain ⟨a, c, ha, e, hc, hk⟩ := h.outermost hS .left
    rw [if_neg (mt h.root_eq_nil.1 hS), ← outermost_left, ha]
    simp [minimum, e, hc, hk]

theorem Stores.max (h : Stores t S) :
    max t = some (match S.toList.getLast? with
      | none => .error "Tree is empty"
      | some a => .ok a.key) := by
  unfold RBTree.max
  by_cases hS : S = .nil
  · rw [if_pos (h.root_eq_nil.2 hS), hS]
    rfl
  · obtain ⟨a, c, ha, e, hc, hk⟩ := h.outermost hS .right
    rw [if_neg (mt h.root_eq_nil.1 hS), ← outermost_right, ha]
    simp [maximum, e, hc, hk]

/-! ### Runs -/

theorem step_spec (h : Stores t S) (hm : Entries m (pairs Item.key Item.value S)) (op : Op T) :
    ∃ t' S', step t op = some t' ∧ Stores t' S' ∧
      Entries (op.apply m) (pairs Item.key Item.value S') := by
  cases op with
  | insert k v =>
    obtain ⟨t', e, h', -⟩ := insertWith_spec .off k v h
    have hkey {a : Item T T} (ha : lookup Item.key k S = some a) : a.key = k :=
      ((lookup_eq_some h.increasing).1 ha).2
    have hm' := hm.put (keep_key (t := t) v fun _ => hkey)
    have hval : (keep t k v (lookup Item.key k S)).value = (m k).getD v := by
      rw [hm.lookup_eq]
      cases lookup Item.key k S <;> rfl
    rw [hval] at hm'
    exact ⟨t', _, e, h', hm'⟩
  | remove k =>
    obtain ⟨t', e, h'⟩ := removeWith_spec .off k h
    exact ⟨t', _, e, h', hm.erase k⟩
  | modify k v =>
    obtain ⟨t', e, hnone, hsome⟩ := modify_spec k v h
    by_cases hl : lookup Item.key k S = none
    · have hmk : m k = none := by rw [hm.lookup_eq, hl]; rfl
      refine ⟨t', S, e, hnone hl ▸ h, ?_⟩
      rw [Op.apply, hmk, Option.map_none, ← hmk, Function.update_eq_self]
      exact hm
    · obtain ⟨a, ha⟩ := Option.ne_none_iff_exists'.1 hl
      have hkey : (Item.renew t.next k v (lookup Item.key k S)).key = k := by
        rw [ha]
        exact ((lookup_eq_some h.increasing).1 ha).2
      have hmk : (m k).map (fun _ => v) = some v := by rw [hm.lookup_eq, ha]; rfl
      have hm' := hm.put hkey
      rw [Item.renew_value, ← hmk] at hm'
      exact ⟨t', _, e, hsome (by rw [ha]; rfl), hm'⟩
  | cleanTree =>
    obtain ⟨t', e, h'⟩ := cleanTree_spec h
    exact ⟨t', .nil, e, h', entries_empty⟩

theorem run_append {ops : List (Op T)} (h : run ops = some t) (op : Op T) :
    run (ops ++ [op]) = step t op := by
  unfold run at h ⊢
  rw [List.foldlM_append, h]
  simp

theorem run_spec (ops : List (Op T)) :
    ∃ t S, run ops = some t ∧ Stores t S ∧ Entries (reference ops) (pairs Item.key Item.value S) := by
  induction ops using List.reverseRecOn with
  | nil => exact ⟨fresh, .nil, rfl, fresh_spec, entries_empty⟩
  | append_singleton ops op ih =>
    obtain ⟨t, S, e, h, hm⟩ := ih
    obtain ⟨t', S', e', h', hm'⟩ := step_spec h hm op
    refine ⟨t', S', ?_, h', ?_⟩
    · rw [run_append e, e']
    · unfold reference at hm' ⊢
      rwa [List.foldl_append]

/-- After every run of calls the cells satisfy the red-black conditions over the
sentinel, and the sentinel is black, has no children and no parent. -/
theorem run_redBlack_sentinel (ops : List (Op T)) :
    ∃ t, run ops = some t ∧ RedBlackLinks t.links (some t.nil) ∧
      t.links.heap t.nil = some (nilCell none) := by
  obtain ⟨t, S, e, h, -⟩ := run_spec ops
  exact ⟨t, e, h.held.rep.redBlackLinks h.redBlack h.increasing, h.held.sentinel⟩

/-- After every run of calls no check fails in the next `insert` or `remove`: the call returns what
it returns when a check that fails stops it, or does anything else. -/
theorem run_guards_hold (ops : List (Op T)) :
    ∃ t, run ops = some t ∧ ∀ (check : Check) (k : T),
      (∀ v, ∃ t', insertWith .stop t.fuel k v t = some t' ∧ insertWith check t.fuel k v t = some t' ∧
        insert k v t = some t') ∧
      ∃ t', removeWith .stop t.fuel k t = some t' ∧ removeWith check t.fuel k t = some t' ∧
        remove k t = some t' := by
  obtain ⟨t, S, e, h, -⟩ := run_spec ops
  refine ⟨t, e, fun check k => ⟨fun v => ?_, ?_⟩⟩
  · obtain ⟨t', e', -⟩ := insertWith_spec .stop k v h
    exact ⟨t', e', insertWith_stop check _ k v t t' e', insertWith_stop .off _ k v t t' e'⟩
  · obtain ⟨t', e', -⟩ := removeWith_spec .stop k h
    exact ⟨t', e', removeWith_stop check _ k t t' e', removeWith_stop .off _ k t t' e'⟩

/-- A run of calls stores the reference map, in which the first value written to a
key stays until it is modified. -/
theorem run_refines_first_write (ops : List (Op T)) :
    ∃ t, run ops = some t ∧
      (∀ k, RBTree.get k t = some (match reference ops k with
        | none => .error "Key not found"
        | some v => .ok v)) ∧
      (t.empty = true ↔ ∀ k, reference ops k = none) ∧
      ((∀ k, reference ops k = none) → RBTree.min t = some (.error "Tree is empty") ∧
        RBTree.max t = some (.error "Tree is empty")) ∧
      ((∃ k, reference ops k ≠ none) → ∃ lo hi, RBTree.min t = some (.ok lo) ∧
        IsLeast {k | reference ops k ≠ none} lo ∧ RBTree.max t = some (.ok hi) ∧
        IsGreatest {k | reference ops k ≠ none} hi) ∧
      (∀ k v, reference ops k ≠ none → insert k v t = some t) ∧
      (∀ k v, reference ops k = none → modify k v t = some t) := by
  obtain ⟨t, S, e, h, hm⟩ := run_spec ops
  have hempty : S = .nil ↔ ∀ k, reference ops k = none := by rw [← hm.eq_nil, pairs_eq_nil]
  have hlookup {k : T} (hk : reference ops k = none) : lookup Item.key k S = none := by
    rw [hm.lookup_eq] at hk
    simpa using hk
  refine ⟨t, e, ?_, ?_, ?_, ?_, ?_, ?_⟩
  · intro k
    rw [h.get, hm.lookup_eq]
  · rw [h.empty, hempty]
  · intro hnone
    rw [h.min, h.max, hempty.2 hnone]
    exact ⟨rfl, rfl⟩
  · rintro ⟨k, hk⟩
    have hS : S ≠ .nil := fun hS => hk (hempty.1 hS k)
    obtain ⟨a, -, ha, -, -, -⟩ := h.outermost hS .left
    obtain ⟨b, -, hb, -, -, -⟩ := h.outermost hS .right
    rw [outermost_left] at ha
    rw [outermost_right] at hb
    refine ⟨a.key, b.key, by rw [h.min, ha], ?_, by rw [h.max, hb], ?_⟩
    · exact hm.isLeast (e := (a.key, a.value)) (by rw [pairs, List.head?_map, ha]; rfl)
    · exact hm.isGreatest (e := (b.key, b.value)) (by rw [pairs, List.getLast?_map, hb]; rfl)
  · intro k v hk
    obtain ⟨t', e', -, hsame⟩ := insertWith_spec .off k v h
    have hsome : (lookup Item.key k S).isSome := by
      rw [hm.lookup_eq] at hk
      simpa [Option.isSome_iff_ne_none] using hk
    rw [RBTree.insert, e', hsame hsome]
  · intro k v hk
    obtain ⟨t', e', hsame, -⟩ := modify_spec k v h
    rw [e', hsame (hlookup hk)]

end LearnSpdk.RBTree
