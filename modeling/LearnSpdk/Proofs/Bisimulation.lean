import LearnSpdk.Lib.TreeMap
import LearnSpdk.Proofs.RBTreeRuns
import LearnSpdk.Proofs.RedBlackTreeRuns

/-! `RedBlackTree` and `RBTree` go through the same trees: a run of calls on the one
and the matching run on the other keep trees of one shape, with the same key,
value and colour at every position. -/

namespace LearnSpdk

open Lib ColorTree Trail

/-- Two links lead to trees of one shape with the same keys, values and colours;
`z₁` and `z₂` stand for a missing child. -/
inductive Alike {κ ν : Type} (L₁ : Links κ ν) (z₁ : Option Ptr) (L₂ : Links κ ν) (z₂ : Option Ptr) :
    Option Ptr → Option Ptr → Prop
  | missing : Alike L₁ z₁ L₂ z₂ z₁ z₂
  | node {p q : Ptr} {c c' : Cell κ ν} : some p ≠ z₁ → some q ≠ z₂ → L₁.heap p = some c →
      L₂.heap q = some c' → c.key = c'.key → c.value = c'.value → c.color = c'.color →
      Alike L₁ z₁ L₂ z₂ c.left c'.left → Alike L₁ z₁ L₂ z₂ c.right c'.right →
      Alike L₁ z₁ L₂ z₂ (some p) (some q)

def content {κ ν : Type} (a : Item κ ν) : κ × ν := (a.key, a.value)

theorem content_key {κ ν : Type} (a : Item κ ν) : (content a).1 = a.key := rfl

theorem alike_of_map_eq {κ ν : Type} {L₁ L₂ : Links κ ν} {z₁ z₂ par₁ par₂ : Option Ptr}
    {t₁ t₂ : ColorTree (Item κ ν)} (h₁ : Below L₁ z₁ par₁ t₁) (h₂ : Below L₂ z₂ par₂ t₂)
    (hz₁ : ∀ q ∈ t₁.addrs, some q ≠ z₁) (hz₂ : ∀ q ∈ t₂.addrs, some q ≠ z₂)
    (h : t₁.map content = t₂.map content) : Alike L₁ z₁ L₂ z₂ (t₁.link z₁) (t₂.link z₂) := by
  induction t₁ generalizing t₂ par₁ par₂ with
  | nil =>
    cases t₂ with
    | nil => exact .missing
    | node => cases h
  | node c l a r ihl ihr =>
    cases t₂ with
    | nil => cases h
    | node c' l' a' r' =>
      simp only [ColorTree.map, content, node.injEq, Prod.mk.injEq] at h
      obtain ⟨hc, hl, ⟨hk, hv⟩, hr⟩ := h
      simp only [addrs, toList, List.map_append, List.map_cons, List.mem_append, List.mem_cons]
        at hz₁ hz₂
      refine .node (hz₁ _ (.inr (.inl rfl))) (hz₂ _ (.inr (.inl rfl))) h₁.1 h₂.1 ?_ ?_ ?_ ?_ ?_
      · rw [Item.cell_key, Item.cell_key, hk]
      · rw [Item.cell_value, Item.cell_value, hv]
      · rw [Item.cell_color, Item.cell_color, hc]
      · exact ihl h₁.2.1 h₂.2.1 (fun q hq => hz₁ q (.inl hq)) (fun q hq => hz₂ q (.inl hq)) hl
      · exact ihr h₁.2.2 h₂.2.2 (fun q hq => hz₁ q (.inr (.inr hq)))
          (fun q hq => hz₂ q (.inr (.inr hq))) hr

inductive Call (T : Type)
  | insert (key value : T)
  | remove (key : T)

def Call.redBlack {T : Type} : Call T → RedBlackTree.Op T T
  | .insert key value => .insert key value
  | .remove key => .remove key

/-- The calls on `RBTree<T>`, where an insertion is followed by `modify`. -/
def Call.sentinel {T : Type} : Call T → List (RBTree.Op T)
  | .insert key value => [.insert key value, .modify key value]
  | .remove key => [.remove key]

section
variable {T : Type} [LinearOrder T] [Inhabited T]

/-- What `insert` followed by `modify` leaves: the item found with a new value, or a
new item. -/
theorem insert_modify_spec {t : RBTree T} {S : ColorTree (Item T T)} (h : RBTree.Stores t S)
    (k v : T) :
    ∃ t₁ t₂, RBTree.insert k v t = some t₁ ∧ RBTree.modify k v t₁ = some t₂ ∧
      RBTree.Stores t₂ (put Item.key k (Item.renew t.next k v) S) := by
  have hkey {a : Item T T} (ha : lookup Item.key k S = some a) : a.key = k :=
    ((lookup_eq_some h.increasing).1 ha).2
  obtain ⟨t₁, e₁, h₁, hsame⟩ := RBTree.insertWith_spec .off k v h
  obtain ⟨t₂, e₂, -, h₂⟩ := RBTree.modify_spec k v h₁
  have hlookup := lookup_put h.increasing (RBTree.keep_key (t := t) v fun _ => hkey)
  refine ⟨t₁, t₂, e₁, e₂, ?_⟩
  have h₂ := h₂ (by rw [hlookup]; rfl)
  cases hl : lookup Item.key k S with
  | none =>
    rw [hl] at hlookup
    rw [put_eq_self hlookup rfl] at h₂
    have hput : put Item.key k (RBTree.keep t k v) S = put Item.key k (Item.renew t.next k v) S := by
      unfold lookup at hl
      unfold put
      rcases hloc : locate Item.key k [] S with ⟨p, _ | ⟨c, l, a, r⟩⟩
      · rfl
      · rw [hloc] at hl; cases hl
    rwa [hput] at h₂
  | some a =>
    rw [put_eq_self hl rfl, hsame (by rw [hl]; rfl)] at h₂
    exact h₂

/-- The runs are in step: both store trees with the same contents. -/
structure InStep (t₁ : RedBlackTree T T) (t₂ : RBTree T) : Prop where
  exists_trees : ∃ S₁ S₂, RedBlackTree.Stores t₁ S₁ ∧ RBTree.Stores t₂ S₂ ∧
    S₁.map content = S₂.map content

theorem InStep.step {t₁ : RedBlackTree T T} {t₂ : RBTree T} (h : InStep t₁ t₂) (call : Call T) :
    ∃ t₁' t₂', RedBlackTree.step t₁ call.redBlack = some t₁' ∧
      call.sentinel.foldlM RBTree.step t₂ = some t₂' ∧ InStep t₁' t₂' := by
  obtain ⟨S₁, S₂, h₁, h₂, hS⟩ := h.exists_trees
  cases call with
  | insert k v =>
    obtain ⟨t₁', e₁, h₁'⟩ := RedBlackTree.insertWith_spec some k v h₁
    obtain ⟨t, t₂', e, e₂, h₂'⟩ := insert_modify_spec h₂ k v
    refine ⟨t₁', t₂', ?_, ?_, ⟨_, _, h₁', h₂', ?_⟩⟩
    · rw [Call.redBlack, RedBlackTree.step, RedBlackTree.insert, e₁]; rfl
    · simp [Call.sentinel, RBTree.step, e, e₂]
    · have hrenew (q : Ptr) (o : Option (Item T T)) :
          ((((o.map content).map Prod.fst).getD k), v) = content (Item.renew q k v o) := by
        cases o <;> rfl
      have hput (q : Ptr) (S : ColorTree (Item T T)) :
          put Prod.fst k (fun o => ((o.map Prod.fst).getD k, v)) (S.map content) =
            (put Item.key k (Item.renew q k v) S).map content := put_map content_key k S (hrenew q)
      rw [← hput, ← hput, hS]
  | remove k =>
    obtain ⟨t₁', e₁, h₁'⟩ := RedBlackTree.removeWith_spec some k h₁
    obtain ⟨t₂', e₂, h₂'⟩ := RBTree.removeWith_spec .off k h₂
    refine ⟨t₁', t₂', ?_, ?_, ⟨_, _, h₁', h₂', ?_⟩⟩
    · rw [Call.redBlack, RedBlackTree.step, RedBlackTree.remove, e₁]; rfl
    · simp [Call.sentinel, RBTree.step, RBTree.remove, e₂]
    · rw [← erase_map content_key, ← erase_map content_key, hS]

/-- Both implementations, from empty trees, keep trees alike. -/
theorem runs_alike (calls : List (Call T)) :
    ∃ t₁ t₂, RedBlackTree.run (calls.map Call.redBlack) = some t₁ ∧
      RBTree.run (calls.flatMap Call.sentinel) = some t₂ ∧
      Alike t₁.links none t₂.links (some t₂.nil) t₁.links.root t₂.links.root := by
  have hstep : ∃ t₁ t₂, RedBlackTree.run (calls.map Call.redBlack) = some t₁ ∧
      RBTree.run (calls.flatMap Call.sentinel) = some t₂ ∧ InStep t₁ t₂ := by
    induction calls using List.reverseRecOn with
    | nil =>
      exact ⟨.empty, .fresh, rfl, rfl, .nil, .nil, RedBlackTree.clear_spec .empty, RBTree.fresh_spec, rfl⟩
    | append_singleton calls call ih =>
      obtain ⟨t₁, t₂, e₁, e₂, h⟩ := ih
      obtain ⟨t₁', t₂', e₁', e₂', h'⟩ := h.step call
      refine ⟨t₁', t₂', ?_, ?_, h'⟩
      · rw [List.map_append, List.map_singleton, RedBlackTree.run_append e₁, e₁']
      · unfold RBTree.run at e₂ ⊢
        rw [List.flatMap_append, List.flatMap_singleton, List.foldlM_append, e₂]
        exact e₂'
  obtain ⟨t₁, t₂, e₁, e₂, h⟩ := hstep
  obtain ⟨S₁, S₂, h₁, h₂, hS⟩ := h.exists_trees
  refine ⟨t₁, t₂, e₁, e₂, ?_⟩
  rw [h₁.root, h₂.root]
  exact alike_of_map_eq h₁.rep.below h₂.held.rep.below
    (fun q hq => h₁.rep.real q (List.mem_append_left _ hq))
    (fun q hq => h₂.held.rep.real q (List.mem_append_left _ hq)) hS

end

end LearnSpdk
