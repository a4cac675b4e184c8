import LearnSpdk.Proofs.BPlusLeaf
import Mathlib.Data.List.Perm.Basic
import Mathlib.Logic.Relation

/-! What the two recursive functions `insert_nonfull` and `remove_recursive` do to the
leaves below a node and to the store, whatever the separators are. -/

namespace LearnSpdk

open Lib BPlus

variable {K V : Type}

@[simp] theorem Node.leaves_leaf (p : ℕ) : (Node.leaf p : Node K).leaves = [p] := by
  rw [Node.leaves]

theorem Node.leaves_internal (keys : List K) (children : List (Node K)) :
    (Node.internal keys children).leaves = children.flatMap Node.leaves := by
  induction children with
  | nil => rfl
  | cons c cs ih =>
    simp only [Node.leaves, Node.leaves.all, List.flatMap_cons] at ih ⊢
    rw [ih]

namespace BPlus

variable {degree : ℕ}

/-- One split: of a leaf, which makes one more leaf, or of an internal node, which at
most changes the order of the leaves. -/
def SplitStep (a b : List ℕ × Leaves K V) : Prop :=
  b.1.Perm a.1 ∧ b.2 = a.2 ∨ ∃ p ∈ a.1, b.1.Perm (a.2.length :: a.1) ∧ b.2 = splitLeaf p a.2

def Splits : List ℕ × Leaves K V → List ℕ × Leaves K V → Prop := Relation.ReflTransGen SplitStep

theorem SplitStep.frame {T T' : List ℕ} {H H' : Leaves K V} (R : List ℕ)
    (h : SplitStep (T, H) (T', H')) : SplitStep (R ++ T, H) (R ++ T', H') := by
  rcases h with ⟨hperm, hH⟩ | ⟨p, hp, hperm, hH⟩
  · exact .inl ⟨hperm.append_left R, hH⟩
  · exact .inr ⟨p, List.mem_append_right R hp, (hperm.append_left R).trans List.perm_middle, hH⟩

theorem Splits.frame {T T' : List ℕ} {H H' : Leaves K V} (R : List ℕ)
    (h : Splits (T, H) (T', H')) : Splits (R ++ T, H) (R ++ T', H') :=
  Relation.ReflTransGen.lift (fun a : List ℕ × Leaves K V => (R ++ a.1, a.2))
    (fun _ _ hs => SplitStep.frame R hs) _ _ h

theorem Splits.of_perm {T T' : List ℕ} {H : Leaves K V} (h : T'.Perm T) : Splits (T, H) (T', H) :=
  .single (.inl ⟨h, rfl⟩)

theorem Splits.trans {a b c : List ℕ × Leaves K V} (h₁ : Splits a b) (h₂ : Splits b c) : Splits a c :=
  Relation.ReflTransGen.trans h₁ h₂

theorem SplitStep.splits {a b : List ℕ × Leaves K V} (h : SplitStep a b) : Splits a b := .single h

theorem Splits.child {A B T T' : List ℕ} {H H' : Leaves K V} (h : Splits (T, H) (T', H')) :
    Splits (A ++ (T ++ B), H) (A ++ (T' ++ B), H') := by
  have hperm (S : List ℕ) : (A ++ (S ++ B)).Perm (A ++ B ++ S) := by
    rw [List.append_assoc]
    exact (List.perm_append_comm).append_left A
  exact ((Splits.of_perm (hperm T).symm).trans (h.frame (A ++ B))).trans (Splits.of_perm (hperm T'))

theorem splitLeafNode_eq_some {p : ℕ} {H H' : Leaves K V} {left right : Node K} {s : K}
    (h : splitLeafNode p H = some (left, s, right, H')) :
    left = .leaf p ∧ right = .leaf H.length ∧ H' = splitLeaf p H ∧
      (leafAt (splitLeaf p H) H.length).keys[0]? = some s := by
  simp only [splitLeafNode, Option.bind_eq_bind, Option.bind_eq_some_iff, Option.pure_def,
    Option.some.injEq, Prod.mk.injEq] at h
  obtain ⟨s', hs, rfl, rfl, rfl, rfl⟩ := h
  exact ⟨rfl, rfl, rfl, hs⟩

theorem splitInternal_eq_some {keys : List K} {children : List (Node K)}
    {l r : List K × List (Node K)} (h : splitInternal keys children = some (l, r)) :
    keys.length / 2 + 1 ≤ children.length ∧
      l = (keys.take (keys.length / 2), children.take (keys.length / 2 + 1)) ∧
      r = (keys.drop (keys.length / 2 + 1), children.drop (keys.length / 2 + 1)) := by
  simp only [splitInternal] at h
  split at h
  · simp at h
  · next hlt =>
    simp only [Option.some.injEq, Prod.mk.injEq] at h
    exact ⟨not_lt.1 hlt, h.1.symm, h.2.symm⟩

theorem splitInternal_leaves {keys : List K} {children : List (Node K)}
    {l r : List K × List (Node K)} (h : splitInternal keys children = some (l, r)) :
    children = l.2 ++ r.2 := by
  obtain ⟨-, rfl, rfl⟩ := splitInternal_eq_some h
  exact (List.take_append_drop _ _).symm

theorem splitChild_internal {promoted s : K} {keys : List K} {children : List (Node K)}
    {left right : Node K} {H H' : Leaves K V}
    (h : splitChild promoted (.internal keys children) H = some (left, s, right, H')) :
    ∃ l r, splitInternal keys children = some (l, r) ∧ left = .internal l.1 l.2 ∧
      right = .internal r.1 r.2 ∧ H' = H := by
  simp only [splitChild, Option.bind_eq_bind, Option.bind_eq_some_iff, Option.pure_def,
    Option.some.injEq, Prod.mk.injEq] at h
  obtain ⟨⟨l, r⟩, hsplit, rfl, rfl, rfl, rfl⟩ := h
  exact ⟨l, r, hsplit, rfl, rfl, rfl⟩

/-- The root loses a key of its left half. -/
theorem splitRoot_internal {s : K} {keys : List K} {children : List (Node K)} {left right : Node K}
    {H H' : Leaves K V} (h : splitRoot (.internal keys children) H = some (left, s, right, H')) :
    ∃ l r, splitInternal keys children = some (l, r) ∧ l.1[l.1.length / 2]? = some s ∧
      left = .internal (l.1.eraseIdx (l.1.length / 2)) l.2 ∧ right = .internal r.1 r.2 ∧ H' = H := by
  simp only [splitRoot, Option.bind_eq_bind, Option.bind_eq_some_iff, Option.pure_def,
    Option.some.injEq, Prod.mk.injEq] at h
  obtain ⟨⟨l, r⟩, hsplit, promote, hpromote, rfl, rfl, rfl, rfl⟩ := h
  exact ⟨l, r, hsplit, hpromote, rfl, rfl, rfl⟩

theorem splitLeafNode_splitStep {p : ℕ} {H H' : Leaves K V} {left right : Node K} {s : K}
    (h : splitLeafNode p H = some (left, s, right, H')) :
    SplitStep ([p], H) (left.leaves ++ right.leaves, H') := by
  obtain ⟨rfl, rfl, rfl, -⟩ := splitLeafNode_eq_some h
  exact .inr ⟨p, by simp, List.Perm.swap _ _ _, rfl⟩

theorem splitInternal_splitStep {keys : List K} {children : List (Node K)}
    {l r : List K × List (Node K)} (h : splitInternal keys children = some (l, r))
    (ks ks' : List K) (H : Leaves K V) :
    SplitStep ((Node.internal keys children).leaves, H)
      ((Node.internal ks l.2).leaves ++ (Node.internal ks' r.2).leaves, H) := by
  refine .inl ⟨?_, rfl⟩
  rw [Node.leaves_internal, Node.leaves_internal, Node.leaves_internal, splitInternal_leaves h,
    List.flatMap_append]

theorem splitChild_splitStep {promoted s : K} {child left right : Node K} {H H' : Leaves K V}
    (h : splitChild promoted child H = some (left, s, right, H')) :
    SplitStep (child.leaves, H) (left.leaves ++ right.leaves, H') := by
  cases child with
  | leaf p => exact splitLeafNode_splitStep h
  | internal keys children =>
    obtain ⟨l, r, hsplit, rfl, rfl, rfl⟩ := splitChild_internal h
    exact splitInternal_splitStep hsplit l.1 r.1 _

theorem splitRoot_splitStep {root left right : Node K} {s : K} {H H' : Leaves K V}
    (h : splitRoot root H = some (left, s, right, H')) :
    SplitStep (root.leaves, H) (left.leaves ++ right.leaves, H') := by
  cases root with
  | leaf p => exact splitLeafNode_splitStep h
  | internal keys children =>
    obtain ⟨l, r, hsplit, -, rfl, rfl, rfl⟩ := splitRoot_internal h
    exact splitInternal_splitStep hsplit _ r.1 _

theorem insertChild_perm {idx : ℕ} {key : K} {child : Node K} {keys : List K}
    {children : List (Node K)} (h : idx < children.length) :
    (insertChild idx key child keys children).2.Perm (child :: children) := by
  unfold insertChild
  split
  · exact List.perm_insertIdx child children h
  · exact List.perm_append_singleton _ _

theorem exists_append_of_getElem? {α : Type} {l : List α} {i : ℕ} {a : α} (h : l[i]? = some a) :
    ∃ l₁ l₂, l = l₁ ++ a :: l₂ ∧ l₁.length = i ∧ ∀ b, l.set i b = l₁ ++ b :: l₂ := by
  obtain ⟨hi, rfl⟩ := List.getElem?_eq_some_iff.1 h
  have hl : l = l.take i ++ l[i] :: l.drop (i + 1) := by
    rw [List.getElem_cons_drop, List.take_append_drop]
  have hlen : (l.take i).length = i := by
    rw [List.length_take]
    omega
  refine ⟨l.take i, l.drop (i + 1), hl, hlen, fun b => ?_⟩
  rw [List.set_eq_take_append_cons_drop, if_pos hi]

variable [LinearOrder K]

theorem makeRoom_splits {promoted key : K} {keys keys' : List K} {children children' : List (Node K)}
    {H H' : Leaves K V} {idx : ℕ}
    (h : makeRoom degree promoted key keys children H = some (idx, keys', children', H')) :
    Splits (children.flatMap Node.leaves, H) (children'.flatMap Node.leaves, H') := by
  obtain ⟨child, hchild, ⟨-, -, -, rfl, rfl⟩ | ⟨-, left, s, right, s', hsplit, hins, -, -⟩⟩ :=
    makeRoom_cases h
  · exact .refl
  · obtain ⟨cs₁, cs₂, rfl, hlen, hset⟩ := exists_append_of_getElem? hchild
    have hchildren : children'.Perm (right :: (cs₁ ++ left :: cs₂)) := by
      rw [show children' = (insertChild _ _ _ _ _).2 from congrArg Prod.snd hins, hset]
      refine insertChild_perm ?_
      rw [← hlen]
      simp
    have hstep : Splits ((cs₁ ++ child :: cs₂).flatMap Node.leaves, H)
        ((cs₁ ++ left :: right :: cs₂).flatMap Node.leaves, H') := by
      simpa using Splits.child (splitChild_splitStep hsplit).splits
        (A := cs₁.flatMap Node.leaves) (B := cs₂.flatMap Node.leaves)
    refine hstep.trans (Splits.of_perm (List.Perm.flatMap_right _ (hchildren.trans ?_)))
    have hmiddle : (cs₁ ++ [left] ++ right :: cs₂).Perm (right :: (cs₁ ++ [left] ++ cs₂)) :=
      List.perm_middle
    simpa using hmiddle.symm

theorem insertNonfull_induct {promoted : ℕ → K} {key : K} {value : V}
    {P : Node K → Leaves K V → Node K → Leaves K V → Prop}
    (leaf : ∀ p H, P (.leaf p) H (.leaf p) (H.modify p (·.insertKey key value)))
    (internal : ∀ {keys children H idx keys' children' H₁ child child' H'},
      makeRoom degree (promoted (Node.depth.depths children)) key keys children H =
        some (idx, keys', children', H₁) →
      children'[idx]? = some child → P child H₁ child' H' →
      P (.internal keys children) H (.internal keys' (children'.set idx child')) H')
    (node : Node K) : ∀ {H node' H'},
      insertNonfull degree promoted key value node H = some (node', H') → P node H node' H' := by
  induction hn : node.depth using Nat.strong_induction_on generalizing node with
  | _ n ih =>
    intro H node' H' h
    cases node with
    | leaf p =>
      simp only [insertNonfull, Option.some.injEq, Prod.mk.injEq] at h
      obtain ⟨rfl, rfl⟩ := h
      exact leaf p H
    | internal keys children =>
      rw [insertNonfull] at h
      split at h
      · simp at h
      · next idx keys' children' H₁ hroom =>
        split at h
        · simp at h
        · next child hchild =>
          obtain ⟨⟨child', H''⟩, hrec, h⟩ := Option.bind_eq_some_iff.1 h
          simp only [Option.pure_def, Option.some.injEq, Prod.mk.injEq] at h
          obtain ⟨rfl, rfl⟩ := h
          have hdepth : child.depth < n := by
            rw [← hn]
            exact Nat.lt_succ_of_le (makeRoom_depth hroom (List.mem_of_getElem? hchild))
          exact internal hroom hchild (ih _ hdepth child rfl hrec)

theorem removeRecursive_induct {key : K} {P : Node K → Leaves K V → Node K → Leaves K V → Bool → Prop}
    (leaf : ∀ p H, P (.leaf p) H (.leaf p) (H.modify p (·.removeKey key))
      ((leafAt H p).contains key &&
        isUnderflow degree (leafAt (H.modify p (·.removeKey key)) p).keys))
    (keep : ∀ {keys children H child child' H' under},
      children[lowerBound key keys]? = some child → P child H child' H' under →
      (under && emptyLeaf H' child') = false →
      P (.internal keys children) H (.internal keys (children.set (lowerBound key keys) child')) H'
        (isUnderflow degree keys))
    (erase : ∀ {keys children H child child' H' keys' children'},
      children[lowerBound key keys]? = some child → P child H child' H' true →
      emptyLeaf H' child' = true →
      (keys', children') =
        eraseChild (lowerBound key keys) keys (children.set (lowerBound key keys) child') →
      P (.internal keys children) H (.internal keys' children') H' (isUnderflow degree keys'))
    (node : Node K) : ∀ {H node' H' under},
      removeRecursive degree key node H = some (node', H', under) → P node H node' H' under := by
  induction hn : node.depth using Nat.strong_induction_on generalizing node with
  | _ n ih =>
    intro H node' H' under h
    cases node with
    | leaf p =>
      simp only [removeRecursive, Option.some.injEq, Prod.mk.injEq] at h
      obtain ⟨rfl, rfl, rfl⟩ := h
      exact leaf p H
    | internal keys children =>
      rw [removeRecursive] at h
      split at h
      · simp at h
      · next child hchild =>
        obtain ⟨⟨child', H'', under'⟩, hrec, h⟩ := Option.bind_eq_some_iff.1 h
        have hdepth : child.depth < n := by
          rw [← hn]
          exact Nat.lt_succ_of_le (Node.depth_le_depths (List.mem_of_getElem? hchild))
        have hP := ih _ hdepth child rfl hrec
        cases hempty : under' && emptyLeaf H'' child' with
        | false =>
          simp only [hempty, Bool.false_eq_true, if_false, Option.pure_def, Option.some.injEq,
            Prod.mk.injEq] at h
          obtain ⟨rfl, rfl, rfl⟩ := h
          exact keep hchild hP hempty
        | true =>
          simp only [hempty, if_true, Option.pure_def, Option.some.injEq, Prod.mk.injEq] at h
          obtain ⟨rfl, rfl, rfl⟩ := h
          obtain ⟨rfl, hleaf⟩ := Bool.and_eq_true_iff.1 hempty
          exact erase hchild hP hleaf rfl

theorem insertNonfull_internal {promoted : ℕ → K} {key : K} {value : V} {keys keys' : List K}
    {children children' : List (Node K)} {H H₁ : Leaves K V} {idx : ℕ} {child : Node K}
    (hroom : makeRoom degree (promoted (Node.depth.depths children)) key keys children H =
      some (idx, keys', children', H₁)) (hchild : children'[idx]? = some child) :
    insertNonfull degree promoted key value (.internal keys children) H =
      (insertNonfull degree promoted key value child H₁).map fun r =>
        (.internal keys' (children'.set idx r.1), r.2) := by
  rw [insertNonfull]
  split
  · next hnone => simp [hnone] at hroom
  · next idx₁ keys₁ children₁ H₂ hroom₁ =>
    obtain ⟨rfl, rfl, rfl, rfl⟩ : idx₁ = idx ∧ keys₁ = keys' ∧ children₁ = children' ∧ H₂ = H₁ := by
      simpa using hroom₁.symm.trans hroom
    split
    · next hnone => simp [hnone] at hchild
    · next child₁ hchild₁ =>
      obtain rfl : child₁ = child := Option.some_inj.1 (hchild₁.symm.trans hchild)
      cases insertNonfull degree promoted key value child₁ H₂ <;> rfl

theorem removeRecursive_internal {key : K} {keys : List K} {children : List (Node K)}
    {H H' : Leaves K V} {child child' : Node K} {under : Bool}
    (hchild : children[lowerBound key keys]? = some child)
    (hrec : removeRecursive degree key child H = some (child', H', under)) :
    removeRecursive degree key (.internal keys children) H =
      let r :=
        if under && emptyLeaf H' child' then
          eraseChild (lowerBound key keys) keys (children.set (lowerBound key keys) child')
        else (keys, children.set (lowerBound key keys) child')
      some (.internal r.1 r.2, H', isUnderflow degree r.1) := by
  rw [removeRecursive]
  split
  · next hnone => simp [hnone] at hchild
  · next c hc =>
    obtain rfl : c = child := Option.some_inj.1 (hc.symm.trans hchild)
    rw [hrec]
    rfl

theorem insertNonfull_spec {promoted : ℕ → K} {key : K} {value : V} {node node' : Node K}
    {H H' : Leaves K V} (h : insertNonfull degree promoted key value node H = some (node', H')) :
    ∃ H₁ p, Splits (node.leaves, H) (node'.leaves, H₁) ∧ p ∈ node'.leaves ∧
      H' = H₁.modify p (·.insertKey key value) := by
  refine insertNonfull_induct (P := fun node H node' H' => ∃ H₁ p,
    Splits (node.leaves, H) (node'.leaves, H₁) ∧ p ∈ node'.leaves ∧
      H' = H₁.modify p (·.insertKey key value)) ?_ ?_ node h
  · intro p H
    exact ⟨H, p, .refl, by simp, rfl⟩
  · intro keys children H idx keys' children' H₁ child child' H' hroom hchild hrec
    obtain ⟨H₂, p, hsplits, hp, hH⟩ := hrec
    obtain ⟨cs₁, cs₂, rfl, -, hset⟩ := exists_append_of_getElem? hchild
    refine ⟨H₂, p, ?_, ?_, hH⟩
    · rw [Node.leaves_internal, Node.leaves_internal, hset]
      refine (makeRoom_splits hroom).trans ?_
      simpa using Splits.child hsplits (A := cs₁.flatMap Node.leaves) (B := cs₂.flatMap Node.leaves)
    · rw [Node.leaves_internal, hset]
      simp [hp]

theorem findLeaf_internal {key : K} {keys : List K} {children : List (Node K)} {child : Node K}
    (h : children[lowerBound key keys]? = some child) :
    findLeaf key (.internal keys children) = findLeaf key child := by
  rw [findLeaf]
  split
  · next hnone => simp [hnone] at h
  · next c hc =>
    obtain rfl : c = child := Option.some_inj.1 (hc.symm.trans h)
    rfl

/-- `remove_recursive` removes the key in the leaf that `find_leaf` finds, and takes
out of the tree at most this leaf, if it is empty then. -/
structure Removes (key : K) (node node' : Node K) (H H' : Leaves K V) (p : ℕ) : Prop where
  findLeaf : BPlus.findLeaf key node = some p
  mem : p ∈ node.leaves
  store : H' = H.modify p (·.removeKey key)
  leaves : node'.leaves = node.leaves ∨ (leafAt H' p).keys = [] ∧ node.leaves.Perm (p :: node'.leaves)
  leaf : ∀ q, node' = .leaf q → node = .leaf q

theorem removeRecursive_spec {key : K} {node node' : Node K} {H H' : Leaves K V} {under : Bool}
    (h : removeRecursive degree key node H = some (node', H', under)) :
    ∃ p, Removes key node node' H H' p := by
  refine removeRecursive_induct (P := fun node H node' H' _ => ∃ p, Removes key node node' H H' p)
    ?_ ?_ ?_ node h
  · intro p H
    refine ⟨p, ?_, by simp, rfl, .inl rfl, fun q hq => hq⟩
    rw [findLeaf]
  · intro keys children H child child' H' under hchild hrec hempty
    obtain ⟨p, hrec⟩ := hrec
    have hfind := findLeaf_internal hchild
    obtain ⟨cs₁, cs₂, rfl, -, hset⟩ := exists_append_of_getElem? hchild
    rw [hset]
    refine ⟨p, hfind.trans hrec.findLeaf, ?_, hrec.store, ?_, by simp⟩
    · simp [Node.leaves_internal, hrec.mem]
    · simp only [Node.leaves_internal, List.flatMap_append, List.flatMap_cons]
      rcases hrec.leaves with heq | ⟨hnil, hperm⟩
      · exact .inl (by rw [heq])
      · refine .inr ⟨hnil, ?_⟩
        have := ((hperm.append_right (cs₂.flatMap Node.leaves)).append_left (cs₁.flatMap Node.leaves))
        exact this.trans List.perm_middle
  · intro keys children H child child' H' keys' children' hchild hrec hempty herase
    obtain ⟨p, hrec⟩ := hrec
    have hfind := findLeaf_internal hchild
    obtain ⟨cs₁, cs₂, rfl, hlen, hset⟩ := exists_append_of_getElem? hchild
    -- only a leaf is erased, and it is the one that the key was removed from
    cases child' with
    | internal _ _ => simp [emptyLeaf] at hempty
    | leaf q =>
      obtain rfl := hrec.leaf q rfl
      obtain rfl : p = q := by simpa using hrec.mem
      have hchildren : children' = cs₁ ++ cs₂ := by
        rw [show children' = (eraseChild _ _ _).2 from congrArg Prod.snd herase, eraseChild, hset,
          ← hlen, eraseIdx_length_append]
      refine ⟨p, hfind.trans hrec.findLeaf, ?_, hrec.store, .inr ⟨?_, ?_⟩, by simp⟩
      · simp [Node.leaves_internal]
      · simpa [emptyLeaf] using hempty
      · rw [hchildren]
        simp only [Node.leaves_internal, List.flatMap_append, List.flatMap_cons, Node.leaves_leaf]
        exact List.perm_middle

end BPlus

end LearnSpdk
