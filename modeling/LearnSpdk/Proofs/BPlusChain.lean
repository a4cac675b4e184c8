import LearnSpdk.Lib.Attempt
import LearnSpdk.Lib.Chain
import LearnSpdk.Proofs.BPlusDescent

/-! The chain of leaves along `first_leaf` and `next` carries the same pairs as the
tree, whatever happened to the separators: a leaf of the tree is on the chain, and a
leaf of the chain that left the tree is empty. -/

namespace LearnSpdk

open Lib BPlus

variable {K V : Type}

namespace BPlus

variable {H : Leaves K V} {T ps : List ℕ} {first : Option ℕ} {p : ℕ} {k : K} {v : V}

/-- The link that a walk along the chain follows. -/
def nextOf (H : Leaves K V) (p : ℕ) : Option ℕ := (leafAt H p).next

def pairsOf (H : Leaves K V) (ps : List ℕ) : List (K × V) := ps.flatMap fun p => (leafAt H p).pairs

theorem walk_eq_some {o : Option ℕ} {n : ℕ} (h : Visits (nextOf H) o ps) (hn : ps.length ≤ n) :
    walk H n o = some ps := by
  induction ps generalizing o n with
  | nil =>
    obtain rfl : o = none := h
    cases n <;> rfl
  | cons p ps ih =>
    obtain ⟨rfl, h⟩ := h
    cases n with
    | zero => simp at hn
    | succ n =>
      have hrest : walk H n (leafAt H p).next = some ps := ih h (Nat.le_of_succ_le_succ hn)
      simp [walk, hrest]

theorem length_le_of_nodup {n : ℕ} (h : ps.Nodup) (hlt : ∀ p ∈ ps, p < n) : ps.length ≤ n := by
  have hsub : ps ⊆ List.range n := fun q hq => List.mem_range.2 (hlt q hq)
  simpa using (List.subperm_of_subset h hsub).length_le

/-- A change to the leaf `p` changes the pairs at its place only. -/
theorem pairsOf_congr {H H' : Leaves K V} (h : ∀ q ∈ ps, leafAt H' q = leafAt H q) :
    pairsOf H' ps = pairsOf H ps := by
  unfold pairsOf
  rw [List.flatMap_congr fun q hq => by rw [h q hq]]

theorem pairsOf_append (ps qs : List ℕ) : pairsOf H (ps ++ qs) = pairsOf H ps ++ pairsOf H qs :=
  List.flatMap_append

theorem pairsOf_cons (p : ℕ) (ps : List ℕ) : pairsOf H (p :: ps) = (leafAt H p).pairs ++ pairsOf H ps :=
  List.flatMap_cons

theorem pairsOf_of_nil (h : (leafAt H p).pairs = []) (ps₁ ps₂ : List ℕ) :
    pairsOf H (ps₁ ++ p :: ps₂) = pairsOf H (ps₁ ++ ps₂) := by
  rw [pairsOf_append, pairsOf_cons, h, List.nil_append, pairsOf_append]

variable [LinearOrder K]

/-- The chain `ps` of a tree with leaves `T`. -/
structure Linked (T : List ℕ) (H : Leaves K V) (first : Option ℕ) (ps : List ℕ) : Prop where
  visits : Visits (nextOf H) first ps
  nodup : ps.Nodup
  lt : ∀ p ∈ ps, p < H.length
  tree : T.Nodup
  mem : ∀ p ∈ T, p ∈ ps
  empty : ∀ p ∈ ps, p ∉ T → (leafAt H p).keys = []
  ok : ∀ l ∈ H, l.Ok

theorem linked_nil (hok : ∀ l ∈ H, l.Ok) : Linked [] H none [] where
  visits := rfl
  nodup := List.nodup_nil
  lt := by simp
  tree := List.nodup_nil
  mem := by simp
  empty := by simp
  ok := hok

theorem linked_singleton (hok : ∀ l ∈ H, l.Ok) (k : K) (v : V) :
    Linked [H.length] (H ++ [⟨[k], [v], none⟩]) (some H.length) [H.length] where
  visits := ⟨rfl, congrArg LeafNode.next leafAt_append_length⟩
  nodup := List.nodup_singleton _
  lt := by simp
  tree := List.nodup_singleton _
  mem := by simp
  empty := by simp
  ok := by
    intro l hl
    rcases List.mem_append.1 hl with hl | hl
    · exact hok l hl
    · rw [List.mem_singleton.1 hl]
      exact ⟨rfl, List.pairwise_singleton _ _⟩

theorem Linked.leafAt_ok (h : Linked T H first ps) (hp : p < H.length) : (leafAt H p).Ok := by
  rw [leafAt, List.getElem?_eq_getElem hp]
  exact h.ok _ (List.getElem_mem hp)

theorem Linked.walk (h : Linked T H first ps) : walk H H.length first = some ps :=
  walk_eq_some h.visits (length_le_of_nodup h.nodup h.lt)

theorem Linked.perm (h : Linked T H first ps) {T' : List ℕ} (hT : T'.Perm T) :
    Linked T' H first ps where
  visits := h.visits
  nodup := h.nodup
  lt := h.lt
  tree := hT.nodup_iff.2 h.tree
  mem p hp := h.mem p (hT.mem_iff.1 hp)
  empty p hp hT' := h.empty p hp fun hp' => hT' (hT.mem_iff.2 hp')
  ok := h.ok

theorem Linked.pairs_perm (h : Linked T H first ps) : (pairsOf H ps).Perm (pairsOf H T) := by
  have hfilter : pairsOf H ps = pairsOf H (ps.filter (· ∈ T)) := by
    have hempty := h.empty
    clear h
    induction ps with
    | nil => rfl
    | cons q ps ih =>
      have hrest := ih fun p hp => hempty p (by simp [hp])
      by_cases hq : q ∈ T
      · rw [List.filter_cons_of_pos (by simpa using hq), pairsOf_cons, pairsOf_cons, hrest]
      · have hpairs : (leafAt H q).pairs = [] := by
          rw [LeafNode.pairs, hempty q (by simp) hq, List.zip_nil_left]
        rw [List.filter_cons_of_neg (by simpa using hq), pairsOf_cons, hpairs, hrest]
        rfl
  rw [hfilter]
  refine List.Perm.flatMap_right _ ?_
  rw [List.perm_ext_iff_of_nodup (h.nodup.filter _) h.tree]
  intro p
  have hmem := h.mem p
  simp only [List.mem_filter, decide_eq_true_eq]
  tauto

/-- With the leaves of the tree in the order of the chain, the pairs are the same list. -/
theorem Linked.pairs_eq (h : Linked T H first ps) (hsub : T.Sublist ps) :
    pairsOf H ps = pairsOf H T := by
  have hempty := h.empty
  have hnodup := h.nodup
  clear h
  induction hsub with
  | slnil => rfl
  | cons q hsub ih =>
    obtain ⟨hq, hnodup⟩ := List.nodup_cons.1 hnodup
    have hnil : (leafAt H q).keys = [] := hempty q (by simp) fun hmem => hq (hsub.subset hmem)
    rw [pairsOf_cons, LeafNode.pairs, hnil, List.zip_nil_left, List.nil_append]
    exact ih (fun p hp => hempty p (by simp [hp])) hnodup
  | cons_cons q hsub ih =>
    obtain ⟨hq, hnodup⟩ := List.nodup_cons.1 hnodup
    rw [pairsOf_cons, pairsOf_cons, ih ?_ hnodup]
    intro p hp hmem
    refine hempty p (by simp [hp]) fun hmem' => ?_
    rcases List.mem_cons.1 hmem' with rfl | hmem'
    · exact hq hp
    · exact hmem hmem'

theorem Linked.modify {f : LeafNode K V → LeafNode K V} (h : Linked T H first ps) (hp : p ∈ T)
    (hnext : ∀ l, (f l).next = l.next) (hok : ∀ l : LeafNode K V, l.Ok → (f l).Ok) :
    Linked T (H.modify p f) first ps where
  visits := by
    refine h.visits.congr fun q hq => ?_
    by_cases hqp : q = p
    · subst hqp
      rw [nextOf, leafAt_modify_self (h.lt q hq), hnext, nextOf]
    · rw [nextOf, leafAt_modify_of_ne hqp, nextOf]
  nodup := h.nodup
  lt := by simpa using h.lt
  tree := h.tree
  mem := h.mem
  empty := by
    intro q hq hT
    have hne : q ≠ p := by
      rintro rfl
      exact hT hp
    rw [leafAt_modify_of_ne hne]
    exact h.empty q hq hT
  ok := by
    intro l hl
    obtain ⟨i, hi, rfl⟩ := List.getElem_of_mem hl
    rw [List.length_modify] at hi
    rw [List.getElem_modify]
    split
    · exact hok _ (h.ok _ (List.getElem_mem hi))
    · exact h.ok _ (List.getElem_mem hi)

/-- The pairs on the chain, opened at the leaf `p`, before and after `p` is given new
contents. -/
theorem Linked.open (h : Linked T H first ps) (hp : p ∈ ps) :
    ∃ A B, pairsOf H ps = A ++ ((leafAt H p).pairs ++ B) ∧
      ∀ f : LeafNode K V → LeafNode K V,
        pairsOf (H.modify p f) ps = A ++ ((f (leafAt H p)).pairs ++ B) := by
  obtain ⟨qs, rs, rfl⟩ := List.append_of_mem hp
  have hlt := h.lt p hp
  obtain ⟨hqs, hrs⟩ := ne_of_nodup_append h.nodup
  refine ⟨pairsOf H qs, pairsOf H rs, by rw [pairsOf_append, pairsOf_cons], fun f => ?_⟩
  rw [pairsOf_append, pairsOf_cons, leafAt_modify_self hlt,
    pairsOf_congr fun q hq => leafAt_modify_of_ne (hqs q hq),
    pairsOf_congr fun q hq => leafAt_modify_of_ne (hrs q hq)]

theorem Linked.insertKey (h : Linked T H first ps) (hp : p ∈ T) (k : K) (v : V) :
    Linked T (H.modify p (·.insertKey k v)) first ps ∧
      (pairsOf (H.modify p (·.insertKey k v)) ps).Perm ((k, v) :: pairsOf H ps) := by
  refine ⟨h.modify hp (fun _ => rfl) fun l hl => (hl.insertKey k v).1, ?_⟩
  obtain ⟨A, B, hbefore, hafter⟩ := h.open (h.mem p hp)
  obtain ⟨-, lo, hi, hpairs, hpairs', -⟩ :=
    (h.leafAt_ok (h.lt p (h.mem p hp))).insertKey k v
  rw [hafter, hbefore, hpairs, hpairs']
  have hmiddle : (A ++ lo ++ (k, v) :: (hi ++ B)).Perm ((k, v) :: (A ++ lo ++ (hi ++ B))) :=
    List.perm_middle
  simpa using hmiddle

/-- `LeafNode::split` links the new leaf in behind the old one. -/
theorem Linked.splitLeaf (h : Linked T H first ps) (hp : p ∈ T) :
    ∃ qs rs, ps = qs ++ p :: rs ∧
      Linked (H.length :: T) (splitLeaf p H) first (qs ++ p :: H.length :: rs) ∧
      pairsOf (splitLeaf p H) (qs ++ p :: H.length :: rs) = pairsOf H ps := by
  have hps := h.mem p hp
  have hlt := h.lt p hps
  obtain ⟨qs, rs, rfl⟩ := List.append_of_mem hps
  obtain ⟨hqs, hrs⟩ := ne_of_nodup_append h.nodup
  have hnew : H.length ∉ qs ++ p :: rs := fun hmem => lt_irrefl _ (h.lt _ hmem)
  have hperm : (qs ++ p :: H.length :: rs).Perm (H.length :: (qs ++ p :: rs)) := by
    have hmiddle : (qs ++ [p] ++ H.length :: rs).Perm (H.length :: (qs ++ [p] ++ rs)) :=
      List.perm_middle
    simpa using hmiddle
  have hother {q : ℕ} (hq : q ∈ qs ++ p :: rs) (hne : q ≠ p) :
      leafAt (BPlus.splitLeaf p H) q = leafAt H q :=
    leafAt_splitLeaf_of_ne (ne_of_lt (h.lt q hq)) hne
  refine ⟨qs, rs, rfl, ⟨?_, ?_, ?_, ?_, ?_, ?_, ?_⟩, ?_⟩
  · refine h.visits.insert h.nodup hnew ?_ ?_ fun r hr hr' => ?_
    · rw [nextOf, leafAt_splitLeaf_self hlt]
    · rw [nextOf, leafAt_splitLeaf_new, nextOf]
    · rw [nextOf, leafAt_splitLeaf_of_ne hr' hr, nextOf]
  · exact hperm.nodup_iff.2 (List.nodup_cons.2 ⟨hnew, h.nodup⟩)
  · intro q hq
    rw [length_splitLeaf]
    rcases List.mem_cons.1 (hperm.mem_iff.1 hq) with rfl | hq
    · exact Nat.lt_succ_self _
    · exact Nat.lt_succ_of_lt (h.lt q hq)
  · exact List.nodup_cons.2 ⟨fun hmem => hnew (h.mem _ hmem), h.tree⟩
  · intro q hq
    rw [hperm.mem_iff]
    rcases List.mem_cons.1 hq with rfl | hq
    · simp
    · exact List.mem_cons_of_mem _ (h.mem q hq)
  · intro q hq hT
    rw [List.mem_cons, not_or] at hT
    have hq' := (List.mem_cons.1 (hperm.mem_iff.1 hq)).resolve_left hT.1
    have hne : q ≠ p := by
      rintro rfl
      exact hT.2 hp
    rw [hother hq' hne]
    exact h.empty q hq' hT.2
  · intro l hl
    have hleaf := h.leafAt_ok hlt
    rcases List.mem_append.1 hl with hl | hl
    · rcases List.mem_or_eq_of_mem_set hl with hl | rfl
      · exact h.ok l hl
      · exact hleaf.take _ _
    · rw [List.mem_singleton.1 hl]
      exact hleaf.drop _ _
  · rw [pairsOf_append, pairsOf_append, pairsOf_cons, pairsOf_cons, pairsOf_cons,
      pairsOf_congr fun q hq => hother (by simp [hq]) (hqs q hq),
      pairsOf_congr fun q hq => hother (by simp [hq]) (hrs q hq),
      leafAt_splitLeaf_self hlt, leafAt_splitLeaf_new, LeafNode.pairs_take, LeafNode.pairs_drop,
      ← List.append_assoc (List.take _ _), List.take_append_drop]

theorem Linked.splits {T' : List ℕ} {H' : Leaves K V} (h : Linked T H first ps)
    (hs : Splits (T, H) (T', H')) :
    ∃ ps', Linked T' H' first ps' ∧ pairsOf H' ps' = pairsOf H ps := by
  suffices hgoal : ∀ a b : List ℕ × Leaves K V, Splits a b → ∀ ps, Linked a.1 a.2 first ps →
      ∃ ps', Linked b.1 b.2 first ps' ∧ pairsOf b.2 ps' = pairsOf a.2 ps from
    hgoal _ _ hs ps h
  intro a b hab
  induction hab with
  | refl => exact fun ps h => ⟨ps, h, rfl⟩
  | tail _ hstep ih =>
    intro ps h
    obtain ⟨ps₁, h₁, hpairs⟩ := ih ps h
    rcases hstep with ⟨hperm, hH⟩ | ⟨p, hp, hperm, hH⟩
    · rw [hH]
      exact ⟨ps₁, h₁.perm hperm, hpairs⟩
    · obtain ⟨qs, rs, -, h₂, hpairs₂⟩ := h₁.splitLeaf hp
      rw [hH]
      exact ⟨_, h₂.perm hperm, hpairs₂.trans hpairs⟩

theorem Linked.removeKey (h : Linked T H first ps) (hp : p ∈ T) (k : K) :
    Linked T (H.modify p (·.removeKey k)) first ps ∧
      ((leafAt H p).find k = none → pairsOf (H.modify p (·.removeKey k)) ps = pairsOf H ps) ∧
      ∀ v, (leafAt H p).find k = some v →
        (pairsOf H ps).Perm ((k, v) :: pairsOf (H.modify p (·.removeKey k)) ps) := by
  have hok := h.leafAt_ok (h.lt p (h.mem p hp))
  obtain ⟨A, B, hbefore, hafter⟩ := h.open (h.mem p hp)
  refine ⟨h.modify hp (fun l => ?_) fun l hl => hl.removeKey k, fun hfind => ?_, fun v hfind => ?_⟩
  · rw [LeafNode.removeKey]
    split <;> rfl
  · have hk : k ∉ (leafAt H p).keys := by
      rw [← hok.map_fst, ← lookup_ne_none_iff, ← hok.find]
      exact not_not.2 hfind
    rw [hafter, hbefore, hok.removeKey_of_notMem hk]
  · have hk : k ∈ (leafAt H p).keys := by
      rw [← hok.map_fst, ← lookup_ne_none_iff, ← hok.find, hfind]
      simp
    obtain ⟨-, lo, w, hi, hpairs, hpairs', hlt, -⟩ := hok.removeKey_of_mem hk
    rw [hok.find, hpairs, lookup_insert_self hlt] at hfind
    obtain rfl := Option.some_inj.1 hfind
    rw [hafter, hbefore, hpairs, hpairs']
    have hmiddle : (A ++ lo ++ (k, w) :: (hi ++ B)).Perm ((k, w) :: (A ++ lo ++ (hi ++ B))) :=
      List.perm_middle
    simpa using hmiddle

/-- An empty leaf is taken out of the tree. -/
theorem Linked.erase {T' : List ℕ} (h : Linked T H first ps) (hT : T.Perm (p :: T'))
    (hp : (leafAt H p).keys = []) : Linked T' H first ps where
  visits := h.visits
  nodup := h.nodup
  lt := h.lt
  tree := (List.nodup_cons.1 (hT.nodup_iff.1 h.tree)).2
  mem q hq := h.mem q (hT.mem_iff.2 (List.mem_cons_of_mem _ hq))
  empty := by
    intro q hq hT'
    by_cases hqp : q = p
    · rw [hqp, hp]
    · exact h.empty q hq fun hmem => hT' ((List.mem_cons.1 (hT.mem_iff.1 hmem)).resolve_left hqp)
  ok := h.ok

end BPlus

namespace BPlusTree

variable {t t' : BPlusTree K V} {ps : List ℕ}

/-- Everything the split of the root in `insert` can do. -/
theorem growRoot_cases {root root' : Node K} {H : Leaves K V} (h : t.growRoot root = some (root', H)) :
    (nodeFull t.degree t.leaves root = false ∧ root' = root ∧ H = t.leaves) ∨
      nodeFull t.degree t.leaves root = true ∧ ∃ left s right,
        splitRoot root t.leaves = some (left, s, right, H) ∧ root' = .internal [s] [left, right] := by
  unfold growRoot at h
  split at h
  · next hfull =>
    obtain ⟨⟨left, s, right, H₂⟩, hsplit, hroot'⟩ := Option.bind_eq_some_iff.1 h
    simp only [Option.pure_def, Option.some.injEq, Prod.mk.injEq] at hroot'
    obtain ⟨rfl, rfl⟩ := hroot'
    exact .inr ⟨hfull, left, s, right, hsplit, rfl⟩
  · next hfull =>
    simp only [Option.some.injEq, Prod.mk.injEq] at h
    exact .inl ⟨by simpa using hfull, h.1.symm, h.2.symm⟩

variable [LinearOrder K]

def Chained (t : BPlusTree K V) (ps : List ℕ) : Prop := Linked t.treeLeaves t.leaves t.firstLeaf ps

theorem Chained.chain (h : t.Chained ps) : t.chain = some ps := h.walk

theorem Chained.chainPairs (h : t.Chained ps) : t.chainPairs = some (pairsOf t.leaves ps) := by
  rw [BPlusTree.chainPairs, h.chain]
  rfl

theorem Chained.size (h : t.Chained ps) : t.size = some (pairsOf t.leaves ps).length := by
  have hfold (qs : List ℕ) (hqs : ∀ q ∈ qs, q ∈ ps) (n : ℕ) :
      qs.foldl (fun count p => count + (leafAt t.leaves p).keys.length) n =
        n + (pairsOf t.leaves qs).length := by
    induction qs generalizing n with
    | nil => rfl
    | cons q qs ih =>
      have hq := h.leafAt_ok (h.lt q (hqs q (by simp)))
      rw [List.foldl_cons, ih (fun r hr => hqs r (by simp [hr])), pairsOf_cons, List.length_append,
        hq.length_pairs]
      omega
  rw [BPlusTree.size, h.chain]
  exact congrArg some ((hfold ps (fun _ hq => hq) 0).trans (Nat.zero_add _))

theorem chained_fresh (deg : ℤ) : (fresh K V deg).Chained [] := linked_nil (by simp [fresh])

/-- An insertion into a tree that is not empty, after its root was split where it was full. -/
theorem insert_grown {promoted : ℕ → K} {k : K} {v : V} {root : Node K} (hroot : t.root = some root)
    (h : t.insert promoted k v = some t') :
    ∃ root₁ H₁ root' H', t.growRoot root = some (root₁, H₁) ∧
      insertNonfull t.degree promoted k v root₁ H₁ = some (root', H') ∧
      t' = { t with leaves := H', root := some root' } := by
  simp only [BPlusTree.insert, hroot] at h
  obtain ⟨⟨root₁, H₁⟩, hgrown, h⟩ := Option.bind_eq_some_iff.1 h
  obtain ⟨⟨root', H'⟩, hrec, h⟩ := Option.bind_eq_some_iff.1 h
  exact ⟨root₁, H₁, root', H', hgrown, hrec, (Option.some_inj.1 h).symm⟩

/-- Everything `insert` can do to a tree that is not empty: perhaps split the root, and
call `insert_nonfull`. -/
theorem insert_cases {promoted : ℕ → K} {k : K} {v : V} {root : Node K} (hroot : t.root = some root)
    (h : t.insert promoted k v = some t') :
    ∃ root₁ H₁ root' H', insertNonfull t.degree promoted k v root₁ H₁ = some (root', H') ∧
      t' = { t with leaves := H', root := some root' } ∧
      (nodeFull t.degree t.leaves root = false ∧ root₁ = root ∧ H₁ = t.leaves ∨
        nodeFull t.degree t.leaves root = true ∧ ∃ left s right,
          splitRoot root t.leaves = some (left, s, right, H₁) ∧
          root₁ = .internal [s] [left, right]) := by
  obtain ⟨root₁, H₁, root', H', hgrown, hrec, ht'⟩ := insert_grown hroot h
  exact ⟨root₁, H₁, root', H', hrec, ht', growRoot_cases hgrown⟩

theorem Chained.insert {promoted : ℕ → K} {k : K} {v : V} (h : t.Chained ps)
    (hi : t.insert promoted k v = some t') :
    ∃ ps', t'.Chained ps' ∧ (pairsOf t'.leaves ps').Perm ((k, v) :: pairsOf t.leaves ps) := by
  cases hroot : t.root with
  | none =>
    simp only [BPlusTree.insert, hroot, Option.some.injEq] at hi
    subst hi
    have hempty : pairsOf t.leaves ps = [] := by
      refine List.Perm.eq_nil ((Linked.pairs_perm h).trans ?_)
      rw [treeLeaves, hroot]
      exact List.Perm.refl _
    have hleaf : LeafNode.insertKey k v ⟨[], [], none⟩ = ⟨[k], [v], none⟩ := rfl
    simp only [hleaf]
    refine ⟨[t.leaves.length], ?_, ?_⟩
    · simpa [Chained, treeLeaves] using linked_singleton (Linked.ok h) k v
    · rw [hempty, pairsOf, List.flatMap_singleton, leafAt_append_length]
      exact List.Perm.refl _
  | some root =>
    obtain ⟨root₁, H₁, root', H', hrec, rfl, hsplit⟩ := insert_cases hroot hi
    have hsplits : Splits (t.treeLeaves, t.leaves) (root₁.leaves, H₁) := by
      rw [treeLeaves, hroot]
      rcases hsplit with ⟨-, rfl, rfl⟩ | ⟨-, left, s, right, hsplit, rfl⟩
      · exact .refl
      · rw [Node.leaves_internal]
        simpa using (splitRoot_splitStep hsplit).splits
    obtain ⟨H₂, p, hsplits₂, hp, rfl⟩ := insertNonfull_spec hrec
    obtain ⟨ps', hlinked, hpairs⟩ := Linked.splits h (hsplits.trans hsplits₂)
    obtain ⟨hlinked', hperm⟩ := hlinked.insertKey hp k v
    exact ⟨ps', hlinked', hpairs ▸ hperm⟩

theorem find_eq {k : K} {root : Node K} {p : ℕ} (hroot : t.root = some root)
    (hp : findLeaf k root = some p) : t.find k = (leafAt t.leaves p).find k := by
  simp [BPlusTree.find, hroot, hp]

/-- Everything `remove` can do to a tree that is not empty. -/
theorem remove_cases {k : K} {root : Node K} (hroot : t.root = some root)
    (h : t.remove k = some t') :
    ∃ root' H' under, removeRecursive t.degree k root t.leaves = some (root', H', under) ∧
      ((∃ p, root' = .leaf p ∧ (leafAt H' p).keys = [] ∧
          t' = { t with leaves := H', root := none, firstLeaf := none }) ∨
        (∃ p, root' = .leaf p ∧ (leafAt H' p).keys ≠ [] ∧
          t' = { t with leaves := H', root := some root' }) ∨
        (∃ child, root' = .internal [] [child] ∧ t' = { t with leaves := H', root := some child }) ∨
        ∃ keys children, root' = .internal keys children ∧
          (∀ child, ¬(keys = [] ∧ children = [child])) ∧
          t' = { t with leaves := H', root := some root' }) := by
  simp only [BPlusTree.remove, hroot] at h
  obtain ⟨⟨root', H', under⟩, hrec, h⟩ := Option.bind_eq_some_iff.1 h
  refine ⟨root', H', under, hrec, ?_⟩
  simp only at h
  split at h
  · next p =>
    split at h
    · next hempty =>
      exact .inl ⟨p, rfl, by simpa using hempty, (Option.some_inj.1 h).symm⟩
    · next hempty =>
      exact .inr (.inl ⟨p, rfl, by simpa using hempty, (Option.some_inj.1 h).symm⟩)
  · next child => exact .inr (.inr (.inl ⟨child, rfl, (Option.some_inj.1 h).symm⟩))
  · next keys children hne =>
    refine .inr (.inr (.inr ⟨keys, children, rfl, ?_, (Option.some_inj.1 h).symm⟩))
    rintro child ⟨rfl, rfl⟩
    exact hne child rfl rfl

theorem Chained.remove {k : K} (h : t.Chained ps) (hr : t.remove k = some t') :
    ∃ ps', t'.Chained ps' ∧ (t.find k = none → pairsOf t'.leaves ps' = pairsOf t.leaves ps) ∧
      ∀ v, t.find k = some v → (pairsOf t.leaves ps).Perm ((k, v) :: pairsOf t'.leaves ps') := by
  cases hroot : t.root with
  | none =>
    simp only [BPlusTree.remove, hroot, Option.some.injEq] at hr
    subst hr
    exact ⟨ps, h, fun _ => rfl, by simp [BPlusTree.find, hroot]⟩
  | some root =>
    obtain ⟨root', H', under, hrec, hcases⟩ := remove_cases hroot hr
    obtain ⟨p, hp⟩ := removeRecursive_spec hrec
    have hT : t.treeLeaves = root.leaves := by rw [treeLeaves, hroot]; rfl
    rw [find_eq hroot hp.findLeaf]
    obtain ⟨hlinked, hpairs⟩ := Linked.removeKey h (hT ▸ hp.mem) k
    rw [← hp.store] at hlinked hpairs
    have hlinked' : Linked root'.leaves H' t.firstLeaf ps := by
      rcases hp.leaves with heq | ⟨hnil, hperm⟩
      · rw [heq, ← hT]
        exact hlinked
      · exact hlinked.erase (hT ▸ hperm) hnil
    rcases hcases with ⟨q, rfl, hnil, rfl⟩ | ⟨q, rfl, -, rfl⟩ | ⟨child, rfl, rfl⟩ |
      ⟨keys, children, rfl, -, rfl⟩
    · -- the chain is given up with the tree, and holds nothing then
      have hempty : pairsOf H' ps = [] := by
        refine List.Perm.eq_nil (hlinked'.pairs_perm.trans ?_)
        simp [pairsOf, LeafNode.pairs, hnil]
      rw [hempty] at hpairs
      exact ⟨[], linked_nil hlinked'.ok, hpairs⟩
    · exact ⟨ps, hlinked', hpairs⟩
    · refine ⟨ps, ?_, hpairs⟩
      rw [Node.leaves_internal] at hlinked'
      simpa [Chained, treeLeaves] using hlinked'
    · exact ⟨ps, hlinked', hpairs⟩

def inserts (ops : List (Op K V)) : ℕ := ops.countP fun op => op matches .insert _

/-- The number of calls of `remove` in a run that took effect: `find` knew the key. -/
def removals : List (Op K V) → BPlusTree K V → ℕ
  | [], _ => 0
  | op :: ops, t =>
    (match op with
      | .insert _ => 0
      | .remove k => if (t.find k).isSome then 1 else 0) +
    (step op t).elim 0 (removals ops)

theorem Chained.run {ops : List (Op K V)} (h : t.Chained ps) (hr : attempt step t ops = some t') :
    ∃ ps', t'.Chained ps' ∧
      (pairsOf t'.leaves ps').length + removals ops t = (pairsOf t.leaves ps).length + inserts ops := by
  induction ops generalizing t ps with
  | nil =>
    obtain rfl := Option.some_inj.1 hr
    exact ⟨ps, h, rfl⟩
  | cons op ops ih =>
    rw [attempt_cons] at hr
    obtain ⟨t₁, hstep, hrest⟩ := Option.bind_eq_some_iff.1 hr
    cases op with
    | insert i =>
      obtain ⟨ps₁, h₁, hperm⟩ := h.insert hstep
      obtain ⟨ps', h', hlen⟩ := ih h₁ hrest
      refine ⟨ps', h', ?_⟩
      have hlen₁ := hperm.length_eq
      simp only [inserts, removals, hstep, Option.elim_some, List.countP_cons, List.length_cons,
        if_true] at hlen hlen₁ ⊢
      omega
    | remove k =>
      obtain ⟨ps₁, h₁, hnone, hsome⟩ := h.remove hstep
      obtain ⟨ps', h', hlen⟩ := ih h₁ hrest
      refine ⟨ps', h', ?_⟩
      simp only [inserts, removals, hstep, Option.elim_some, List.countP_cons, Bool.false_eq_true,
        if_false] at hlen ⊢
      cases hfind : t.find k with
      | none =>
        rw [hnone hfind] at hlen
        simpa using hlen
      | some v =>
        have hlen₁ := (hsome v hfind).length_eq
        simp only [Option.isSome_some, if_true, List.length_cons] at hlen₁ ⊢
        omega

/-- The chain and the tree hold the same pairs after any run; an insertion adds its pair
and a removal takes out at most one, with its key. -/
theorem run_conserves_pairs (deg : ℤ) (ops : List (Op K V)) (t : BPlusTree K V)
    (h : attempt step (fresh K V deg) ops = some t) :
    (∃ L, t.chainPairs = some L ∧ L.Perm t.treePairs ∧
      (∀ promoted k v t', t.insert promoted k v = some t' →
        ∃ L', t'.chainPairs = some L' ∧ L'.Perm ((k, v) :: L)) ∧
      ∀ k t', t.remove k = some t' → ∃ L', t'.chainPairs = some L' ∧
        (t.find k = none ∧ L' = L ∨ ∃ v, t.find k = some v ∧ L.Perm ((k, v) :: L'))) ∧
    (∀ l ∈ t.leaves, l.keys.length = l.values.length ∧ l.keys.Pairwise (· ≤ ·)) ∧
    ∃ n, t.size = some n ∧ n + removals ops (fresh K V deg) = inserts ops := by
  obtain ⟨ps, hps, hlen⟩ := (chained_fresh deg).run h
  refine ⟨⟨_, hps.chainPairs, Linked.pairs_perm hps, ?_, ?_⟩, ?_, _, hps.size, ?_⟩
  · intro promoted k v t' hi
    obtain ⟨ps', hps', hperm⟩ := hps.insert hi
    exact ⟨_, hps'.chainPairs, hperm⟩
  · intro k t' hr
    obtain ⟨ps', hps', hnone, hsome⟩ := hps.remove hr
    refine ⟨_, hps'.chainPairs, ?_⟩
    cases hfind : t.find k with
    | none => exact .inl ⟨rfl, hnone hfind⟩
    | some v => exact .inr ⟨v, rfl, hsome v hfind⟩
  · intro l hl
    exact ⟨(Linked.ok hps l hl).length_eq, (Linked.ok hps l hl).sorted⟩
  · simpa [pairsOf] using hlen

/-- A run with splits, an emptied leaf and a removal that misses its key. -/
theorem run_conserves_pairs_of_seven :
    ∃ t, attempt step (fresh ℕ ℕ 2) (([1, 2, 3, 4, 5].map fun k => Op.insert ⟨k, k, fun _ => 0⟩) ++
        [.remove 1, .remove 2]) = some t ∧
      ∃ n, t.size = some n ∧ n + removals (([1, 2, 3, 4, 5].map fun k =>
        Op.insert ⟨k, k, fun _ => 0⟩) ++ [.remove 1, .remove 2]) (fresh ℕ ℕ 2) = 5 := by
  obtain ⟨t, ht⟩ := Option.isSome_iff_exists.1 (by decide +kernel :
    (attempt step (fresh ℕ ℕ 2) (([1, 2, 3, 4, 5].map fun k => Op.insert ⟨k, k, fun _ => 0⟩) ++
      [.remove 1, .remove 2])).isSome = true)
  exact ⟨t, ht, (run_conserves_pairs 2 _ t ht).2.2⟩

end BPlusTree

end LearnSpdk
