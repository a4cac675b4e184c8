import LearnSpdk.Proofs.BPlusLookup

/-! `remove` on the rows of `BPlusRow`. It takes out the first pair with its key that is
in the leaf where `find_leaf` ends, and, when the leaf is empty then, the leaf with one
separator. Dropping the first leaf with the separator behind it gives the second leaf
the keys up to the next one, and so can make a key found that was not before. -/

namespace LearnSpdk

open Lib BPlus

variable {K V : Type} [LinearOrder K] {t : BPlusTree K V} {ks ks₁ ks₂ : List K}
  {ps ps₁ ps₂ qs : List ℕ} {p q : ℕ} {k s x : K} {v : V}

namespace BPlusTree

/-- The tree after `remove_key` in the leaf `p`, with a new row of leaves. -/
def dropAt (p : ℕ) (k : K) (ks : List K) (ps : List ℕ) (t : BPlusTree K V) : BPlusTree K V :=
  { t with leaves := t.leaves.modify p (·.removeKey k), root := rowRoot ks ps }

theorem leafAt_dropAt_of_ne {ks' : List K} {ps' : List ℕ} (h : q ≠ p) :
    leafAt (t.dropAt p k ks' ps').leaves q = leafAt t.leaves q := leafAt_modify_of_ne h

theorem Row.leafAt_dropAt (h : Row t ks ps qs) (hp : p ∈ ps) (ks' : List K) (ps' : List ℕ) :
    leafAt (t.dropAt p k ks' ps').leaves p = (leafAt t.leaves p).removeKey k :=
  leafAt_modify_self (h.linked.lt p (h.linked.mem p hp))

theorem Row.dropAt {ks' : List K} {ps' : List ℕ} (h : Row t ks ps qs) (hp : p ∈ ps)
    (harity : ps' = [] ∧ ks' = [] ∨ ps'.length = ks'.length + 1)
    (hps : ps' = ps ∨ ((leafAt t.leaves p).removeKey k).keys = [] ∧ ps.Perm (p :: ps'))
    (hsub : ps'.Sublist ps)
    (hweave : (weave (keysOf (t.leaves.modify p (·.removeKey k))) ks' ps').Sublist
      (weave (keysOf t.leaves) ks ps))
    (hne : p ∈ ps' → ((leafAt t.leaves p).removeKey k).keys ≠ []) :
    Row (t.dropAt p k ks' ps') ks' ps' qs := by
  have hleaf : leafAt (t.leaves.modify p (·.removeKey k)) p = (leafAt t.leaves p).removeKey k :=
    h.leafAt_dropAt hp ks' ps'
  refine ⟨rfl, harity, ?_, hsub.trans h.sublist, h.sorted.sublist hweave, ?_, ?_⟩
  · have hlinked := (h.linked.removeKey hp k).1
    rcases hps with rfl | ⟨hnil, hperm⟩
    · exact hlinked
    · refine hlinked.erase hperm ?_
      rw [hleaf]
      exact hnil
  · intro r hr
    by_cases hrp : r = p
    · subst hrp
      rw [keysOf, h.leafAt_dropAt hp]
      exact hne hr
    · rw [keysOf, leafAt_dropAt_of_ne hrp]
      exact h.nonempty r (hsub.subset hr)
  · intro r hr
    refine le_trans ?_ (h.bound r (hsub.subset hr))
    by_cases hrp : r = p
    · subst hrp
      rw [keysOf, h.leafAt_dropAt hp]
      exact (LeafNode.removeKey_keys_sublist k _).length_le
    · rw [keysOf, leafAt_dropAt_of_ne hrp, keysOf]

/-! ### `remove` -/

theorem remove_of_removeRecursive {ks' : List K} {ps' : List ℕ} {root : Node K} {H' : Leaves K V}
    {under : Bool} (hroot : t.root = some root)
    (hrec : removeRecursive t.degree k root t.leaves = some (.internal ks' (ps'.map .leaf), H', under))
    (hlen : ps'.length = ks'.length + 1) :
    t.remove k = some { t with leaves := H', root := rowRoot ks' ps' } := by
  simp only [BPlusTree.remove, hroot, hrec, Option.bind_eq_bind, Option.bind_some]
  cases ks' with
  | nil =>
    obtain ⟨q, rfl⟩ := List.length_eq_one_iff.1 hlen
    rfl
  | cons s ks' => rfl

theorem Cut.child {H : Leaves K V} (c : Cut (keysOf H) k ks ps ks₁ ks₂ ps₁ p ps₂) :
    (ps.map (Node.leaf (K := K)))[lowerBound k ks]? = some (.leaf p) ∧
      (ps.map (Node.leaf (K := K))).set (lowerBound k ks) (.leaf p) = ps.map .leaf := by
  have hidx : lowerBound k ks = ps₁.length := by rw [lowerBound, c.takeWhile, c.length₁]
  rw [hidx, c.blocks]
  simp

theorem removeRecursive_leaf (degree p : ℕ) (k : K) (H : Leaves K V) :
    removeRecursive degree k (.leaf p) H = some (.leaf p, H.modify p (·.removeKey k),
      (leafAt H p).contains k && isUnderflow degree (leafAt (H.modify p (·.removeKey k)) p).keys) := by
  rw [removeRecursive]

theorem Row.remove_of_ne_nil (h : Row t ks ps qs) (hp : route k ks ps = some p)
    (hne : ((leafAt t.leaves p).removeKey k).keys ≠ []) : t.remove k = some (t.dropAt p k ks ps) := by
  have hmem := mem_of_route hp
  have hlen := h.arity.resolve_left fun h => List.ne_nil_of_mem hmem h.1
  have hleaf : leafAt (t.leaves.modify p (·.removeKey k)) p = (leafAt t.leaves p).removeKey k :=
    h.leafAt_dropAt hmem ks ps
  by_cases hks : ks = []
  · subst hks
    obtain ⟨r, rfl⟩ := List.length_eq_one_iff.1 hlen
    obtain rfl := List.mem_singleton.1 hmem
    have hroot : t.root = some (.leaf p) := h.root
    simp only [BPlusTree.remove, hroot, removeRecursive_leaf, Option.bind_eq_bind, Option.bind_some,
      hleaf, List.isEmpty_iff, hne, if_false]
    rfl
  · have hroot := h.root
    rw [rowRoot_of_ne_nil hks] at hroot
    obtain ⟨ks₁, ks₂, ps₁, ps₂, c⟩ := h.cut_of_route hp
    obtain ⟨hchild, hset⟩ := Cut.child c
    have hrec := removeRecursive_internal hchild (removeRecursive_leaf t.degree p k t.leaves)
    have hempty : (leafAt (t.leaves.modify p (·.removeKey k)) p).keys.isEmpty = false := by
      rw [hleaf]
      simpa using hne
    simp only [emptyLeaf, hempty, Bool.and_false, Bool.false_eq_true, if_false, hset] at hrec
    exact remove_of_removeRecursive hroot hrec hlen

theorem Row.remove_last (h : Row t [] [p] qs) (hnil : ((leafAt t.leaves p).removeKey k).keys = []) :
    t.remove k = some { t with
      leaves := t.leaves.modify p (·.removeKey k), root := none, firstLeaf := none } := by
  have hleaf : leafAt (t.leaves.modify p (·.removeKey k)) p = (leafAt t.leaves p).removeKey k :=
    h.leafAt_dropAt (List.mem_singleton_self p) [] [p]
  have hroot : t.root = some (.leaf p) := h.root
  simp only [BPlusTree.remove, hroot, removeRecursive_leaf, Option.bind_eq_bind, Option.bind_some,
    hleaf, hnil, List.isEmpty_nil, if_true]
  rfl

theorem Row.remove_of_nil {ks' : List K} {ps' : List ℕ} (h : Row t ks ps qs) (hks : ks ≠ [])
    (c : Cut (keysOf t.leaves) k ks ps ks₁ ks₂ ps₁ p ps₂) (hk : k ∈ (leafAt t.leaves p).keys)
    (hnil : ((leafAt t.leaves p).removeKey k).keys = [])
    (herase : eraseChild ps₁.length ks (ps.map .leaf) = (ks', ps'.map .leaf))
    (hlen : ps'.length = ks'.length + 1) : t.remove k = some (t.dropAt p k ks' ps') := by
  have hmem := mem_of_route c.route
  have hdegree := t.two_le_degree
  have hleaf : leafAt (t.leaves.modify p (·.removeKey k)) p = (leafAt t.leaves p).removeKey k :=
    h.leafAt_dropAt hmem ks ps
  have hroot := h.root
  rw [rowRoot_of_ne_nil hks] at hroot
  obtain ⟨hchild, hset⟩ := Cut.child c
  have hidx : lowerBound k ks = ps₁.length := by rw [lowerBound, c.takeWhile, c.length₁]
  rw [← hidx] at herase
  have hunder : isUnderflow t.degree ([] : List K) = true := by
    simp only [isUnderflow, List.length_nil, decide_eq_true_iff]
    omega
  have hrec := removeRecursive_internal hchild (removeRecursive_leaf t.degree p k t.leaves)
  simp only [emptyLeaf, hleaf, hnil, (h.ok hmem).contains.2 hk, hunder, List.isEmpty_nil, Bool.and_self,
    if_true, hset, herase] at hrec
  exact remove_of_removeRecursive hroot hrec hlen

theorem Row.keysOf_modify (h : Row t ks ps qs) (c : Cut (keysOf t.leaves) k ks ps ks₁ ks₂ ps₁ p ps₂) :
    (∀ r ∈ ps₁, keysOf (t.leaves.modify p (·.removeKey k)) r = keysOf t.leaves r) ∧
      (∀ r ∈ ps₂, keysOf (t.leaves.modify p (·.removeKey k)) r = keysOf t.leaves r) ∧
      (keysOf (t.leaves.modify p (·.removeKey k)) p).Sublist (keysOf t.leaves p) := by
  obtain ⟨hps₁, hps₂⟩ := h.ne_of_cut c
  refine ⟨fun r hr => ?_, fun r hr => ?_, ?_⟩
  · rw [keysOf, leafAt_modify_of_ne (hps₁ r hr), keysOf]
  · rw [keysOf, leafAt_modify_of_ne (hps₂ r hr), keysOf]
  · have hmem := mem_of_route c.route
    rw [keysOf, leafAt_modify_self (h.linked.lt p (h.linked.mem p hmem))]
    exact LeafNode.removeKey_keys_sublist k _

theorem Row.row_keep (h : Row t ks ps qs) (c : Cut (keysOf t.leaves) k ks ps ks₁ ks₂ ps₁ p ps₂)
    (hne : ((leafAt t.leaves p).removeKey k).keys ≠ []) : Row (t.dropAt p k ks ps) ks ps qs := by
  obtain ⟨h₁, h₂, hp⟩ := h.keysOf_modify c
  refine h.dropAt (mem_of_route c.route) h.arity (.inl rfl) (List.Sublist.refl _) ?_ fun _ => hne
  rw [c.keys, c.blocks, weave_append c.length₁, weave_append c.length₁, before_congr h₁, after_congr h₂]
  exact (List.Sublist.refl _).append (hp.append (List.Sublist.refl _))

theorem Row.row_first (h : Row t (s :: ks₂) (p :: q :: ps₂) qs)
    (c : Cut (keysOf t.leaves) k (s :: ks₂) (p :: q :: ps₂) [] (s :: ks₂) [] p (q :: ps₂))
    (hnil : ((leafAt t.leaves p).removeKey k).keys = []) :
    Row (t.dropAt p k ks₂ (q :: ps₂)) ks₂ (q :: ps₂) qs := by
  obtain ⟨-, h₂, -⟩ := h.keysOf_modify c
  have hlen : ks₂.length = ps₂.length := Nat.succ_inj.1 c.length₂
  have hsub : (q :: ps₂).Sublist (p :: q :: ps₂) := List.sublist_cons_self _ _
  have hp : p ∉ q :: ps₂ := (List.nodup_cons.1 h.linked.tree).1
  refine h.dropAt (by simp) (.inr (by simp [hlen])) (.inr ⟨hnil, List.Perm.refl _⟩) hsub ?_
    fun hmem => absurd hmem hp
  have hweave : weave (keysOf (t.leaves.modify p (·.removeKey k))) ks₂ (q :: ps₂) =
      weave (keysOf t.leaves) ks₂ (q :: ps₂) := by
    rw [weave, weave, h₂ q (by simp), after_congr fun r hr => h₂ r (by simp [hr])]
  rw [hweave, c.weave]
  exact ((List.sublist_cons_self s _).trans (List.sublist_append_right _ _)).trans
    (List.sublist_append_right _ _)

theorem perm_inner (ps₁ ps₂ : List ℕ) (p q : ℕ) :
    (ps₁ ++ q :: p :: ps₂).Perm (p :: (ps₁ ++ q :: ps₂)) := by
  have hmiddle : (ps₁ ++ [q] ++ p :: ps₂).Perm (p :: (ps₁ ++ [q] ++ ps₂)) := List.perm_middle
  simpa using hmiddle

theorem Row.row_inner (h : Row t (ks₁ ++ s :: ks₂) (ps₁ ++ q :: p :: ps₂) qs)
    (c : Cut (keysOf t.leaves) k (ks₁ ++ s :: ks₂) (ps₁ ++ q :: p :: ps₂) (ks₁ ++ [s]) ks₂
      (ps₁ ++ [q]) p ps₂) (hlen : ks₁.length = ps₁.length)
    (hnil : ((leafAt t.leaves p).removeKey k).keys = []) :
    Row (t.dropAt p k (ks₁ ++ ks₂) (ps₁ ++ q :: ps₂)) (ks₁ ++ ks₂) (ps₁ ++ q :: ps₂) qs := by
  obtain ⟨h₁, h₂, -⟩ := h.keysOf_modify c
  have hsub : (ps₁ ++ q :: ps₂).Sublist (ps₁ ++ q :: p :: ps₂) :=
    (List.Sublist.refl _).append ((List.sublist_cons_self _ _).cons_cons _)
  have hperm := perm_inner ps₁ ps₂ p q
  have hp : p ∉ ps₁ ++ q :: ps₂ := (List.nodup_cons.1 (hperm.nodup_iff.1 h.linked.tree)).1
  refine h.dropAt (by simp) (.inr ?_) (.inr ⟨hnil, hperm⟩) hsub ?_ fun hmem => absurd hmem hp
  · have hlen₂ := c.length₂
    simp only [List.length_append, List.length_cons]
    omega
  · rw [weave_append hlen, weave_append hlen, before_congr fun r hr => h₁ r (by simp [hr]),
      h₁ q (by simp), after_congr h₂, after]
    refine (List.Sublist.refl _).append ((List.Sublist.refl _).append ?_)
    exact (List.sublist_append_right _ _).cons s

/-! ### What is left -/

theorem Row.pairs_dropAt (h : Row t ks ps qs) (c : Cut (keysOf t.leaves) k ks ps ks₁ ks₂ ps₁ p ps₂)
    (hk : k ∈ (leafAt t.leaves p).keys) :
    ∃ A v B, t.find k = some v ∧ pairsOf t.leaves ps = A ++ (k, v) :: B ∧
      pairsOf (t.leaves.modify p (·.removeKey k)) ps = A ++ B := by
  have hmem := mem_of_route c.route
  obtain ⟨hps₁, hps₂⟩ := h.ne_of_cut c
  obtain ⟨-, lo, v, hi, hpairs, hpairs', hlo, -⟩ := (h.ok hmem).removeKey_of_mem hk
  refine ⟨pairsOf t.leaves ps₁ ++ lo, v, hi ++ pairsOf t.leaves ps₂, ?_, ?_, ?_⟩
  · rw [h.find, c.route, Option.bind_some, hpairs, lookup_insert_self hlo]
  · rw [Cut.pairs c, hpairs]
    simp
  · rw [c.blocks, pairsOf_append, pairsOf_cons, leafAt_modify_self (h.linked.lt p (h.linked.mem p hmem)),
      hpairs', pairsOf_congr fun r hr => leafAt_modify_of_ne (hps₁ r hr),
      pairsOf_congr fun r hr => leafAt_modify_of_ne (hps₂ r hr)]
    simp

theorem Row.mem_of_find (h : Row t ks ps qs) (hx : t.find x ≠ none) :
    x ∈ (pairsOf t.leaves ps).map Prod.fst := by
  rw [h.find] at hx
  cases hp : route x ks ps with
  | none => simp [hp] at hx
  | some p =>
    rw [hp, Option.bind_some, lookup_ne_none_iff] at hx
    obtain ⟨e, he, rfl⟩ := List.mem_map.1 hx
    exact List.mem_map_of_mem (List.mem_flatMap.2 ⟨p, mem_of_route hp, he⟩)

theorem Row.find_eq_none (h : Row t ks ps qs) (hp : route x ks ps = some p)
    (hkeys : (leafAt t.leaves p).keys = [k]) (hx : x ≠ k) : t.find x = none := by
  rw [h.find, hp, Option.bind_some]
  refine lookup_eq_none_of_ne fun e he => ?_
  have hmem := (h.ok (mem_of_route hp)).mem_keys he
  rw [hkeys, List.mem_singleton] at hmem
  rw [hmem]
  exact Ne.symm hx

theorem Row.find_keep (h : Row t ks ps qs) (hrow : Row (t.dropAt p k ks ps) ks ps qs) (hp : p ∈ ps)
    (hk : k ∈ (leafAt t.leaves p).keys) (hx : x ≠ k) : (t.dropAt p k ks ps).find x = t.find x := by
  obtain ⟨-, lo, v, hi, hpairs, hpairs', -⟩ := (h.ok hp).removeKey_of_mem hk
  rw [hrow.find, h.find]
  refine Option.bind_congr fun r _ => ?_
  by_cases hrp : r = p
  · rw [hrp, h.leafAt_dropAt hp, hpairs', hpairs, lookup_insert_of_ne hx]
  · rw [leafAt_dropAt_of_ne hrp]

/-- The searches that went to the dropped leaf go to the leaf in front of it, and find
nothing there. -/
theorem Row.find_inner (h : Row t (ks₁ ++ s :: ks₂) (ps₁ ++ q :: p :: ps₂) qs)
    (hlen : ks₁.length = ps₁.length) (hkeys : (leafAt t.leaves p).keys = [k])
    (hrow : Row (t.dropAt p k (ks₁ ++ ks₂) (ps₁ ++ q :: ps₂)) (ks₁ ++ ks₂) (ps₁ ++ q :: ps₂) qs)
    (hx : x ≠ k) : (t.dropAt p k (ks₁ ++ ks₂) (ps₁ ++ q :: ps₂)).find x = t.find x := by
  have hsorted := h.sorted
  rw [weave_append hlen, List.pairwise_append] at hsorted
  obtain ⟨-, hsorted, -⟩ := hsorted
  obtain ⟨-, hafter, hle⟩ := List.pairwise_append.1 hsorted
  have harity : ks₂.length = ps₂.length := by
    have := h.arity.resolve_left (by simp)
    simp only [List.length_append, List.length_cons] at this
    omega
  have hs : ∀ u ∈ ks₂, s ≤ u := by
    intro u hu
    refine (List.pairwise_cons.1 hafter).1 u (List.mem_append_right _ ?_)
    exact (mem_after harity).2 (.inl hu)
  have hnodup := h.linked.tree
  obtain ⟨hq₁, hq₂⟩ := ne_of_nodup_append hnodup
  have hroute := route_split (q := p) hlen hs (fun hm => hq₁ q hm rfl)
    (fun hm => hq₂ q (List.mem_cons_of_mem _ hm) rfl) x
  cases hr : route x (ks₁ ++ ks₂) (ps₁ ++ q :: ps₂) with
  | none =>
    rw [hr] at hroute
    rw [hrow.find, h.find, hr, hroute]
    rfl
  | some r =>
    rw [hr, Option.map_some] at hroute
    split_ifs at hroute with hcase
    · rw [h.find_eq_none hroute hkeys hx, hrow.find, hr, Option.bind_some, hcase.1,
        leafAt_dropAt_of_ne fun he => hq₂ p (by simp) he.symm]
      refine lookup_eq_none_of_ne fun e he => ?_
      have hmem : e.1 ∈ keysOf t.leaves q := (h.ok (by simp)).mem_keys he
      exact ne_of_lt (lt_of_le_of_lt (hle _ hmem s (by simp [after])) hcase.2)
    · have hne : r ≠ p := by
        rintro rfl
        exact (List.nodup_cons.1 ((perm_inner ps₁ ps₂ r q).nodup_iff.1 hnodup)).1 (mem_of_route hr)
      rw [hrow.find, h.find, hr, hroute, Option.bind_some, Option.bind_some, leafAt_dropAt_of_ne hne]

/-- `remove(k)` drops the first leaf and the separator `s` behind it. -/
def Uncovers (t : BPlusTree K V) (k s : K) : Prop :=
  ∃ keys p children, t.root = some (.internal (s :: keys) (.leaf p :: children)) ∧
    (leafAt t.leaves p).keys = [k]

theorem Row.uncovers_iff (h : Row t ks ps qs) :
    t.Uncovers k s ↔ ∃ ks₂ p q ps₂, ks = s :: ks₂ ∧ ps = p :: q :: ps₂ ∧
      (leafAt t.leaves p).keys = [k] := by
  refine ⟨?_, ?_⟩
  · rintro ⟨keys, p, children, hroot, hkeys⟩
    rw [h.root] at hroot
    rcases h.arity with ⟨rfl, rfl⟩ | hlen
    · simp [rowRoot] at hroot
    cases ks with
    | nil =>
      obtain ⟨r, rfl⟩ := List.length_eq_one_iff.1 hlen
      simp [rowRoot] at hroot
    | cons u ks =>
      obtain ⟨r, q, ps₂, rfl⟩ : ∃ r q ps₂, ps = r :: q :: ps₂ := by
        rcases ps with _ | ⟨r, _ | ⟨q, ps₂⟩⟩
        · simp at hlen
        · simp at hlen
        · exact ⟨r, q, ps₂, rfl⟩
      simp only [rowRoot, List.map_cons, Option.some.injEq, Node.internal.injEq, List.cons.injEq,
        Node.leaf.injEq] at hroot
      obtain ⟨⟨rfl, rfl⟩, rfl, -⟩ := hroot
      exact ⟨ks, r, q, ps₂, rfl, rfl, hkeys⟩
  · rintro ⟨ks₂, p, q, ps₂, rfl, rfl, hkeys⟩
    exact ⟨ks₂, p, _, h.root, hkeys⟩

/-- The searches that went to the dropped first leaf go to the second. The separator is
the one key that they may find there. -/
theorem Row.find_first (h : Row t (s :: ks₂) (p :: q :: ps₂) qs)
    (hkeys : (leafAt t.leaves p).keys = [k])
    (hrow : Row (t.dropAt p k ks₂ (q :: ps₂)) ks₂ (q :: ps₂) qs) (hx : x ≠ k) :
    (x ≠ s → (t.dropAt p k ks₂ (q :: ps₂)).find x = t.find x) ∧
      (x = s → t.find x = none ∧
        (x ∈ (pairsOf (t.dropAt p k ks₂ (q :: ps₂)).leaves (q :: ps₂)).map Prod.fst →
          (t.dropAt p k ks₂ (q :: ps₂)).find x ≠ none)) := by
  have hp : p ∉ q :: ps₂ := (List.nodup_cons.1 h.linked.tree).1
  have harity : ks₂.length = ps₂.length := by
    have := h.arity.resolve_left (by simp)
    simp only [List.length_cons] at this
    omega
  have hsorted := h.sorted
  simp only [weave, after, List.pairwise_append, List.pairwise_cons] at hsorted
  obtain ⟨-, ⟨hs, hq, hafter, hle⟩, -⟩ := hsorted
  have hleaves {r : ℕ} (hr : r ∈ q :: ps₂) :
      leafAt (t.dropAt p k ks₂ (q :: ps₂)).leaves r = leafAt t.leaves r :=
    leafAt_dropAt_of_ne fun he => hp (he ▸ hr)
  refine ⟨?_, ?_⟩
  · intro hxs
    by_cases hsx : s < x
    · have hroute : route x (s :: ks₂) (p :: q :: ps₂) = route x ks₂ (q :: ps₂) := by
        rw [route, if_pos hsx]
      rw [hrow.find, h.find, hroute]
      refine Option.bind_congr fun r hr => ?_
      rw [hleaves (mem_of_route hr)]
    · have hroute : route x (s :: ks₂) (p :: q :: ps₂) = some p := by
        rw [route, if_neg hsx]
      rw [h.find_eq_none hroute hkeys hx]
      by_contra hfind
      obtain ⟨e, he, rfl⟩ := List.mem_map.1 (hrow.mem_of_find hfind)
      obtain ⟨r, hr, hmem⟩ := List.mem_flatMap.1 (mem_flatMap_keysOf (fun r hr => hrow.ok hr) he)
      rw [keysOf, hleaves hr] at hmem
      refine hsx (lt_of_le_of_ne (hs e.1 ?_) (Ne.symm hxs))
      rcases List.mem_cons.1 hr with rfl | hr
      · exact List.mem_append_left _ hmem
      · exact List.mem_append_right _ ((mem_after harity).2 (.inr (List.mem_flatMap.2 ⟨r, hr, hmem⟩)))
  · rintro rfl
    have hroute : route x (x :: ks₂) (p :: q :: ps₂) = some p := by
      rw [route, if_neg (lt_irrefl x)]
    refine ⟨h.find_eq_none hroute hkeys hx, fun hmem => ?_⟩
    have hroute' : route x ([] ++ ks₂) ([] ++ q :: ps₂) = some q :=
      route_append rfl (by simp) fun u hu =>
        hs u (List.mem_append_right _ ((mem_after harity).2 (.inl hu)))
    rw [List.nil_append, List.nil_append] at hroute'
    rw [hrow.find, hroute', Option.bind_some, lookup_ne_none_iff, hleaves (by simp),
      (h.ok (by simp)).map_fst]
    obtain ⟨e, he, rfl⟩ := List.mem_map.1 hmem
    rw [pairsOf_congr fun r hr => hleaves hr, pairsOf_cons, List.mem_append] at he
    rcases he with he | he
    · exact (h.ok (by simp)).mem_keys he
    · -- the second leaf is not empty, and its keys are between the separator and the equal key
      have hmem := mem_flatMap_keysOf (fun r hr => h.ok (by simp [hr])) he
      obtain ⟨y, hy⟩ := List.exists_mem_of_ne_nil _ (h.nonempty q (by simp))
      have hye : y = e.1 := by
        refine le_antisymm (hle y hy e.1 ((mem_after harity).2 (.inr hmem))) ?_
        exact hs y (List.mem_append_left _ hy)
      exact hye ▸ hy

theorem Row.cut_of_uncovers (h : Row t ks ps qs) (c : Cut (keysOf t.leaves) k ks ps ks₁ ks₂ ps₁ p ps₂)
    (hu : t.Uncovers k s) : ks ≠ [] ∧ ps₁ = [] ∧ (leafAt t.leaves p).keys = [k] := by
  obtain ⟨ks', r, q, ps', rfl, rfl, hkeys⟩ := h.uncovers_iff.1 hu
  have hle : k ≤ s := by
    have hsorted := h.sorted
    rw [weave, show keysOf t.leaves r = [k] from hkeys, List.singleton_append] at hsorted
    exact (List.pairwise_cons.1 hsorted).1 s (by simp [after])
  obtain rfl : [] = ks₁ := by
    rw [← c.takeWhile]
    simp [not_lt.2 hle]
  obtain rfl := List.length_eq_zero_iff.1 c.length₁.symm
  obtain ⟨rfl, -⟩ := List.cons.inj c.blocks
  exact ⟨by simp, rfl, hkeys⟩

theorem removeKey_of_singleton {l : LeafNode K V} (h : l.keys = [k]) : (l.removeKey k).keys = [] := by
  simp [LeafNode.removeKey, lowerBound, h]

/-- What `remove(k)` leaves of a row: it takes out the pair that `find(k)` answers with, and
the searches for other keys are as before but for that of a separator behind a dropped
first leaf. -/
structure Takes (t : BPlusTree K V) (ps : List ℕ) (k : K) (t' : BPlusTree K V) (ps' : List ℕ) : Prop where
  pairs : t.find k = none ∧ t' = t ∨ ∃ A v B, t.find k = some v ∧
    pairsOf t.leaves ps = A ++ (k, v) :: B ∧ pairsOf t'.leaves ps' = A ++ B
  other : ∀ x, x ≠ k → ¬t.Uncovers k x → t'.find x = t.find x
  uncovered : ∀ s, s ≠ k → t.Uncovers k s → t.find s = none ∧
    (s ∈ (pairsOf t'.leaves ps').map Prod.fst → t'.find s ≠ none)

theorem Row.remove_notMem (h : Row t ks ps qs) (c : Cut (keysOf t.leaves) k ks ps ks₁ ks₂ ps₁ p ps₂)
    (hk : k ∉ (leafAt t.leaves p).keys) : t.remove k = some t ∧ t.Takes ps k t ps := by
  have hmem := mem_of_route c.route
  have hself := (h.ok hmem).removeKey_of_notMem hk
  have hremove := h.remove_of_ne_nil c.route (by rw [hself]; exact h.nonempty p hmem)
  have hdrop : t.dropAt p k ks ps = t := by
    rw [BPlusTree.dropAt, modify_eq_self hself, ← h.root]
  have hfind : t.find k = none := by
    rw [h.find, c.route, Option.bind_some]
    refine lookup_eq_none_of_ne fun e he => ?_
    rintro rfl
    exact hk ((h.ok hmem).mem_keys he)
  rw [hdrop] at hremove
  refine ⟨hremove, .inl ⟨hfind, rfl⟩, fun _ _ _ => rfl, fun s _ hu => ?_⟩
  exact absurd ((h.cut_of_uncovers c hu).2.2 ▸ List.mem_singleton_self k) hk

theorem Row.remove_keep (h : Row t ks ps qs) (c : Cut (keysOf t.leaves) k ks ps ks₁ ks₂ ps₁ p ps₂)
    (hk : k ∈ (leafAt t.leaves p).keys) (hne : ((leafAt t.leaves p).removeKey k).keys ≠ []) :
    t.Takes ps k (t.dropAt p k ks ps) ps where
  pairs := .inr (h.pairs_dropAt c hk)
  other _ hx _ := h.find_keep (h.row_keep c hne) (mem_of_route c.route) hk hx
  uncovered _ _ hu := absurd (removeKey_of_singleton (h.cut_of_uncovers c hu).2.2) hne

theorem Row.remove_empty (h : Row t ks [] qs) (k : K) : t.remove k = some t ∧ t.Takes [] k t [] := by
  have hroot : t.root = none := by
    rcases h.arity with ⟨-, rfl⟩ | hlen
    · exact h.root
    · simp at hlen
  have hu (s : K) : ¬t.Uncovers k s := by
    rintro ⟨_, _, _, hu, -⟩
    simp [hroot] at hu
  refine ⟨by rw [BPlusTree.remove, hroot], .inl ⟨?_, rfl⟩, fun _ _ _ => rfl, fun s _ hs => absurd hs (hu s)⟩
  rw [BPlusTree.find, hroot]
  rfl

theorem Row.pairs_emptied (h : Row t ks ps qs) (c : Cut (keysOf t.leaves) k ks ps ks₁ ks₂ ps₁ p ps₂)
    (hk : k ∈ (leafAt t.leaves p).keys) (hnil : ((leafAt t.leaves p).removeKey k).keys = []) :
    ∃ A v B, t.find k = some v ∧ pairsOf t.leaves ps = A ++ (k, v) :: B ∧
      pairsOf (t.leaves.modify p (·.removeKey k)) (ps₁ ++ ps₂) = A ++ B := by
  have hmem := mem_of_route c.route
  obtain ⟨A, v, B, hfind, hpairs, hpairs'⟩ := h.pairs_dropAt c hk
  refine ⟨A, v, B, hfind, hpairs, ?_⟩
  rw [← hpairs', c.blocks, pairsOf_of_nil]
  rw [leafAt_modify_self (h.linked.lt p (h.linked.mem p hmem))]
  exact ((h.ok hmem).removeKey k).pairs_eq_nil.2 hnil

theorem Row.remove_sole (h : Row t [] [p] qs) (c : Cut (keysOf t.leaves) k [] [p] [] [] [] p [])
    (hk : k ∈ (leafAt t.leaves p).keys) (hnil : ((leafAt t.leaves p).removeKey k).keys = []) :
    ∃ t', t.remove k = some t' ∧ Row t' [] [] [] ∧ t.Takes [p] k t' [] := by
  have hmem := mem_of_route c.route
  have hrow : Row { t with
      leaves := t.leaves.modify p (·.removeKey k), root := none, firstLeaf := none } [] [] [] :=
    ⟨rfl, .inl ⟨rfl, rfl⟩, linked_nil (h.linked.removeKey hmem k).1.ok, List.Sublist.refl _,
      List.Pairwise.nil, by simp, by simp⟩
  refine ⟨_, h.remove_last hnil, hrow, .inr (h.pairs_emptied c hk hnil), ?_, ?_⟩
  · intro x hx _
    rw [h.find_eq_none rfl ((h.ok hmem).keys_eq_singleton hk hnil) hx, hrow.find]
    rfl
  · intro s _ hu
    exact absurd rfl (h.cut_of_uncovers c hu).1

theorem Row.remove_first (h : Row t (s :: ks₂) (p :: q :: ps₂) qs)
    (c : Cut (keysOf t.leaves) k (s :: ks₂) (p :: q :: ps₂) [] (s :: ks₂) [] p (q :: ps₂))
    (hk : k ∈ (leafAt t.leaves p).keys) (hnil : ((leafAt t.leaves p).removeKey k).keys = []) :
    ∃ t', t.remove k = some t' ∧ Row t' ks₂ (q :: ps₂) qs ∧ t.Takes (p :: q :: ps₂) k t' (q :: ps₂) := by
  have hkeys := (h.ok (mem_of_route c.route)).keys_eq_singleton hk hnil
  have hrow := h.row_first c hnil
  have herase : eraseChild 0 (s :: ks₂) ((p :: q :: ps₂).map .leaf) = (ks₂, (q :: ps₂).map .leaf) := by
    simp [eraseChild]
  have hremove := h.remove_of_nil (by simp) c hk hnil herase (by simpa using c.length₂.symm)
  refine ⟨_, hremove, hrow, .inr (h.pairs_emptied c hk hnil), ?_, ?_⟩
  · intro x hx hu
    refine (h.find_first hkeys hrow hx).1 ?_
    rintro rfl
    exact hu (h.uncovers_iff.2 ⟨ks₂, p, q, ps₂, rfl, rfl, hkeys⟩)
  · intro x hx hu
    refine (h.find_first hkeys hrow hx).2 ?_
    obtain ⟨_, _, _, _, heq, -⟩ := h.uncovers_iff.1 hu
    exact (List.cons.inj heq).1.symm

theorem Row.remove_inner (h : Row t (ks₁ ++ s :: ks₂) (ps₁ ++ q :: p :: ps₂) qs)
    (c : Cut (keysOf t.leaves) k (ks₁ ++ s :: ks₂) (ps₁ ++ q :: p :: ps₂) (ks₁ ++ [s]) ks₂
      (ps₁ ++ [q]) p ps₂) (hlen : ks₁.length = ps₁.length)
    (hk : k ∈ (leafAt t.leaves p).keys) (hnil : ((leafAt t.leaves p).removeKey k).keys = []) :
    ∃ t', t.remove k = some t' ∧ Row t' (ks₁ ++ ks₂) (ps₁ ++ q :: ps₂) qs ∧
      t.Takes (ps₁ ++ q :: p :: ps₂) k t' (ps₁ ++ q :: ps₂) := by
  have hkeys := (h.ok (mem_of_route c.route)).keys_eq_singleton hk hnil
  have hrow := h.row_inner c hlen hnil
  have hlen' : (ps₁ ++ q :: ps₂).length = (ks₁ ++ ks₂).length + 1 := by
    have hlen₂ := c.length₂
    simp only [List.length_append, List.length_cons]
    omega
  have hremove := h.remove_of_nil (by simp) c hk hnil
    (by simpa using eraseChild_append hlen s ks₂ q p ps₂) hlen'
  have hpairs := h.pairs_emptied c hk hnil
  rw [List.append_assoc, List.singleton_append] at hpairs
  refine ⟨_, hremove, hrow, .inr hpairs, ?_, ?_⟩
  · intro x hx _
    exact h.find_inner hlen hkeys hrow hx
  · intro x _ hu
    exact absurd (h.cut_of_uncovers c hu).2.1 (by simp)

theorem Row.remove (h : Row t ks ps qs) (k : K) :
    ∃ t' ks' ps' qs', t.remove k = some t' ∧ Row t' ks' ps' qs' ∧ t.Takes ps k t' ps' := by
  by_cases hps : ps = []
  · subst hps
    obtain ⟨hremove, htakes⟩ := h.remove_empty k
    exact ⟨t, ks, [], qs, hremove, h, htakes⟩
  obtain ⟨ks₁, ks₂, ps₁, p, ps₂, c⟩ := h.exists_cut hps k
  by_cases hk : k ∈ (leafAt t.leaves p).keys
  swap
  · obtain ⟨hremove, htakes⟩ := h.remove_notMem c hk
    exact ⟨t, ks, ps, qs, hremove, h, htakes⟩
  by_cases hnil : ((leafAt t.leaves p).removeKey k).keys = []
  swap
  · exact ⟨_, ks, ps, qs, h.remove_of_ne_nil c.route hnil, h.row_keep c hnil, h.remove_keep c hk hnil⟩
  rcases List.eq_nil_or_concat ps₁ with rfl | ⟨ps₁, q, rfl⟩
  · obtain rfl := List.length_eq_zero_iff.1 c.length₁
    obtain rfl : ks = ks₂ := c.keys
    obtain rfl : ps = p :: ps₂ := c.blocks
    have hlen := c.length₂
    rcases ks with _ | ⟨s, ks₂⟩
    · obtain rfl := List.length_eq_zero_iff.1 hlen.symm
      obtain ⟨t', ht'⟩ := h.remove_sole c hk hnil
      exact ⟨t', [], [], [], ht'⟩
    · obtain ⟨q, ps₂, rfl⟩ := List.exists_cons_of_length_eq_add_one hlen.symm
      obtain ⟨t', ht'⟩ := h.remove_first c hk hnil
      exact ⟨t', _, _, qs, ht'⟩
  · rw [List.concat_eq_append] at c
    obtain ⟨ks₁, s, rfl⟩ : ∃ ks₁' s, ks₁ = ks₁' ++ [s] := by
      rcases List.eq_nil_or_concat ks₁ with rfl | ⟨ks₁, s, rfl⟩
      · simpa using c.length₁
      · exact ⟨ks₁, s, List.concat_eq_append⟩
    have hlen : ks₁.length = ps₁.length := by simpa using c.length₁
    obtain rfl : ks = ks₁ ++ s :: ks₂ := by rw [c.keys]; simp
    obtain rfl : ps = ps₁ ++ q :: p :: ps₂ := by rw [c.blocks]; simp
    obtain ⟨t', ht'⟩ := h.remove_inner c hlen hk hnil
    exact ⟨t', _, _, qs, ht'⟩

/-! ### Runs -/

/-- A run in which no call meets a full internal root builds a row. -/
theorem run_row {deg : ℤ} {ops : List (Op K V)} (h : Meets step (fresh K V deg) NoRootSplit ops) :
    ∃ t ks ps qs, attempt step (fresh K V deg) ops = some t ∧ Row t ks ps qs := by
  induction ops using List.reverseRecOn with
  | nil => exact ⟨fresh K V deg, [], [], [], rfl, row_fresh deg⟩
  | append_singleton ops op ih =>
    rw [meets_snoc] at h
    obtain ⟨t, ks, ps, qs, hrun, hrow⟩ := ih h.1
    rw [attempt_snoc, hrun, Option.bind_some]
    cases op with
    | insert i =>
      obtain ⟨t', ks', ps', qs', hinsert, hrow', -⟩ := hrow.insert i (h.2 t hrun)
      exact ⟨t', ks', ps', qs', hinsert, hrow'⟩
    | remove k =>
      obtain ⟨t', ks', ps', qs', hremove, hrow', -⟩ := hrow.remove k
      exact ⟨t', ks', ps', qs', hremove, hrow'⟩

/-- `remove(k)` takes out the pairs with the key `k` and nothing else. -/
def RemovesOnly (t : BPlusTree K V) (k : K) : Prop :=
  ∃ t' L L', t.remove k = some t' ∧ t.chainPairs = some L ∧ t'.chainPairs = some L' ∧
    (∀ e ∈ L', e.1 ≠ k) ∧ t'.find k = none ∧
    ∀ x, x ≠ k → L'.filter (·.1 = x) = L.filter (·.1 = x) ∧ t'.find x = t.find x

/-- The key is on the chain once at most and `find` knows it then, and the separator
behind a first leaf that goes is no other key on the chain. -/
def RemovesCleanly (t : BPlusTree K V) (k : K) : Prop :=
  ∀ L, t.chainPairs = some L → (L.map Prod.fst).count k ≤ 1 ∧
    (k ∈ L.map Prod.fst → t.find k ≠ none) ∧
    ∀ s, s ≠ k → t.Uncovers k s → s ∉ L.map Prod.fst

theorem Row.chainPairs (h : Row t ks ps qs) : t.chainPairs = some (pairsOf t.leaves ps) := by
  rw [h.chained.chainPairs, h.pairs_eq]

theorem Takes.filter_eq {t' : BPlusTree K V} {ps' : List ℕ} (h : t.Takes ps k t' ps')
    (hself : t' = t → ps' = ps) (hx : x ≠ k) :
    (pairsOf t'.leaves ps').filter (·.1 = x) = (pairsOf t.leaves ps).filter (·.1 = x) := by
  rcases h.pairs with ⟨-, heq⟩ | ⟨A, v, B, -, hpairs, hpairs'⟩
  · rw [hself heq, heq]
  · simp [hpairs, hpairs', Ne.symm hx]

theorem Takes.mem_iff {t' : BPlusTree K V} {ps' : List ℕ} (h : t.Takes ps k t' ps')
    (hself : t' = t → ps' = ps) (hx : x ≠ k) :
    x ∈ (pairsOf t'.leaves ps').map Prod.fst ↔ x ∈ (pairsOf t.leaves ps).map Prod.fst := by
  rcases h.pairs with ⟨-, heq⟩ | ⟨A, v, B, -, hpairs, hpairs'⟩
  · rw [hself heq, heq]
  · simp [hpairs, hpairs', hx]

theorem Row.removesOnly_iff (h : Row t ks ps qs) (k : K) : t.RemovesOnly k ↔ t.RemovesCleanly k := by
  obtain ⟨t', ks', ps', qs', hremove, hrow, htakes⟩ := h.remove k
  have hself : t' = t → ps' = ps := by
    rintro rfl
    rw [← h.treeLeaves, hrow.treeLeaves]
  refine ⟨?_, ?_⟩
  · rintro ⟨t₁, L, L', hremove₁, hL, hL', hnone, -, hother⟩ L₁ hL₁
    obtain rfl : t' = t₁ := Option.some_inj.1 (hremove.symm.trans hremove₁)
    obtain rfl : pairsOf t.leaves ps = L := Option.some_inj.1 (h.chainPairs.symm.trans hL)
    obtain rfl : pairsOf t.leaves ps = L₁ := Option.some_inj.1 (h.chainPairs.symm.trans hL₁)
    obtain rfl : pairsOf t'.leaves ps' = L' := Option.some_inj.1 (hrow.chainPairs.symm.trans hL')
    have hnotMem : k ∉ (pairsOf t'.leaves ps').map Prod.fst := by
      intro hmem
      obtain ⟨e, he, hek⟩ := List.mem_map.1 hmem
      exact hnone e he hek
    refine ⟨?_, ?_, fun s hs hu hmem => ?_⟩
    · rcases htakes.pairs with ⟨-, rfl⟩ | ⟨A, v, B, -, hpairs, hpairs'⟩
      · rw [← hself rfl, List.count_eq_zero_of_not_mem hnotMem]
        exact Nat.zero_le 1
      · rw [hpairs', List.map_append, List.mem_append, not_or] at hnotMem
        rw [hpairs]
        simp [List.count_append, List.count_eq_zero_of_not_mem hnotMem.1,
          List.count_eq_zero_of_not_mem hnotMem.2]
    · intro hmem
      rcases htakes.pairs with ⟨-, rfl⟩ | ⟨A, v, B, hfind, -⟩
      · exact absurd (hself rfl ▸ hmem) hnotMem
      · simp [hfind]
    · obtain ⟨hnil, hfind⟩ := htakes.uncovered s hs hu
      exact hfind ((htakes.mem_iff hself hs).2 hmem) ((hother s hs).2.trans hnil)
  · intro hclean
    obtain ⟨hcount, hmem, hs⟩ := hclean _ h.chainPairs
    have hnone : ∀ e ∈ pairsOf t'.leaves ps', e.1 ≠ k := by
      rintro e he rfl
      have hek := List.mem_map_of_mem (f := Prod.fst) he
      rcases htakes.pairs with ⟨hfind, rfl⟩ | ⟨A, v, B, -, hpairs, hpairs'⟩
      · exact hmem (hself rfl ▸ hek) hfind
      · rw [hpairs] at hcount
        rw [hpairs', ← List.count_pos_iff] at hek
        simp only [List.map_append, List.map_cons, List.count_append, List.count_cons_self] at hcount hek
        omega
    refine ⟨t', _, _, hremove, h.chainPairs, hrow.chainPairs, hnone, ?_, fun x hx => ⟨?_, ?_⟩⟩
    · by_contra hfind
      obtain ⟨e, he, hek⟩ := List.mem_map.1 (hrow.mem_of_find hfind)
      exact hnone e he hek
    · exact htakes.filter_eq hself hx
    · by_cases hu : t.Uncovers k x
      · -- the separator is not on the chain, so it is not found now either
        rw [(htakes.uncovered x hx hu).1]
        by_contra hfind
        exact hs x hx hu ((htakes.mem_iff hself hx).1 (hrow.mem_of_find hfind))
      · exact htakes.other x hx hu

/-- After a run without a split of an internal root, `remove` is right exactly for the
keys that it removes cleanly. -/
theorem remove_only_iff (deg : ℤ) (ops : List (Op K V)) (h : Meets step (fresh K V deg) NoRootSplit ops) :
    ∃ t, attempt step (fresh K V deg) ops = some t ∧ ∀ k, t.RemovesOnly k ↔ t.RemovesCleanly k := by
  obtain ⟨t, ks, ps, qs, hrun, hrow⟩ := run_row h
  exact ⟨t, hrun, hrow.removesOnly_iff⟩

theorem remove_only_iff_of_five :
    ∃ t, attempt step (fresh ℕ ℕ 2) ((insertions [1, 2, 3, 4]).map .insert ++ [.remove 1]) = some t ∧
      ∀ k, t.RemovesOnly k ↔ t.RemovesCleanly k :=
  remove_only_iff 2 _ (by decide +kernel)

/-- The split made 2 a separator, and `remove(2)` looks for it on the left of it. -/
theorem remove_misses_separator :
    ∃ t, attempt step (fresh ℕ ℕ 2) ((insertions [1, 2, 3, 4]).map .insert) = some t ∧ ¬t.RemovesOnly 2 := by
  have h : ∃ t ∈ attempt step (fresh ℕ ℕ 2) ((insertions [1, 2, 3, 4]).map .insert), ∃ t' ∈ t.remove 2,
      t'.chainPairs = some [(1, 1), (2, 2), (3, 3), (4, 4)] := by
    decide +kernel
  obtain ⟨t, hrun, t', hremove, hL⟩ := h
  refine ⟨t, hrun, ?_⟩
  rintro ⟨t₁, L, L', hremove₁, -, hL', hnone, -⟩
  obtain rfl : t' = t₁ := Option.some_inj.1 (hremove.symm.trans hremove₁)
  obtain rfl := Option.some_inj.1 (hL.symm.trans hL')
  exact hnone (2, 2) (by simp) rfl

end BPlusTree

end LearnSpdk
