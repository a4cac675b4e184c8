import LearnSpdk.Lib.Fences
import LearnSpdk.Proofs.BPlusChain

/-! Trees of at most two levels: the root is a leaf, or it has the leaves as children.
As long as no `insert` meets a full internal root, there are no others. The leaves and
separators of such a tree form a sorted row. -/

namespace LearnSpdk

open Lib BPlus

variable {K V : Type}

namespace BPlus

def keysOf (H : Leaves K V) (p : ℕ) : List K := (leafAt H p).keys

/-- The root above the leaves `ps` with the separators `ks`. -/
def rowRoot : List K → List ℕ → Option (Node K)
  | [], [] => none
  | [], [p] => some (.leaf p)
  | ks, ps => some (.internal ks (ps.map .leaf))

theorem rowRoot_of_ne_nil {ks : List K} (h : ks ≠ []) (ps : List ℕ) :
    rowRoot ks ps = some (.internal ks (ps.map .leaf)) := by
  cases ks with
  | nil => exact absurd rfl h
  | cons s ks => rfl

theorem insertChild_append {ks₁ ks₂ : List K} {cs₁ cs₂ : List (Node K)} (h₁ : ks₁.length = cs₁.length)
    (h₂ : ks₂.length = cs₂.length) (s : K) (c c' : Node K) :
    insertChild ks₁.length s c' (ks₁ ++ ks₂) (cs₁ ++ c :: cs₂) =
      (ks₁ ++ s :: ks₂, cs₁ ++ c :: c' :: cs₂) := by
  unfold insertChild
  split
  · have hcs := insertIdx_length_append (cs₁ ++ [c]) cs₂ c'
    simp only [List.length_append, List.length_singleton, List.append_assoc, List.singleton_append] at hcs
    rw [insertIdx_length_append, h₁, hcs]
  · next hlt =>
    have hks₂ : ks₂ = [] := by
      rw [← List.length_eq_zero_iff]
      simp only [List.length_append] at hlt
      omega
    subst hks₂
    obtain rfl := List.length_eq_zero_iff.1 h₂.symm
    simp

theorem eraseChild_append {ks₁ : List K} {ps₁ : List ℕ} (hlen : ks₁.length = ps₁.length) (s : K) (ks₂ : List K) (q p : ℕ)
    (ps₂ : List ℕ) :
    eraseChild (ps₁ ++ [q]).length (ks₁ ++ s :: ks₂) ((ps₁ ++ q :: p :: ps₂).map .leaf) =
      (ks₁ ++ ks₂, (ps₁ ++ q :: ps₂).map .leaf) := by
  have hkeys : (ks₁ ++ s :: ks₂).eraseIdx ps₁.length = ks₁ ++ ks₂ := by
    rw [← hlen, eraseIdx_length_append]
  have hps : (ps₁ ++ [q] ++ p :: ps₂).eraseIdx (ps₁ ++ [q]).length = ps₁ ++ [q] ++ ps₂ :=
    eraseIdx_length_append _ _ _
  rw [List.append_assoc, List.append_assoc, List.singleton_append, List.singleton_append] at hps
  have hchildren : ((ps₁ ++ q :: p :: ps₂).map (Node.leaf (K := K))).eraseIdx (ps₁ ++ [q]).length =
      (ps₁ ++ q :: ps₂).map .leaf := by
    rw [List.eraseIdx_map, hps]
  rw [eraseChild, hchildren, if_pos (by simp), List.length_append, List.length_singleton,
    Nat.add_sub_cancel, hkeys]

/-- The two halves of a leaf have a key between them. -/
theorem splitLeafNode_eq {H : Leaves K V} {p : ℕ} {s : K}
    (hs : (leafAt H p).keys[(leafAt H p).keys.length / 2]? = some s) :
    splitLeafNode p H = some (.leaf p, s, .leaf H.length, splitLeaf p H) := by
  have hkey : (leafAt (splitLeaf p H) H.length).keys[0]? = some s := by
    rw [leafAt_splitLeaf_new]
    simpa using hs
  simp [splitLeafNode, hkey]

variable [LinearOrder K] {degree : ℕ} {H : Leaves K V} {k s : K} {v : V} {ks ks₁ ks₂ : List K}
  {ps₁ ps₂ : List ℕ} {p : ℕ}

theorem insertNonfull_row (ps₁ ps₂ : List ℕ) (promoted : ℕ → K) (v : V)
    (hk : lowerBound k ks = ps₁.length)
    (hfull : isFull degree (leafAt H p).keys = false) :
    insertNonfull degree promoted k v (.internal ks ((ps₁ ++ p :: ps₂).map .leaf)) H =
      some (.internal ks ((ps₁ ++ p :: ps₂).map .leaf), H.modify p (·.insertKey k v)) := by
  have hroom (u : K) : makeRoom degree u k ks ((ps₁ ++ p :: ps₂).map .leaf) H =
      some (ps₁.length, ks, (ps₁ ++ p :: ps₂).map .leaf, H) := by
    simp [makeRoom, hk, nodeFull, hfull]
  have hchild : ((ps₁ ++ p :: ps₂).map (Node.leaf (K := K)))[ps₁.length]? = some (.leaf p) := by
    simp
  rw [insertNonfull_internal (hroom _) hchild, insertNonfull]
  simp

theorem insertNonfull_row_split (promoted : ℕ → K) (v : V) (hk : lowerBound k (ks₁ ++ ks₂) = ks₁.length)
    (h₁ : ks₁.length = ps₁.length) (h₂ : ks₂.length = ps₂.length)
    (hfull : isFull degree (leafAt H p).keys = true)
    (hs : (leafAt H p).keys[(leafAt H p).keys.length / 2]? = some s) :
    insertNonfull degree promoted k v (.internal (ks₁ ++ ks₂) ((ps₁ ++ p :: ps₂).map .leaf)) H =
      some (.internal (ks₁ ++ s :: ks₂) ((ps₁ ++ p :: H.length :: ps₂).map .leaf),
        (splitLeaf p H).modify (if s < k then H.length else p) (·.insertKey k v)) := by
  have hcs₁ : ks₁.length = (ps₁.map (Node.leaf (K := K))).length := by simpa using h₁
  have hcs₂ : ks₂.length = (ps₂.map (Node.leaf (K := K))).length := by simpa using h₂
  have hroom (u : K) : makeRoom degree u k (ks₁ ++ ks₂) ((ps₁ ++ p :: ps₂).map .leaf) H =
      some (if s < k then ks₁.length + 1 else ks₁.length, ks₁ ++ s :: ks₂,
        (ps₁ ++ p :: H.length :: ps₂).map .leaf, splitLeaf p H) := by
    have hchild : ((ps₁ ++ p :: ps₂).map (Node.leaf (K := K)))[ks₁.length]? = some (.leaf p) := by
      simp [h₁]
    have hset : ((ps₁ ++ p :: ps₂).map (Node.leaf (K := K))).set ks₁.length (.leaf p) =
        ps₁.map .leaf ++ .leaf p :: ps₂.map .leaf := by
      rw [h₁]
      simp
    have hins := insertChild_append hcs₁ hcs₂ s (.leaf p) (.leaf H.length)
    have hkey : (ks₁ ++ s :: ks₂)[ks₁.length]? = some s := by simp
    simp only [makeRoom, hk, Option.bind_eq_bind, hchild, Option.bind_some, nodeFull, hfull, if_true,
      splitChild, splitLeafNode_eq hs, hset, hins, hkey]
    simp
  have hchild : ((ps₁ ++ p :: H.length :: ps₂).map (Node.leaf (K := K)))[
      if s < k then ks₁.length + 1 else ks₁.length]? = some (.leaf (if s < k then H.length else p)) := by
    split <;> simp [h₁]
  rw [insertNonfull_internal (hroom _) hchild, insertNonfull]
  split <;> simp [h₁]

theorem findLeaf_row {ps : List ℕ} (harity : ps = [] ∧ ks = [] ∨ ps.length = ks.length + 1) (x : K) :
    (rowRoot ks ps).bind (findLeaf x) = route x ks ps := by
  rcases harity with ⟨rfl, rfl⟩ | hlen
  · rfl
  cases ks with
  | nil =>
    obtain ⟨p, rfl⟩ := List.length_eq_one_iff.1 hlen
    simp [rowRoot, findLeaf, route]
  | cons s ks =>
    have hlt : ((s :: ks).takeWhile (· < x)).length < ps.length := by
      have := (List.takeWhile_sublist (l := s :: ks) (· < x)).length_le
      omega
    have hget := List.getElem?_eq_getElem hlt
    have hchild : (ps.map (Node.leaf (K := K)))[lowerBound x (s :: ks)]? =
        some (.leaf ps[((s :: ks).takeWhile (· < x)).length]) := by
      rw [List.getElem?_map, lowerBound, hget]
      rfl
    rw [rowRoot_of_ne_nil (by simp), Option.bind_some, findLeaf_internal hchild, findLeaf,
      route_eq_getElem?, hget]

end BPlus

open BPlus

namespace BPlusTree

variable [LinearOrder K] {t : BPlusTree K V} {ks ks₁ ks₂ : List K} {ps ps₁ ps₂ qs : List ℕ} {p : ℕ}
  {k s x : K} {v : V}

/-- A tree of at most two levels, with the leaves `ps`, the separators `ks` and the
chain `qs`. -/
structure Row (t : BPlusTree K V) (ks : List K) (ps qs : List ℕ) : Prop where
  root : t.root = rowRoot ks ps
  arity : ps = [] ∧ ks = [] ∨ ps.length = ks.length + 1
  linked : Linked ps t.leaves t.firstLeaf qs
  sublist : ps.Sublist qs
  sorted : (weave (keysOf t.leaves) ks ps).Pairwise (· ≤ ·)
  nonempty : ∀ p ∈ ps, keysOf t.leaves p ≠ []
  bound : ∀ p ∈ ps, (keysOf t.leaves p).length ≤ 2 * t.degree - 1

theorem row_fresh (deg : ℤ) : Row (fresh K V deg) [] [] [] where
  root := rfl
  arity := .inl ⟨rfl, rfl⟩
  linked := linked_nil (by simp [fresh])
  sublist := List.Sublist.refl _
  sorted := List.Pairwise.nil
  nonempty := by simp
  bound := by simp

theorem Row.exists_cut (h : Row t ks ps qs) (hne : ps ≠ []) (x : K) :
    ∃ ks₁ ks₂ ps₁ p ps₂, Cut (keysOf t.leaves) x ks ps ks₁ ks₂ ps₁ p ps₂ :=
  exists_weave_cut h.sorted (h.arity.resolve_left fun h => hne h.1) x

theorem Row.ok (h : Row t ks ps qs) (hp : p ∈ ps) : (leafAt t.leaves p).Ok :=
  h.linked.leafAt_ok (h.linked.lt p (h.linked.mem p hp))

/-- The leaves that are on the chain only hold no pairs. -/
theorem Row.pairs_eq (h : Row t ks ps qs) : pairsOf t.leaves qs = pairsOf t.leaves ps :=
  h.linked.pairs_eq h.sublist

theorem Row.treeLeaves (h : Row t ks ps qs) : t.treeLeaves = ps := by
  rw [BPlusTree.treeLeaves, h.root]
  rcases h.arity with ⟨rfl, rfl⟩ | hlen
  · rfl
  cases ks with
  | nil =>
    obtain ⟨p, rfl⟩ := List.length_eq_one_iff.1 hlen
    simp [rowRoot]
  | cons s ks =>
    rw [rowRoot_of_ne_nil (by simp), Option.elim_some, Node.leaves_internal, List.flatMap_map]
    simp

theorem Row.chained (h : Row t ks ps qs) : t.Chained qs := by
  rw [Chained, h.treeLeaves]
  exact h.linked

theorem Row.find (h : Row t ks ps qs) (x : K) :
    t.find x = (route x ks ps).bind fun p => (leafAt t.leaves p).pairs.lookup x := by
  have hfind : t.find x = (route x ks ps).bind fun p => (leafAt t.leaves p).find x := by
    rw [← findLeaf_row h.arity, ← h.root, BPlusTree.find]
    cases t.root <;> rfl
  rw [hfind]
  cases hp : route x ks ps with
  | none => rfl
  | some p => exact (h.ok (mem_of_route hp)).find x

theorem Cut.pairs {H : Leaves K V} (c : Cut (keysOf H) x ks ps ks₁ ks₂ ps₁ p ps₂) :
    pairsOf H ps = pairsOf H ps₁ ++ ((leafAt H p).pairs ++ pairsOf H ps₂) := by
  rw [c.blocks, pairsOf_append, pairsOf_cons]

theorem mem_flatMap_keysOf {H : Leaves K V} (hok : ∀ p ∈ ps, (leafAt H p).Ok) {e : K × V}
    (he : e ∈ pairsOf H ps) : e.1 ∈ ps.flatMap (keysOf H) := by
  obtain ⟨p, hp, he⟩ := List.mem_flatMap.1 he
  exact List.mem_flatMap.2 ⟨p, hp, (hok p hp).mem_keys he⟩

theorem Row.cut_pairs (h : Row t ks ps qs) (c : Cut (keysOf t.leaves) x ks ps ks₁ ks₂ ps₁ p ps₂) :
    (∀ e ∈ pairsOf t.leaves ps₁, e.1 < x) ∧ ∀ e ∈ pairsOf t.leaves ps₂, x ≤ e.1 := by
  refine ⟨?_, ?_⟩
  · intro e he
    refine c.lt _ ((mem_before c.length₁).2 (.inr (mem_flatMap_keysOf ?_ he)))
    exact fun q hq => h.ok (by rw [c.blocks]; simp [hq])
  · intro e he
    refine c.le _ ((mem_after c.length₂).2 (.inr (mem_flatMap_keysOf ?_ he)))
    exact fun q hq => h.ok (by rw [c.blocks]; simp [hq])

/-! ### An insertion into a leaf -/

def putAt (p : ℕ) (k : K) (v : V) (t : BPlusTree K V) : BPlusTree K V :=
  { t with leaves := t.leaves.modify p (·.insertKey k v) }

theorem leafAt_putAt_of_ne {q : ℕ} (h : q ≠ p) :
    leafAt (t.putAt p k v).leaves q = leafAt t.leaves q := leafAt_modify_of_ne h

theorem Row.leafAt_putAt (h : Row t ks ps qs) (hp : p ∈ ps) :
    leafAt (t.putAt p k v).leaves p = (leafAt t.leaves p).insertKey k v :=
  leafAt_modify_self (h.linked.lt p (h.linked.mem p hp))

theorem Row.ne_of_cut (h : Row t ks ps qs) (c : Cut (keysOf t.leaves) x ks ps ks₁ ks₂ ps₁ p ps₂) :
    (∀ q ∈ ps₁, q ≠ p) ∧ ∀ q ∈ ps₂, q ≠ p :=
  ne_of_nodup_append (c.blocks ▸ h.linked.tree)

theorem Row.cut_of_route (h : Row t ks ps qs) (hp : route k ks ps = some p) :
    ∃ ks₁ ks₂ ps₁ ps₂, Cut (keysOf t.leaves) k ks ps ks₁ ks₂ ps₁ p ps₂ := by
  obtain ⟨ks₁, ks₂, ps₁, q, ps₂, c⟩ := h.exists_cut (List.ne_nil_of_mem (mem_of_route hp)) k
  obtain rfl : q = p := Option.some_inj.1 (c.route.symm.trans hp)
  exact ⟨ks₁, ks₂, ps₁, ps₂, c⟩

theorem Row.putAt (h : Row t ks ps qs) (hp : route k ks ps = some p)
    (hfull : isFull t.degree (leafAt t.leaves p).keys = false) (v : V) :
    Row (t.putAt p k v) ks ps qs := by
  have hmem := mem_of_route hp
  obtain ⟨ks₁, ks₂, ps₁, ps₂, c⟩ := h.cut_of_route hp
  obtain ⟨hps₁, hps₂⟩ := h.ne_of_cut c
  have hok := h.ok hmem
  obtain ⟨lo, hi, vlo, vhi, hkeys, -, -, -, hlb, hlt, hle⟩ := hok.cut k
  have hself : keysOf (t.putAt p k v).leaves p = lo ++ k :: hi := by
    rw [keysOf, h.leafAt_putAt hmem, LeafNode.insertKey, hlb, hkeys, insertIdx_length_append]
  have hother {r : ℕ} (hr : r ≠ p) : keysOf (t.putAt p k v).leaves r = keysOf t.leaves r := by
    rw [keysOf, leafAt_putAt_of_ne hr, keysOf]
  have hsize : (leafAt t.leaves p).keys.length < 2 * t.degree - 1 := isFull_eq_false.1 hfull
  refine ⟨h.root, h.arity, ?_, h.sublist, ?_, ?_, ?_⟩
  · exact (h.linked.insertKey hmem k v).1
  · have hsorted := h.sorted
    rw [c.weave, show keysOf t.leaves p = lo ++ hi from hkeys] at hsorted
    rw [c.keys, c.blocks, weave_append c.length₁, hself,
      before_congr (fun r hr => hother (hps₁ r hr)), after_congr (fun r hr => hother (hps₂ r hr))]
    have hinsert : (before (keysOf t.leaves) ks₁ ps₁ ++ lo ++
        k :: (hi ++ after (keysOf t.leaves) ks₂ ps₂)).Pairwise (· ≤ ·) := by
      refine pairwise_insert (by simpa using hsorted) ?_ ?_
      · intro y hy
        rcases List.mem_append.1 hy with hy | hy
        · exact le_of_lt (c.lt y hy)
        · exact le_of_lt (hlt y hy)
      · intro y hy
        rcases List.mem_append.1 hy with hy | hy
        · exact hle y hy
        · exact c.le y hy
    simpa using hinsert
  · intro r hr
    by_cases hrp : r = p
    · rw [hrp, hself]
      simp
    · rw [hother hrp]
      exact h.nonempty r hr
  · intro r hr
    by_cases hrp : r = p
    · rw [hrp, hself]
      rw [hkeys] at hsize
      simp only [List.length_append, List.length_cons] at hsize ⊢
      exact hsize
    · rw [hother hrp]
      exact h.bound r hr

/-- The pairs of a row, before and after an insertion: the new one comes before all
those whose key is not smaller. -/
theorem Row.pairs_putAt (h : Row t ks ps qs) (hp : route k ks ps = some p) (v : V) :
    ∃ A B, pairsOf t.leaves ps = A ++ B ∧ pairsOf (t.putAt p k v).leaves ps = A ++ (k, v) :: B ∧
      (∀ e ∈ A, e.1 < k) ∧ ∀ e ∈ B, k ≤ e.1 := by
  have hmem := mem_of_route hp
  obtain ⟨ks₁, ks₂, ps₁, ps₂, c⟩ := h.cut_of_route hp
  obtain ⟨hps₁, hps₂⟩ := h.ne_of_cut c
  obtain ⟨hlt, hle⟩ := h.cut_pairs c
  obtain ⟨-, lo, hi, hpairs, hpairs', hlo, hhi⟩ := (h.ok hmem).insertKey k v
  refine ⟨pairsOf t.leaves ps₁ ++ lo, hi ++ pairsOf t.leaves ps₂, ?_, ?_, ?_, ?_⟩
  · rw [Cut.pairs c, hpairs]
    simp
  · rw [c.blocks, pairsOf_append, pairsOf_cons, h.leafAt_putAt hmem, hpairs',
      pairsOf_congr fun r hr => leafAt_putAt_of_ne (hps₁ r hr),
      pairsOf_congr fun r hr => leafAt_putAt_of_ne (hps₂ r hr)]
    simp
  · intro e he
    rcases List.mem_append.1 he with he | he
    · exact hlt e he
    · exact hlo e he
  · intro e he
    rcases List.mem_append.1 he with he | he
    · exact hhi e he
    · exact hle e he

theorem Row.lookup_putAt (h : Row t ks ps qs) (hp : route k ks ps = some p) (v : V) (x : K) :
    (pairsOf (t.putAt p k v).leaves ps).lookup x =
      if x = k then some v else (pairsOf t.leaves ps).lookup x := by
  obtain ⟨A, B, hbefore, hafter, hlt, -⟩ := h.pairs_putAt hp v
  rw [hbefore, hafter]
  split_ifs with hx
  · rw [hx, lookup_insert_self hlt]
  · rw [lookup_insert_of_ne hx]

theorem Row.find_putAt (h : Row t ks ps qs) (hp : route k ks ps = some p)
    (hfull : isFull t.degree (leafAt t.leaves p).keys = false) (v : V) (x : K) :
    (t.putAt p k v).find x = if x = k then some v else t.find x := by
  have hmem := mem_of_route hp
  obtain ⟨-, lo, hi, hpairs, hpairs', hlo, -⟩ := (h.ok hmem).insertKey k v
  rw [(h.putAt hp hfull v).find, h.find]
  split_ifs with hx
  · rw [hx, hp, Option.bind_some, h.leafAt_putAt hmem, hpairs', lookup_insert_self hlo]
  · refine Option.bind_congr fun q hq => ?_
    by_cases hqp : q = p
    · rw [hqp, h.leafAt_putAt hmem, hpairs', lookup_insert_of_ne hx, hpairs]
    · rw [leafAt_putAt_of_ne hqp]

/-! ### The split of a leaf -/

/-- The tree after a split of the leaf `p`, between the leaves `ps₁` and `ps₂`, with the
new separator `s`. -/
def splitAt (ks₁ ks₂ : List K) (ps₁ : List ℕ) (p : ℕ) (ps₂ : List ℕ) (s : K) (t : BPlusTree K V) :
    BPlusTree K V :=
  { t with
    leaves := splitLeaf p t.leaves
    root := rowRoot (ks₁ ++ s :: ks₂) (ps₁ ++ p :: t.leaves.length :: ps₂) }

/-- The key in the middle of a leaf: the one that a split promotes. -/
def middle (keys : List K) : Option K := keys[keys.length / 2]?

theorem Row.middle (h : Row t ks ps qs) (hp : p ∈ ps)
    (hfull : isFull t.degree (leafAt t.leaves p).keys = true)
    (hs : BPlusTree.middle (leafAt t.leaves p).keys = some s) :
    ∃ lo hi, (leafAt t.leaves p).keys = lo ++ s :: hi ∧
      lo.length = (leafAt t.leaves p).keys.length / 2 ∧ lo ≠ [] ∧
      lo.length < 2 * t.degree - 1 ∧ (s :: hi).length < 2 * t.degree - 1 := by
  obtain ⟨lo, hi, hkeys, hlen, -⟩ := exists_append_of_getElem? hs
  have hle := isFull_eq_true.1 hfull
  have hge : (leafAt t.leaves p).keys.length ≤ 2 * t.degree - 1 := h.bound p hp
  have hdegree := t.two_le_degree
  have hsum := congrArg List.length hkeys
  simp only [List.length_append, List.length_cons] at hsum
  refine ⟨lo, hi, hkeys, hlen, ?_, ?_, ?_⟩
  · rw [← List.length_pos_iff]
    omega
  · omega
  · rw [List.length_cons]
    omega

theorem Row.sorted_cut (h : Row t ks ps qs) (c : Cut (keysOf t.leaves) x ks ps ks₁ ks₂ ps₁ p ps₂)
    {lo hi : List K} (hkeys : (leafAt t.leaves p).keys = lo ++ hi) :
    (before (keysOf t.leaves) ks₁ ps₁ ++ lo ++ (hi ++ after (keysOf t.leaves) ks₂ ps₂)).Pairwise
      (· ≤ ·) := by
  have hsorted := h.sorted
  rw [c.weave, show keysOf t.leaves p = lo ++ hi from hkeys] at hsorted
  simpa using hsorted

/-- The separators behind a leaf are not below its keys. -/
theorem Row.le_of_mem_keys (h : Row t ks ps qs) (c : Cut (keysOf t.leaves) x ks ps ks₁ ks₂ ps₁ p ps₂)
    (hs : s ∈ (leafAt t.leaves p).keys) : ∀ u ∈ ks₂, s ≤ u := by
  have hsorted := h.sorted
  rw [c.weave] at hsorted
  have hupper := (List.pairwise_append.1 (List.pairwise_append.1 hsorted).2.1).2.2
  exact fun u hu => hupper s hs u ((mem_after c.length₂).2 (.inl hu))

theorem Row.keysOf_splitLeaf (h : Row t ks ps qs) (hp : p ∈ ps) {lo hi : List K}
    (hkeys : (leafAt t.leaves p).keys = lo ++ s :: hi)
    (hlen : lo.length = (leafAt t.leaves p).keys.length / 2) :
    keysOf (splitLeaf p t.leaves) p = lo ∧ keysOf (splitLeaf p t.leaves) t.leaves.length = s :: hi ∧
      ∀ r ∈ ps, r ≠ p → keysOf (splitLeaf p t.leaves) r = keysOf t.leaves r := by
  have hlt := h.linked.lt p (h.linked.mem p hp)
  refine ⟨?_, ?_, fun r hr hrp => ?_⟩
  · simp only [keysOf, leafAt_splitLeaf_self hlt, ← hlen]
    rw [hkeys, List.take_left]
  · simp only [keysOf, leafAt_splitLeaf_new, ← hlen]
    rw [hkeys, List.drop_left]
  · rw [keysOf, leafAt_splitLeaf_of_ne (ne_of_lt (h.linked.lt r (h.linked.mem r hr))) hrp, keysOf]

theorem Row.splitAt (h : Row t ks ps qs) (c : Cut (keysOf t.leaves) k ks ps ks₁ ks₂ ps₁ p ps₂)
    (hfull : isFull t.degree (leafAt t.leaves p).keys = true)
    (hs : BPlusTree.middle (leafAt t.leaves p).keys = some s) :
    ∃ qs₁ qs₂, qs = qs₁ ++ p :: qs₂ ∧
      Row (t.splitAt ks₁ ks₂ ps₁ p ps₂ s) (ks₁ ++ s :: ks₂) (ps₁ ++ p :: t.leaves.length :: ps₂)
        (qs₁ ++ p :: t.leaves.length :: qs₂) ∧
      pairsOf (splitLeaf p t.leaves) (ps₁ ++ p :: t.leaves.length :: ps₂) = pairsOf t.leaves ps := by
  have hmem := mem_of_route c.route
  obtain ⟨hps₁, hps₂⟩ := h.ne_of_cut c
  obtain ⟨lo, hi, hkeys, hlen, hlo, hlobound, hhibound⟩ := h.middle hmem hfull hs
  obtain ⟨hleft, hright, hother⟩ := h.keysOf_splitLeaf hmem hkeys hlen
  obtain ⟨qs₁, qs₂, hqs, hlinked, hpairs⟩ := h.linked.splitLeaf hmem
  have hsublist := sublist_of_nodup_append (hqs ▸ h.linked.nodup) (c.blocks ▸ hqs ▸ h.sublist)
  have hother₁ : ∀ r ∈ ps₁, keysOf (splitLeaf p t.leaves) r = keysOf t.leaves r :=
    fun r hr => hother r (by rw [c.blocks]; simp [hr]) (hps₁ r hr)
  have hother₂ : ∀ r ∈ ps₂, keysOf (splitLeaf p t.leaves) r = keysOf t.leaves r :=
    fun r hr => hother r (by rw [c.blocks]; simp [hr]) (hps₂ r hr)
  have hperm : (ps₁ ++ p :: t.leaves.length :: ps₂).Perm (t.leaves.length :: ps) := by
    have hmiddle : (ps₁ ++ [p] ++ t.leaves.length :: ps₂).Perm
        (t.leaves.length :: (ps₁ ++ [p] ++ ps₂)) := List.perm_middle
    rw [c.blocks]
    simpa using hmiddle
  have hrow : Row (t.splitAt ks₁ ks₂ ps₁ p ps₂ s) (ks₁ ++ s :: ks₂)
      (ps₁ ++ p :: t.leaves.length :: ps₂) (qs₁ ++ p :: t.leaves.length :: qs₂) := by
    refine ⟨rfl, .inr ?_, hlinked.perm hperm, ?_, ?_, ?_, ?_⟩
    · simp [c.length₁, c.length₂]
      omega
    · exact hsublist.1.append ((hsublist.2.cons_cons _).cons_cons _)
    · -- `s` is put in between the two halves of the leaf
      have hcut := h.sorted_cut c hkeys
      obtain ⟨-, hupper, hle⟩ := List.pairwise_append.1 hcut
      have hinsert : (before (keysOf t.leaves) ks₁ ps₁ ++ lo ++
          s :: (s :: hi ++ after (keysOf t.leaves) ks₂ ps₂)).Pairwise (· ≤ ·) := by
        refine pairwise_insert hcut (fun y hy => hle y hy s (by simp)) fun y hy => ?_
        rcases List.mem_cons.1 hy with rfl | hy
        · exact le_rfl
        · exact (List.pairwise_cons.1 hupper).1 y hy
      have hweave : weave (keysOf (splitLeaf p t.leaves)) (ks₁ ++ s :: ks₂)
          (ps₁ ++ p :: t.leaves.length :: ps₂) = before (keysOf t.leaves) ks₁ ps₁ ++ lo ++
            s :: (s :: hi ++ after (keysOf t.leaves) ks₂ ps₂) := by
        rw [weave_append c.length₁, after, hleft, hright, before_congr hother₁, after_congr hother₂]
        simp
      exact hweave ▸ hinsert
    · intro r hr
      rcases List.mem_cons.1 (hperm.mem_iff.1 hr) with rfl | hr
      · exact hright ▸ List.cons_ne_nil s hi
      · by_cases hrp : r = p
        · subst hrp
          exact hleft ▸ hlo
        · exact hother r hr hrp ▸ h.nonempty r hr
    · intro r hr
      rcases List.mem_cons.1 (hperm.mem_iff.1 hr) with rfl | hr
      · exact hright ▸ le_of_lt hhibound
      · by_cases hrp : r = p
        · subst hrp
          exact hleft ▸ le_of_lt hlobound
        · exact hother r hr hrp ▸ h.bound r hr
  refine ⟨qs₁, qs₂, hqs, hrow, ?_⟩
  rw [← h.pairs_eq, ← hpairs]
  exact hrow.pairs_eq.symm

/-- After a split, the search for `k` ends in one of the two halves, and this is not full. -/
theorem Row.route_splitAt (h : Row t ks ps qs) (c : Cut (keysOf t.leaves) k ks ps ks₁ ks₂ ps₁ p ps₂)
    (hfull : isFull t.degree (leafAt t.leaves p).keys = true)
    (hs : BPlusTree.middle (leafAt t.leaves p).keys = some s) :
    (∀ x, route x (ks₁ ++ s :: ks₂) (ps₁ ++ p :: t.leaves.length :: ps₂) =
      (route x ks ps).map fun r => if r = p ∧ s < x then t.leaves.length else r) ∧
    isFull t.degree (leafAt (splitLeaf p t.leaves) (if s < k then t.leaves.length else p)).keys = false := by
  have hmem := mem_of_route c.route
  obtain ⟨hps₁, hps₂⟩ := h.ne_of_cut c
  obtain ⟨lo, hi, hkeys, hlen, hlo, hlobound, hhibound⟩ := h.middle hmem hfull hs
  obtain ⟨hleft, hright, -⟩ := h.keysOf_splitLeaf hmem hkeys hlen
  refine ⟨?_, ?_⟩
  · have hle := h.le_of_mem_keys c (s := s) (by simp [hkeys])
    rw [c.keys, c.blocks]
    exact route_split c.length₁ hle (fun hm => hps₁ p hm rfl) fun hm => hps₂ p hm rfl
  · rw [isFull_eq_false]
    change (keysOf (splitLeaf p t.leaves) _).length < _
    split
    · exact hright ▸ hhibound
    · exact hleft ▸ hlobound

/-- `find` after a split, in terms of the leaf that it looked at before. -/
theorem Row.find_splitAt (h : Row t ks ps qs) (c : Cut (keysOf t.leaves) k ks ps ks₁ ks₂ ps₁ p ps₂)
    (hfull : isFull t.degree (leafAt t.leaves p).keys = true)
    (hs : BPlusTree.middle (leafAt t.leaves p).keys = some s) (x : K) :
    (t.splitAt ks₁ ks₂ ps₁ p ps₂ s).find x =
      if route x ks ps = some p then
        if s < x then ((leafAt t.leaves p).pairs.drop ((leafAt t.leaves p).keys.length / 2)).lookup x
        else ((leafAt t.leaves p).pairs.take ((leafAt t.leaves p).keys.length / 2)).lookup x
      else t.find x := by
  have hmem := mem_of_route c.route
  have hlt := h.linked.lt p (h.linked.mem p hmem)
  obtain ⟨qs₁, qs₂, -, hrow, -⟩ := h.splitAt c hfull hs
  rw [hrow.find, h.find, (h.route_splitAt c hfull hs).1 x]
  cases hr : route x ks ps with
  | none => simp
  | some r =>
    simp only [Option.map_some, Option.bind_some, Option.some.injEq]
    change (leafAt (splitLeaf p t.leaves) _).pairs.lookup x = _
    by_cases hrp : r = p
    · subst hrp
      by_cases hsx : s < x
      · simp only [hsx, and_self, if_true, leafAt_splitLeaf_new, LeafNode.pairs_drop]
      · simp only [hsx, and_false, if_false, if_true, leafAt_splitLeaf_self hlt, LeafNode.pairs_take]
    · have hlt' := h.linked.lt r (h.linked.mem r (mem_of_route hr))
      simp only [hrp, false_and, if_false, leafAt_splitLeaf_of_ne (ne_of_lt hlt') hrp]

/-- A split hides at most its separator from `find`. -/
theorem Row.find_splitAt_of_ne (h : Row t ks ps qs)
    (c : Cut (keysOf t.leaves) k ks ps ks₁ ks₂ ps₁ p ps₂)
    (hfull : isFull t.degree (leafAt t.leaves p).keys = true)
    (hs : BPlusTree.middle (leafAt t.leaves p).keys = some s) (hx : x ≠ s) :
    (t.splitAt ks₁ ks₂ ps₁ p ps₂ s).find x = t.find x := by
  have hmem := mem_of_route c.route
  obtain ⟨lo, hi, hkeys, hlen, -⟩ := h.middle hmem hfull hs
  obtain ⟨hlo, hhi, -⟩ := (h.ok hmem).halves hkeys
  rw [h.find_splitAt c hfull hs, ← hlen]
  split_ifs with hroute hsx
  · rw [h.find, hroute, Option.bind_some]
    conv_rhs => rw [← List.take_append_drop lo.length (leafAt t.leaves p).pairs]
    rw [lookup_append_of_ne fun e he => ne_of_lt (lt_of_le_of_lt (hlo e he).2 hsx)]
  · rw [h.find, hroute, Option.bind_some]
    conv_rhs => rw [← List.take_append_drop lo.length (leafAt t.leaves p).pairs]
    have hxs : x < s := lt_of_le_of_ne (not_lt.1 hsx) hx
    rw [lookup_append_of_ne_right fun e he => ne_of_gt (lt_of_lt_of_le hxs (hhi e he))]
  · rfl

/-- A split does not hide its separator if it falls between two equal keys. -/
theorem Row.find_splitAt_of_eq (h : Row t ks ps qs)
    (c : Cut (keysOf t.leaves) k ks ps ks₁ ks₂ ps₁ p ps₂)
    (hfull : isFull t.degree (leafAt t.leaves p).keys = true)
    (hs : BPlusTree.middle (leafAt t.leaves p).keys = some s)
    (heq : (leafAt t.leaves p).keys[(leafAt t.leaves p).keys.length / 2 - 1]? = some s) :
    (t.splitAt ks₁ ks₂ ps₁ p ps₂ s).find s = t.find s := by
  have hmem := mem_of_route c.route
  obtain ⟨lo, hi, hkeys, hlen, hne, -⟩ := h.middle hmem hfull hs
  have hlo : s ∈ lo := by
    have hpos := List.length_pos_iff.2 hne
    rw [← hlen, hkeys, List.getElem?_append_left (by omega)] at heq
    exact List.mem_of_getElem? heq
  have hlookup : ((leafAt t.leaves p).pairs.take lo.length).lookup s ≠ none := by
    rw [lookup_ne_none_iff, List.map_take, (h.ok hmem).map_fst, hkeys, List.take_left]
    exact hlo
  rw [h.find_splitAt c hfull hs, ← hlen]
  split_ifs with hroute hlt
  · exact absurd hlt (lt_irrefl s)
  · rw [h.find, hroute, Option.bind_some]
    conv_rhs => rw [← List.take_append_drop lo.length (leafAt t.leaves p).pairs]
    obtain ⟨v, hv⟩ := Option.ne_none_iff_exists'.1 hlookup
    rw [List.lookup_append, hv, Option.some_or]
  · rfl

/-- Otherwise `find` no longer knows the separator, which is still on the chain. -/
theorem Row.find_splitAt_self (h : Row t ks ps qs)
    (c : Cut (keysOf t.leaves) k ks ps ks₁ ks₂ ps₁ p ps₂)
    (hfull : isFull t.degree (leafAt t.leaves p).keys = true)
    (hs : BPlusTree.middle (leafAt t.leaves p).keys = some s)
    (hne : (leafAt t.leaves p).keys[(leafAt t.leaves p).keys.length / 2 - 1]? ≠ some s) :
    (t.splitAt ks₁ ks₂ ps₁ p ps₂ s).find s = none ∧ (pairsOf t.leaves ps).lookup s ≠ none := by
  have hmem := mem_of_route c.route
  obtain ⟨lo, hi, hkeys, hlen, hlo, -⟩ := h.middle hmem hfull hs
  obtain ⟨hleft, -, hright⟩ := (h.ok hmem).halves hkeys
  have hpairs : s ∈ (leafAt t.leaves p).keys := by
    rw [hkeys]
    simp
  -- the last key of the left half is below `s`, and with it everything before
  have hlt : ∀ y ∈ before (keysOf t.leaves) ks₁ ps₁ ++ lo, y < s := by
    obtain ⟨lo', m, rfl⟩ := (List.eq_nil_or_concat lo).resolve_left hlo
    rw [List.concat_eq_append] at *
    have hcut : (before (keysOf t.leaves) ks₁ ps₁ ++ lo' ++ [m] ++
        (s :: hi ++ after (keysOf t.leaves) ks₂ ps₂)).Pairwise (· ≤ ·) := by
      simpa using h.sorted_cut c hkeys
    rw [← List.append_assoc]
    obtain ⟨hbefore, -, hle⟩ := List.pairwise_append.1 hcut
    have hm : m < s := by
      refine lt_of_le_of_ne (hle m (by simp) s (by simp)) ?_
      rintro rfl
      rw [← hlen, hkeys] at hne
      simp at hne
    intro y hy
    rcases List.mem_append.1 hy with hy | hy
    · exact lt_of_le_of_lt ((List.pairwise_append.1 hbefore).2.2 y hy m (by simp)) hm
    · exact List.mem_singleton.1 hy ▸ hm
  have hroute : route s ks ps = some p := by
    rw [c.keys, c.blocks]
    refine route_append c.length₁ (fun u hu => hlt u ?_) (h.le_of_mem_keys c hpairs)
    exact List.mem_append_left _ ((mem_before c.length₁).2 (.inl hu))
  refine ⟨?_, ?_⟩
  · rw [h.find_splitAt c hfull hs, if_pos hroute, if_neg (lt_irrefl s), ← hlen]
    exact lookup_eq_none_of_ne fun e he => ne_of_lt (hlt _ (List.mem_append_right _ (hleft e he).1))
  · rw [lookup_ne_none_iff, Cut.pairs c]
    simp [(h.ok hmem).map_fst, hpairs]

/-! ### `insert` -/

def fullInternalRoot (t : BPlusTree K V) : Bool :=
  match t.root with
  | some (.internal keys _) => isFull t.degree keys
  | _ => false

theorem Row.fullInternalRoot (h : Row t ks ps qs) (hks : ks ≠ []) :
    t.fullInternalRoot = isFull t.degree ks := by
  rw [BPlusTree.fullInternalRoot, h.root, rowRoot_of_ne_nil hks]

def single (k : K) (v : V) (t : BPlusTree K V) : BPlusTree K V :=
  { t with
    leaves := t.leaves ++ [⟨[k], [v], none⟩]
    root := some (.leaf t.leaves.length)
    firstLeaf := some t.leaves.length }

theorem Row.insert_nil (h : Row t ks [] qs) (promoted : ℕ → K) (k : K) (v : V) :
    t.insert promoted k v = some (t.single k v) ∧
      Row (t.single k v) [] [t.leaves.length] [t.leaves.length] := by
  have hks : ks = [] := by
    rcases h.arity with ⟨-, hks⟩ | hlen
    · exact hks
    · simp at hlen
  have hroot : t.root = none := by rw [h.root, hks, rowRoot]
  have hkeys : keysOf (t.single k v).leaves t.leaves.length = [k] :=
    congrArg LeafNode.keys leafAt_append_length
  have hdegree := t.two_le_degree
  refine ⟨by rw [BPlusTree.insert, hroot]; rfl, rfl, .inr rfl, linked_singleton h.linked.ok k v,
    List.Sublist.refl _, ?_, ?_, ?_⟩
  · simp [weave, after, hkeys]
  · simp [hkeys]
  · intro p hp
    rw [List.mem_singleton.1 hp, hkeys, List.length_singleton]
    change 1 ≤ 2 * t.degree - 1
    omega

theorem Row.insert_of_not_full (h : Row t ks ps qs) (hroot : t.fullInternalRoot = false)
    (hp : route k ks ps = some p) (hfull : isFull t.degree (leafAt t.leaves p).keys = false)
    (promoted : ℕ → K) (v : V) : t.insert promoted k v = some (t.putAt p k v) := by
  obtain ⟨ks₁, ks₂, ps₁, ps₂, c⟩ := h.cut_of_route hp
  by_cases hks : ks = []
  · have hps : ps = [p] := by
      have hlen := h.arity.resolve_left fun h => List.ne_nil_of_mem (mem_of_route hp) h.1
      rw [hks] at hlen
      obtain ⟨r, rfl⟩ := List.length_eq_one_iff.1 hlen
      rw [List.mem_singleton.1 (mem_of_route hp)]
    have hleaf : t.root = some (.leaf p) := by rw [h.root, hks, hps, rowRoot]
    simp [BPlusTree.insert, hleaf, growRoot, nodeFull, hfull, insertNonfull, BPlusTree.putAt]
  · have hinternal := h.root
    rw [rowRoot_of_ne_nil hks] at hinternal
    have hnode : isFull t.degree ks = false := h.fullInternalRoot hks ▸ hroot
    have hk : lowerBound k ks = ps₁.length := by rw [lowerBound, c.takeWhile, c.length₁]
    have hrec := insertNonfull_row ps₁ ps₂ promoted v hk hfull
    rw [← c.blocks] at hrec
    simp [BPlusTree.insert, hinternal, growRoot, nodeFull, hnode, hrec, BPlusTree.putAt]

theorem Row.insert_of_full (h : Row t ks ps qs) (hroot : t.fullInternalRoot = false)
    (c : Cut (keysOf t.leaves) k ks ps ks₁ ks₂ ps₁ p ps₂)
    (hfull : isFull t.degree (leafAt t.leaves p).keys = true)
    (hs : BPlusTree.middle (leafAt t.leaves p).keys = some s) (promoted : ℕ → K) (v : V) :
    t.insert promoted k v = some ((t.splitAt ks₁ ks₂ ps₁ p ps₂ s).putAt
      (if s < k then t.leaves.length else p) k v) := by
  by_cases hks : ks = []
  · obtain ⟨rfl, rfl⟩ := List.append_eq_nil_iff.1 (c.keys ▸ hks)
    obtain rfl := List.length_eq_zero_iff.1 c.length₁.symm
    obtain rfl := List.length_eq_zero_iff.1 c.length₂.symm
    have hleaf : t.root = some (.leaf p) := by rw [h.root, hks, c.blocks]; rfl
    have hhalf := (h.route_splitAt c hfull hs).2
    have hrec : insertNonfull t.degree promoted k v (.internal [s] [.leaf p, .leaf t.leaves.length])
        (splitLeaf p t.leaves) = some (.internal [s] [.leaf p, .leaf t.leaves.length],
          (splitLeaf p t.leaves).modify (if s < k then t.leaves.length else p)
            (·.insertKey k v)) := by
      split_ifs at hhalf ⊢ with hsk
      · exact insertNonfull_row [p] [] promoted v (by simp [lowerBound, hsk]) hhalf
      · exact insertNonfull_row [] [t.leaves.length] promoted v (by simp [lowerBound, hsk]) hhalf
    simp [BPlusTree.insert, hleaf, growRoot, nodeFull, hfull, splitRoot, splitLeafNode_eq hs, hrec,
      BPlusTree.putAt, BPlusTree.splitAt, rowRoot]
  · have hinternal := h.root
    rw [rowRoot_of_ne_nil hks] at hinternal
    have hnode : isFull t.degree ks = false := h.fullInternalRoot hks ▸ hroot
    have hk : lowerBound k (ks₁ ++ ks₂) = ks₁.length := by rw [← c.keys, lowerBound, c.takeWhile]
    have hrec := insertNonfull_row_split promoted v hk c.length₁ c.length₂ hfull hs
    rw [← c.blocks, ← c.keys] at hrec
    simp only [BPlusTree.insert, hinternal, growRoot, nodeFull, hnode, Bool.false_eq_true, if_false,
      Option.pure_def, Option.bind_eq_bind, Option.bind_some, hrec, BPlusTree.putAt,
      BPlusTree.splitAt]
    rw [rowRoot_of_ne_nil (by simp)]

/-- The leaves below a root that is not a leaf have `degree - 1` keys at least. -/
def Filled (t : BPlusTree K V) (ks : List K) (ps : List ℕ) : Prop :=
  ks ≠ [] → ∀ p ∈ ps, t.degree - 1 ≤ (keysOf t.leaves p).length

theorem Filled.putAt (hf : t.Filled ks ps) (h : Row t ks ps qs) (hp : p ∈ ps) (k : K) (v : V) :
    (t.putAt p k v).Filled ks ps := by
  intro hks q hq
  have hle : t.degree - 1 ≤ (keysOf t.leaves q).length := hf hks q hq
  by_cases hqp : q = p
  · subst hqp
    rw [keysOf, h.leafAt_putAt hp]
    exact le_trans hle (List.sublist_insertIdx _ _ _).length_le
  · rw [keysOf, leafAt_putAt_of_ne hqp]
    exact hle

theorem Filled.splitAt (hf : t.Filled ks ps) (h : Row t ks ps qs)
    (c : Cut (keysOf t.leaves) k ks ps ks₁ ks₂ ps₁ p ps₂)
    (hfull : isFull t.degree (leafAt t.leaves p).keys = true)
    (hs : BPlusTree.middle (leafAt t.leaves p).keys = some s) :
    (t.splitAt ks₁ ks₂ ps₁ p ps₂ s).Filled (ks₁ ++ s :: ks₂) (ps₁ ++ p :: t.leaves.length :: ps₂) := by
  have hmem := mem_of_route c.route
  obtain ⟨lo, hi, hkeys, hlen, -⟩ := h.middle hmem hfull hs
  obtain ⟨hleft, hright, hother⟩ := h.keysOf_splitLeaf hmem hkeys hlen
  have hsize := isFull_eq_true.1 hfull
  have hsum := congrArg List.length hkeys
  simp only [List.length_append, List.length_cons] at hsum
  intro _ q hq
  change t.degree - 1 ≤ (keysOf (splitLeaf p t.leaves) q).length
  by_cases hqp : q = p
  · rw [hqp, hleft]
    omega
  by_cases hqn : q = t.leaves.length
  · rw [hqn, hright, List.length_cons]
    omega
  have hps : q ∈ ps₁ ∨ q ∈ ps₂ := by simpa [hqp, hqn] using hq
  have hq' : q ∈ ps := by
    rw [c.blocks, List.mem_append, List.mem_cons]
    tauto
  rw [hother q hq' hqp]
  -- there is another leaf than `p`, so the root was not a leaf
  refine hf ?_ q hq'
  rintro rfl
  obtain ⟨rfl, rfl⟩ := List.append_eq_nil_iff.1 c.keys.symm
  rw [List.length_eq_zero_iff.1 c.length₁.symm, List.length_eq_zero_iff.1 c.length₂.symm] at hps
  simp at hps

/-! ### Runs -/

/-- An `insert` does not meet a full internal root. -/
def NoRootSplit (t : BPlusTree K V) : Op K V → Prop
  | .insert _ => t.fullInternalRoot = false
  | .remove _ => True

instance (t : BPlusTree K V) : ∀ op, Decidable (NoRootSplit t op)
  | .insert _ => inferInstanceAs (Decidable (t.fullInternalRoot = false))
  | .remove _ => isTrue trivial

end BPlusTree

end LearnSpdk
