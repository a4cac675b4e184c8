import LearnSpdk.Proofs.BPlusAccess
import LearnSpdk.Proofs.BPlusRange

/-! What the lookups of the B+ tree can be trusted with in every run, also when separators have gone
wrong: they may miss pairs, but yield only pairs that were inserted and not removed since. -/

namespace LearnSpdk

open Lib BPlus

variable {K V : Type} [LinearOrder K] {H : Leaves K V} {start stop : K}

/-- The walk of `range_query` along any chain: all that is in the range of its first leaf, and of
the others some pairs in the range. -/
theorem BPlus.rangeWalk_cons (start stop : K) {p : ℕ} {ps : List ℕ} {n : ℕ}
    (hv : Visits (nextOf H) (some p) (p :: ps)) (hn : ps.length < n) (hok : ∀ q ∈ p :: ps, (leafAt H q).Ok) :
    ∃ rest : List (K × V), rest.Sublist ((pairsOf H ps).filter (within start stop)) ∧
      rangeWalk start stop H n (some p) =
        some (((leafAt H p).pairs.filter (within start stop) ++ rest).map Prod.snd) := by
  induction ps generalizing p n with
  | nil =>
    obtain ⟨n, rfl⟩ : ∃ m, n = m + 1 := ⟨n - 1, by omega⟩
    have hnext : (leafAt H p).next = none := hv.2
    have hleaf := hok p List.mem_cons_self
    refine ⟨[], List.nil_sublist _, ?_⟩
    have hend : rangeWalk start stop H n none = some [] := by cases n <;> rfl
    simp only [rangeWalk, LeafNode.scan_eq start stop hleaf.length_eq hleaf.sorted, hnext, hend]
    split <;> simp [LeafNode.pairs]
  | cons q ps ih =>
    obtain ⟨n, rfl⟩ : ∃ m, n = m + 1 := ⟨n - 1, by omega⟩
    have hnext : (leafAt H p).next = some q := hv.2.1
    have hleaf := hok p List.mem_cons_self
    obtain ⟨rest, hrest, hwalk⟩ := ih (p := q) (n := n) ⟨rfl, hv.2.2⟩ (by simpa using hn)
      fun r hr => hok r (List.mem_cons_of_mem _ hr)
    simp only [rangeWalk, LeafNode.scan_eq start stop hleaf.length_eq hleaf.sorted, hnext, hwalk]
    split
    · -- a key behind the range ends the walk
      exact ⟨[], List.nil_sublist _, by simp [LeafNode.pairs]⟩
    · refine ⟨(leafAt H q).pairs.filter (within start stop) ++ rest, ?_, by simp [LeafNode.pairs]⟩
      rw [pairsOf_cons, List.filter_append]
      exact hrest.append_left _

theorem BPlus.findLeaf_mem {k : K} {node : Node K} {p : ℕ} (h : findLeaf k node = some p) : p ∈ node.leaves := by
  induction node using Node.induct with
  | leaf q =>
    rw [findLeaf] at h
    simp [Option.some_inj.1 h]
  | internal keys children ih =>
    cases hchild : children[lowerBound k keys]? with
    | none => simp [findLeaf_of_none hchild] at h
    | some child =>
      rw [findLeaf_internal hchild] at h
      have hmem := List.mem_of_getElem? hchild
      rw [Node.leaves_internal]
      exact List.mem_flatMap.2 ⟨child, hmem, ih child hmem h⟩

namespace BPlusTree

variable {t t' : BPlusTree K V} {ps : List ℕ}

theorem Chained.findLeaf (h : t.Chained ps) {root : Node K} {k : K} {p : ℕ} (hroot : t.root = some root)
    (hp : findLeaf k root = some p) : ∃ before after, ps = before ++ p :: after := by
  have hT : t.treeLeaves = root.leaves := by rw [treeLeaves, hroot]; rfl
  exact List.append_of_mem (h.mem p (hT ▸ findLeaf_mem hp))

theorem Chained.rangeQuery (h : t.Chained ps) {root : Node K} {start : K} (stop : K) {p : ℕ}
    (hroot : t.root = some root) (hp : BPlus.findLeaf start root = some p) :
    ∃ found, found.Sublist ((pairsOf t.leaves ps).filter (within start stop)) ∧
      ((leafAt t.leaves p).pairs.filter (within start stop)).Sublist found ∧
      t.rangeQuery start stop = some (found.map Prod.snd) := by
  obtain ⟨before, after, rfl⟩ := h.findLeaf hroot hp
  have hlength := length_le_of_nodup h.nodup h.lt
  rw [List.length_append, List.length_cons] at hlength
  obtain ⟨rest, hrest, hwalk⟩ := rangeWalk_cons start stop h.visits.suffix
    (n := t.leaves.length) (by omega) fun q hq =>
      Linked.leafAt_ok h (h.lt q (List.mem_append_right _ hq))
  refine ⟨_, ?_, List.sublist_append_left _ rest, ?_⟩
  · rw [pairsOf_append, pairsOf_cons, List.filter_append, List.filter_append]
    exact (hrest.append_left _).trans (List.sublist_append_right _ _)
  · rw [BPlusTree.rangeQuery, hroot]
    simp only [hp, hwalk]

def inserted (ops : List (Op K V)) : List (K × V) :=
  ops.filterMap fun op => match op with
    | .insert i => some (i.key, i.value)
    | .remove _ => none

/-- What the calls of a run remove: for each `remove` the pair that `find` finds. -/
def taken : List (Op K V) → BPlusTree K V → List (K × V)
  | [], _ => []
  | .insert i :: ops, t => (step (.insert i) t).elim [] (taken ops)
  | .remove k :: ops, t => ((t.find k).map (k, ·)).toList ++ (step (.remove k) t).elim [] (taken ops)

theorem Chained.ledger {ops : List (Op K V)} (h : t.Chained ps) (hr : attempt step t ops = some t') :
    ∃ ps', t'.Chained ps' ∧
      (pairsOf t'.leaves ps' ++ taken ops t).Perm (inserted ops ++ pairsOf t.leaves ps) := by
  induction ops generalizing t ps with
  | nil =>
    obtain rfl := Option.some_inj.1 hr
    exact ⟨ps, h, by simp [taken, inserted]⟩
  | cons op ops ih =>
    rw [attempt_cons] at hr
    obtain ⟨t₁, hstep, hrest⟩ := Option.bind_eq_some_iff.1 hr
    cases op with
    | insert i =>
      obtain ⟨ps₁, h₁, hperm⟩ := h.insert hstep
      obtain ⟨ps', h', hledger⟩ := ih h₁ hrest
      refine ⟨ps', h', ?_⟩
      rw [taken, hstep, Option.elim_some]
      have hput := hperm.append_left (inserted ops)
      exact (hledger.trans hput).trans List.perm_middle
    | remove k =>
      obtain ⟨ps₁, h₁, hnone, hsome⟩ := h.remove hstep
      obtain ⟨ps', h', hledger⟩ := ih h₁ hrest
      refine ⟨ps', h', ?_⟩
      rw [taken, hstep, Option.elim_some]
      cases hfind : t.find k with
      | none =>
        rw [hnone hfind] at hledger
        exact hledger
      | some v =>
        have hout := (hsome v hfind).symm.append_left (inserted ops)
        have hmiddle := (List.perm_middle (a := (k, v))).trans (hledger.cons (k, v))
        exact hmiddle.trans (List.perm_middle.symm.trans hout)

/-- In every run of insertions and removals the pairs on the chain and those removed are together
the pairs inserted. What `find` yields is on the chain under its key, and in the range query for
this key; and every range query ends and yields, in the order of the chain, values of pairs on it
that are in the range, none of them twice. -/
theorem run_lookups_sound (deg : ℤ) (ops : List (Op K V)) (t : BPlusTree K V)
    (h : attempt step (fresh K V deg) ops = some t) :
    ∃ L, t.chainPairs = some L ∧ (L ++ taken ops (fresh K V deg)).Perm (inserted ops) ∧
      (∀ k v, t.find k = some v → (k, v) ∈ L ∧ ∃ values, t.rangeQuery k k = some values ∧ v ∈ values) ∧
      ∀ start stop, ∃ found : List (K × V), found.Sublist (L.filter (within start stop)) ∧
        t.rangeQuery start stop = some (found.map Prod.snd) := by
  obtain ⟨ps, hps, hledger⟩ := (chained_fresh deg).ledger h
  refine ⟨_, hps.chainPairs, by simpa [pairsOf] using hledger, ?_, ?_⟩
  · intro k v hfind
    obtain ⟨root, hroot, hdown⟩ := Option.bind_eq_some_iff.1 hfind
    obtain ⟨p, hp, hleaf⟩ := Option.bind_eq_some_iff.1 hdown
    obtain ⟨before, after, hsplit⟩ := hps.findLeaf hroot hp
    have hok := Linked.leafAt_ok hps (hps.lt p (hsplit ▸ by simp))
    have hmem : (k, v) ∈ (leafAt t.leaves p).pairs := by
      rw [hok.find, List.lookup_eq_some_iff] at hleaf
      obtain ⟨lo, hi, heq, -⟩ := hleaf
      rw [heq]
      exact List.mem_append_right _ List.mem_cons_self
    obtain ⟨found, -, hfirst, hquery⟩ := hps.rangeQuery k hroot hp
    have hin : (k, v) ∈ found := hfirst.subset (List.mem_filter.2 ⟨hmem, by simp [within]⟩)
    refine ⟨?_, _, hquery, List.mem_map_of_mem hin⟩
    rw [hsplit, pairsOf_append, pairsOf_cons]
    exact List.mem_append_right _ (List.mem_append_left _ hmem)
  · intro start stop
    cases hroot : t.root with
    | none => exact ⟨[], List.nil_sublist _, by rw [BPlusTree.rangeQuery, hroot]; rfl⟩
    | some root =>
      cases hp : findLeaf start root with
      | none => exact ⟨[], List.nil_sublist _, by rw [BPlusTree.rangeQuery, hroot]; simp [hp]⟩
      | some p =>
        obtain ⟨found, hfound, -, hquery⟩ := hps.rangeQuery stop hroot hp
        exact ⟨found, hfound, hquery⟩

theorem run_lookups_sound_of_seven :
    ∃ t L, attempt step (fresh ℕ ℕ 2) (([1, 2, 3, 4, 5].map fun k => Op.insert ⟨k, k, fun _ => 0⟩) ++
        [.remove 1, .remove 2]) = some t ∧ t.chainPairs = some L ∧
      (L ++ taken (([1, 2, 3, 4, 5].map fun k => Op.insert ⟨k, k, fun _ => 0⟩) ++
        [.remove 1, .remove 2]) (fresh ℕ ℕ 2)).Perm [(1, 1), (2, 2), (3, 3), (4, 4), (5, 5)] := by
  obtain ⟨t, ht⟩ := Option.isSome_iff_exists.1 (by decide +kernel :
    (attempt step (fresh ℕ ℕ 2) (([1, 2, 3, 4, 5].map fun k => Op.insert ⟨k, k, fun _ => 0⟩) ++
      [.remove 1, .remove 2])).isSome = true)
  obtain ⟨L, hL, hperm, -⟩ := run_lookups_sound 2 _ t ht
  exact ⟨t, L, ht, hL, hperm⟩

end BPlusTree

end LearnSpdk
