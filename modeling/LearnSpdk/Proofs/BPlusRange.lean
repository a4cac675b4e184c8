import LearnSpdk.Proofs.BPlusLookup

/-! `range_query` on the rows of `BPlusRow`: the walk starts at or before the first pair
in the range, the chain is sorted, and so the early return loses nothing. -/

namespace LearnSpdk

open Lib BPlus

variable {K V : Type} [LinearOrder K] {H : Leaves K V} {start stop : K}

def within (start stop : K) (e : K × V) : Bool := start ≤ e.1 ∧ e.1 ≤ stop

theorem within_eq_false_of_lt {e : K × V} (h : stop < e.1) : within start stop e = false := by
  simp [within, not_le.2 h]

theorem LeafNode.scan_eq (start stop : K) {keys : List K} {values : List V} (hlen : keys.length = values.length)
    (hs : keys.Pairwise (· ≤ ·)) :
    scan start stop keys values = (((keys.zip values).filter (within start stop)).map Prod.snd,
      (keys.zip values).any fun e => stop < e.1) := by
  induction keys generalizing values with
  | nil => rfl
  | cons k keys ih =>
    cases values with
    | nil => simp at hlen
    | cons v values =>
      obtain ⟨hk, hs⟩ := List.pairwise_cons.1 hs
      have hrest := ih (Nat.succ_inj.1 hlen) hs
      rw [scan, hrest, List.zip_cons_cons, List.any_cons]
      split_ifs with hrange hstop
      · have hw : within start stop (k, v) = true := by simpa [within] using hrange
        simp [List.filter_cons_of_pos hw, not_lt.2 hrange.2]
      · -- every later key is beyond the range, too
        have hnil : (keys.zip values).filter (within start stop) = [] := by
          rw [List.filter_eq_nil_iff]
          intro e he
          rw [within_eq_false_of_lt (lt_of_lt_of_le hstop (hk _ (List.of_mem_zip he).1))]
          simp
        have hw : ¬within start stop (k, v) = true := by
          rw [within_eq_false_of_lt (by exact hstop)]
          simp
        simp [List.filter_cons_of_neg hw, hnil, hstop]
      · have hw : ¬within start stop (k, v) = true := by simpa [within] using hrange
        simp [List.filter_cons_of_neg hw, hstop]

theorem BPlus.rangeWalk_eq (start stop : K) {ps : List ℕ} {o : Option ℕ} {n : ℕ} (hv : Visits (nextOf H) o ps)
    (hn : ps.length ≤ n) (hok : ∀ p ∈ ps, (leafAt H p).Ok)
    (hs : ((pairsOf H ps).map Prod.fst).Pairwise (· ≤ ·)) :
    rangeWalk start stop H n o = some (((pairsOf H ps).filter (within start stop)).map Prod.snd) := by
  induction ps generalizing o n with
  | nil =>
    obtain rfl : o = none := hv
    cases n <;> rfl
  | cons p ps ih =>
    obtain ⟨rfl, hv⟩ := hv
    cases n with
    | zero => simp at hn
    | succ n =>
      have hleaf := hok p (by simp)
      rw [pairsOf_cons, List.map_append, List.pairwise_append] at hs
      obtain ⟨-, hs, hle⟩ := hs
      have hrest := ih hv (Nat.le_of_succ_le_succ hn) (fun q hq => hok q (by simp [hq])) hs
      have hscan := LeafNode.scan_eq start stop hleaf.length_eq hleaf.sorted
      simp only [rangeWalk, hscan, pairsOf_cons, List.filter_append, List.map_append]
      change (if (leafAt H p).pairs.any _ = true then _ else _) = _
      split_ifs with hany
      · obtain ⟨e, he, hstop⟩ := List.any_eq_true.1 hany
        have hnil : (pairsOf H ps).filter (within start stop) = [] := by
          rw [List.filter_eq_nil_iff]
          intro e' he'
          have hee' : e.1 ≤ e'.1 := hle _ (List.mem_map_of_mem he) _ (List.mem_map_of_mem he')
          rw [within_eq_false_of_lt (lt_of_lt_of_le (by simpa using hstop) hee')]
          simp
        rw [hnil, List.map_nil, List.append_nil]
        rfl
      · rw [show (leafAt H p).next = nextOf H p from rfl, hrest]
        rfl

namespace BPlusTree

variable {t : BPlusTree K V} {ks : List K} {ps : List ℕ}

theorem map_fst_pairsOf (hok : ∀ p ∈ ps, (leafAt H p).Ok) :
    (pairsOf H ps).map Prod.fst = ps.flatMap (keysOf H) := by
  rw [pairsOf, List.map_flatMap]
  exact List.flatMap_congr fun p hp => (hok p hp).map_fst

theorem Row.sorted_pairs {qs : List ℕ} (h : Row t ks ps qs) :
    ((pairsOf t.leaves ps).map Prod.fst).Pairwise (· ≤ ·) := by
  rw [map_fst_pairsOf fun p hp => h.ok hp]
  exact h.sorted.sublist (flatMap_sublist_weave ks ps)

theorem Row.rangeQuery (h : Row t ks ps ps) (start stop : K) :
    t.rangeQuery start stop =
      some (((pairsOf t.leaves ps).filter (within start stop)).map Prod.snd) := by
  have hfindLeaf : t.root.bind (findLeaf start) = route start ks ps := by
    rw [h.root, findLeaf_row h.arity]
  by_cases hps : ps = []
  · subst hps
    obtain rfl : ks = [] := by
      rcases h.arity with ⟨-, hks⟩ | hlen
      · exact hks
      · simp at hlen
    rw [BPlusTree.rangeQuery, h.root]
    rfl
  obtain ⟨ks₁, ks₂, ps₁, p, ps₂, c⟩ := h.exists_cut hps start
  rw [c.route] at hfindLeaf
  obtain ⟨root, hroot, hleaf⟩ := Option.bind_eq_some_iff.1 hfindLeaf
  have hvisits := h.linked.visits
  have hlength := length_le_of_nodup h.linked.nodup h.linked.lt
  have hsorted := h.sorted_pairs
  rw [c.blocks] at hvisits hlength
  rw [Cut.pairs c, List.map_append, List.pairwise_append] at hsorted
  have hwalk := rangeWalk_eq start stop hvisits.suffix
    (le_trans (by simp) hlength) (fun q hq => h.ok (c.blocks ▸ List.mem_append_right _ hq)) hsorted.2.1
  -- what stands before the leaf is below the range
  have hnil : (pairsOf t.leaves ps₁).filter (within start stop) = [] := by
    rw [List.filter_eq_nil_iff]
    intro e he
    simp [within, not_le.2 ((h.cut_pairs c).1 e he)]
  simp only [BPlusTree.rangeQuery, hroot, hleaf]
  rw [hwalk, c.blocks, pairsOf_append, List.filter_append, hnil, List.nil_append]

theorem run_insert_perm {deg : ℤ} {l : List (Insertion K V)}
    (h : attempt step (fresh K V deg) (l.map .insert) = some t) (hps : t.Chained ps) :
    (pairsOf t.leaves ps).Perm (l.map fun i => (i.key, i.value)) := by
  induction l using List.reverseRecOn generalizing t ps with
  | nil =>
    obtain rfl := Option.some_inj.1 h
    obtain rfl : [] = ps := Option.some_inj.1 ((chained_fresh deg).chain.symm.trans hps.chain)
    exact List.Perm.refl _
  | append_singleton l i ih =>
    rw [List.map_append, List.map_singleton, attempt_snoc, Option.bind_eq_some_iff] at h
    obtain ⟨t₁, hrun, hinsert⟩ := h
    obtain ⟨ps₁, hps₁, -⟩ := (chained_fresh deg).run hrun
    obtain ⟨ps', hps', hperm⟩ := hps₁.insert hinsert
    obtain rfl : ps' = ps := Option.some_inj.1 (hps'.chain.symm.trans hps.chain)
    rw [List.map_append]
    exact (hperm.trans ((ih hrun hps₁).cons _)).trans (List.perm_append_singleton _ _).symm

/-- In a run of insertions of distinct keys without a split of an internal root, every
range query is exact. -/
theorem rangeQuery_exact (deg : ℤ) (l : List (Insertion K V))
    (h : Meets step (fresh K V deg) NoRootSplit (l.map .insert)) (hd : (l.map (·.key)).Nodup)
    (start stop : K) :
    ∃ t, attempt step (fresh K V deg) (l.map .insert) = some t ∧ ∃ L : List (K × V),
      t.rangeQuery start stop = some (L.map Prod.snd) ∧ (L.map Prod.fst).Pairwise (· < ·) ∧
      ∀ k v, (k, v) ∈ L ↔ (∃ i ∈ l, i.key = k ∧ i.value = v) ∧ start ≤ k ∧ k ≤ stop := by
  obtain ⟨t, ks, ps, hrun, hrow, -⟩ := run_insert_row h
  have hperm := run_insert_perm hrun hrow.chained
  have hnodup : ((pairsOf t.leaves ps).map Prod.fst).Nodup := by
    rw [(hperm.map Prod.fst).nodup_iff, List.map_map]
    exact hd
  have hlt : ((pairsOf t.leaves ps).map Prod.fst).Pairwise (· < ·) :=
    (hrow.sorted_pairs.and hnodup).imp fun h => lt_of_le_of_ne h.1 h.2
  refine ⟨t, hrun, _, hrow.rangeQuery start stop, ?_, fun k v => ?_⟩
  · exact hlt.sublist (List.filter_sublist.map _)
  · rw [List.mem_filter, hperm.mem_iff]
    simp [within]

theorem rangeQuery_exact_of_six :
    ∃ t, attempt step (fresh ℕ ℕ 2) ((insertions [10, 20, 30, 40, 25, 50]).map .insert) = some t ∧
      ∃ L : List (ℕ × ℕ), t.rangeQuery 22 45 = some (L.map Prod.snd) ∧
        (L.map Prod.fst).Pairwise (· < ·) ∧ ∀ k v, (k, v) ∈ L ↔
          (∃ i ∈ insertions [10, 20, 30, 40, 25, 50], i.key = k ∧ i.value = v) ∧ 22 ≤ k ∧ k ≤ 45 :=
  rangeQuery_exact 2 (insertions [10, 20, 30, 40, 25, 50]) (by decide +kernel) (by decide) 22 45

/-- The last insertion splits the root, and the query goes past the leaf with the key 25. -/
theorem rangeQuery_misses_key :
    ∃ t, attempt step (fresh ℕ ℕ 2) ((insertions [10, 20, 30, 40, 25, 50, 60, 70]).map .insert) = some t ∧
      t.rangeQuery 22 70 = some [30, 40, 50, 60, 70] ∧
      ¬∃ L : List (ℕ × ℕ), t.rangeQuery 22 70 = some (L.map Prod.snd) ∧
        (L.map Prod.fst).Pairwise (· < ·) ∧ ∀ k v, (k, v) ∈ L ↔
          (∃ i ∈ insertions [10, 20, 30, 40, 25, 50, 60, 70], i.key = k ∧ i.value = v) ∧
            22 ≤ k ∧ k ≤ 70 := by
  have h : ∃ t ∈ attempt step (fresh ℕ ℕ 2) ((insertions [10, 20, 30, 40, 25, 50, 60, 70]).map .insert),
      t.rangeQuery 22 70 = some [30, 40, 50, 60, 70] := by
    decide +kernel
  obtain ⟨t, hrun, hquery⟩ := h
  refine ⟨t, hrun, hquery, ?_⟩
  rintro ⟨L, hL, -, hmem⟩
  have h25 : (25, 25) ∈ L := (hmem 25 25).2 (by decide)
  have hvalues : 25 ∈ L.map Prod.snd := List.mem_map_of_mem h25
  rw [← Option.some_inj.1 (hquery.symm.trans hL)] at hvalues
  simp at hvalues

end BPlusTree

end LearnSpdk
