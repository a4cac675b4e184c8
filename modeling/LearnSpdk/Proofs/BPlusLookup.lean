import LearnSpdk.Proofs.BPlusRow
import Mathlib.Data.List.Induction

/-! Lookups and range queries after runs of `insert` in which no call meets a full
internal root. The pairs on the chain are always the right ones, newest first; `find`
misses exactly the keys that a split made a separator without leaving one of them in
the left half. -/

namespace LearnSpdk

open Lib BPlus

variable {K V : Type}

namespace BPlusTree

theorem exists_middle {t : BPlusTree K V} {keys : List K} (h : isFull t.degree keys = true) :
    ∃ s, middle keys = some s := by
  have hlen := isFull_eq_true.1 h
  have hdegree := t.two_le_degree
  exact ⟨_, List.getElem?_eq_getElem (by omega)⟩

variable [LinearOrder K] {t t' : BPlusTree K V} {ks : List K} {ps qs : List ℕ} {k : K} {v : V}

/-- If an `insert` finds a full leaf, the split falls between two equal keys, or the key
inserted is the one promoted. -/
def SplitsCleanly (t : BPlusTree K V) : Op K V → Prop
  | .insert i => ∀ p ∈ t.root.bind (findLeaf i.key),
      isFull t.degree (leafAt t.leaves p).keys = true →
      (leafAt t.leaves p).keys[(leafAt t.leaves p).keys.length / 2 - 1]? =
        (leafAt t.leaves p).keys[(leafAt t.leaves p).keys.length / 2]? ∨
      (leafAt t.leaves p).keys[(leafAt t.leaves p).keys.length / 2]? = some i.key
  | .remove _ => True

instance (t : BPlusTree K V) : ∀ op, Decidable (SplitsCleanly t op)
  | .insert i => inferInstanceAs (Decidable (∀ p ∈ t.root.bind (findLeaf i.key),
      isFull t.degree (leafAt t.leaves p).keys = true → _ ∨ _))
  | .remove _ => isTrue trivial

def lastInsert (l : List (Insertion K V)) (k : K) : Option V :=
  (l.reverse.find? fun i => i.key = k).map (·.value)

theorem lastInsert_append (l : List (Insertion K V)) (i : Insertion K V) (k : K) :
    lastInsert (l ++ [i]) k = if k = i.key then some i.value else lastInsert l k := by
  simp only [lastInsert, List.reverse_append, List.reverse_singleton, List.singleton_append,
    List.find?_cons]
  by_cases hk : k = i.key
  · simp [hk]
  · simp [hk, Ne.symm hk]

def Exact (t : BPlusTree K V) (ps : List ℕ) : Prop :=
  ∀ x, t.find x = (pairsOf t.leaves ps).lookup x

theorem Row.exact_single (k : K) (v : V) (h : Row (t.single k v) [] [t.leaves.length] qs) (x : K) :
    (t.single k v).find x = (if x = k then some v else none) ∧
      (pairsOf (t.single k v).leaves [t.leaves.length]).lookup x = if x = k then some v else none := by
  have hleaf : leafAt (t.single k v).leaves t.leaves.length = ⟨[k], [v], none⟩ := leafAt_append_length
  have hlookup : ([(k, v)] : List (K × V)).lookup x = if x = k then some v else none := by
    split_ifs with hx
    · rw [hx, List.lookup_cons_self]
    · exact lookup_eq_none_of_ne (by simpa using Ne.symm hx)
  refine ⟨?_, ?_⟩
  · rw [h.find, show route x [] [t.leaves.length] = some t.leaves.length from rfl, Option.bind_some,
      hleaf]
    exact hlookup
  · rw [pairsOf, List.flatMap_singleton, hleaf]
    exact hlookup

theorem Exact.putAt (h : Row t ks ps qs) {p : ℕ} (hp : route k ks ps = some p)
    (hfull : isFull t.degree (leafAt t.leaves p).keys = false) (v : V) :
    (t.putAt p k v).Exact ps ↔ ∀ x, x ≠ k → t.find x = (pairsOf t.leaves ps).lookup x := by
  refine ⟨?_, ?_⟩
  · intro hexact x hx
    have := hexact x
    rwa [h.find_putAt hp hfull, h.lookup_putAt hp, if_neg hx, if_neg hx] at this
  · intro hexact x
    rw [h.find_putAt hp hfull, h.lookup_putAt hp]
    split_ifs with hx
    · rfl
    · exact hexact x hx

/-- After a split the searches for other keys than `k` stay right if and only if the split is
clean. -/
theorem Row.find_splitAt_iff (h : Row t ks ps qs) {ks₁ ks₂ : List K} {ps₁ ps₂ : List ℕ} {p : ℕ} {s : K}
    (c : Cut (keysOf t.leaves) k ks ps ks₁ ks₂ ps₁ p ps₂)
    (hfull : isFull t.degree (leafAt t.leaves p).keys = true)
    (hs : (leafAt t.leaves p).keys[(leafAt t.leaves p).keys.length / 2]? = some s)
    (hexact : t.Exact ps) :
    (∀ x, x ≠ k → (t.splitAt ks₁ ks₂ ps₁ p ps₂ s).find x = (pairsOf t.leaves ps).lookup x) ↔
      (leafAt t.leaves p).keys[(leafAt t.leaves p).keys.length / 2 - 1]? =
        (leafAt t.leaves p).keys[(leafAt t.leaves p).keys.length / 2]? ∨
      (leafAt t.leaves p).keys[(leafAt t.leaves p).keys.length / 2]? = some k := by
  refine ⟨?_, ?_⟩
  · intro hexact'
    by_contra hclean
    obtain ⟨hne, hkey⟩ := not_or.1 hclean
    rw [hs] at hne hkey
    obtain ⟨hnone, hsome⟩ := h.find_splitAt_self c hfull hs hne
    exact hsome ((hexact' s fun he => hkey (he ▸ rfl)).symm.trans hnone)
  · intro hclean x hx
    by_cases hxs : x = s
    · subst hxs
      rw [← hexact x]
      rcases hclean with heq | hkey
      · exact h.find_splitAt_of_eq c hfull hs (heq.trans hs)
      · exact absurd (Option.some_inj.1 (hs.symm.trans hkey)) hx
    · rw [h.find_splitAt_of_ne c hfull hs hxs, hexact x]

/-- Everything `insert` does to a row: the pairs on the chain are right, and `find` stays
right if and only if the split is clean. -/
theorem Row.insert (h : Row t ks ps qs) (i : Insertion K V)
    (hroot : t.fullInternalRoot = false) :
    ∃ t' ks' ps' qs', t.insert i.promoted i.key i.value = some t' ∧ Row t' ks' ps' qs' ∧
      (qs = ps → qs' = ps') ∧
      (∀ x, (pairsOf t'.leaves ps').lookup x =
        if x = i.key then some i.value else (pairsOf t.leaves ps).lookup x) ∧
      (t.Exact ps → (t'.Exact ps' ↔ t.SplitsCleanly (.insert i))) ∧
      (t.Filled ks ps → t'.Filled ks' ps') := by
  have hfindLeaf : t.root.bind (findLeaf i.key) = route i.key ks ps := by
    rw [h.root, findLeaf_row h.arity]
  by_cases hps : ps = []
  · subst hps
    obtain ⟨hinsert, hrow⟩ := h.insert_nil i.promoted i.key i.value
    have hsingle := hrow.exact_single i.key i.value
    refine ⟨_, _, _, _, hinsert, hrow, fun _ => rfl, fun x => (hsingle x).2, fun _ => ?_,
      fun _ hks => absurd rfl hks⟩
    refine iff_of_true (fun x => (hsingle x).1.trans (hsingle x).2.symm) fun p hp => ?_
    rw [hfindLeaf] at hp
    exact absurd (mem_of_route hp) (by simp)
  obtain ⟨ks₁, ks₂, ps₁, p, ps₂, c⟩ := h.exists_cut hps i.key
  cases hfull : isFull t.degree (leafAt t.leaves p).keys with
  | false =>
    refine ⟨_, ks, ps, qs, h.insert_of_not_full hroot c.route hfull i.promoted i.value,
      h.putAt c.route hfull i.value, id, h.lookup_putAt c.route i.value, fun hexact => ?_,
      fun hf => hf.putAt h (mem_of_route c.route) i.key i.value⟩
    refine iff_of_true ((Exact.putAt h c.route hfull i.value).2 fun x _ => hexact x) fun q hq hfull' => ?_
    rw [hfindLeaf, c.route, Option.mem_some_iff] at hq
    rw [hq, hfull'] at hfull
    cases hfull
  | true =>
    obtain ⟨s, hs⟩ := exists_middle hfull
    obtain ⟨qs₁, qs₂, hqs, hrow, hpairs⟩ := h.splitAt c hfull hs
    obtain ⟨hroute, hhalf⟩ := h.route_splitAt c hfull hs
    have hp : route i.key (ks₁ ++ s :: ks₂) (ps₁ ++ p :: t.leaves.length :: ps₂) =
        some (if s < i.key then t.leaves.length else p) := by
      rw [hroute, c.route]
      simp
    refine ⟨_, _, _, _, h.insert_of_full hroot c hfull hs i.promoted i.value,
      hrow.putAt hp hhalf i.value, ?_, ?_, fun hexact => ?_,
      fun hf => (hf.splitAt h c hfull hs).putAt hrow (mem_of_route hp) i.key i.value⟩
    · intro heq
      obtain ⟨hps₁, hps₂⟩ := h.ne_of_cut c
      rw [hqs, c.blocks, eq_comm, List.append_cons_inj_of_notMem (fun hm => hps₁ p hm rfl)
        fun hm => hps₂ p hm rfl] at heq
      rw [heq.1, heq.2.2]
    · intro x
      rw [hrow.lookup_putAt hp, show pairsOf (t.splitAt ks₁ ks₂ ps₁ p ps₂ s).leaves _ = _ from hpairs]
    · rw [Exact.putAt hrow hp hhalf,
        show pairsOf (t.splitAt ks₁ ks₂ ps₁ p ps₂ s).leaves _ = _ from hpairs,
        h.find_splitAt_iff c hfull hs hexact]
      refine ⟨fun hclean q hq _ => ?_, fun hclean => hclean p (hfindLeaf.trans c.route) hfull⟩
      rw [hfindLeaf, c.route, Option.mem_some_iff] at hq
      exact hq ▸ hclean

/-- A run of insertions in which no call meets a full internal root builds a row, with
the last insertion of each key in front. -/
theorem run_insert_row {deg : ℤ} {l : List (Insertion K V)}
    (h : Meets step (fresh K V deg) NoRootSplit (l.map .insert)) :
    ∃ t ks ps, attempt step (fresh K V deg) (l.map .insert) = some t ∧ Row t ks ps ps ∧
      (∀ x, (pairsOf t.leaves ps).lookup x = lastInsert l x) ∧ t.Filled ks ps := by
  induction l using List.reverseRecOn with
  | nil => exact ⟨fresh K V deg, [], [], rfl, row_fresh deg, fun _ => rfl, fun hks => absurd rfl hks⟩
  | append_singleton l i ih =>
    rw [List.map_append, List.map_singleton, meets_snoc] at h
    obtain ⟨t, ks, ps, hrun, hrow, hlookup, hfilled⟩ := ih h.1
    obtain ⟨t', ks', ps', qs', hinsert, hrow', hqs, hlookup', -, hfilled'⟩ :=
      hrow.insert i (h.2 t hrun)
    obtain rfl := hqs rfl
    refine ⟨t', ks', qs', ?_, hrow', fun x => ?_, hfilled' hfilled⟩
    · rw [List.map_append, List.map_singleton, attempt_snoc, hrun, Option.bind_some]
      exact hinsert
    · rw [hlookup', hlookup, lastInsert_append]

/-- In a run without a split of an internal root, `find` is right after every call if and
only if every split of a leaf is clean. -/
theorem find_eq_lastInsert_iff (deg : ℤ) (l : List (Insertion K V))
    (h : Meets step (fresh K V deg) NoRootSplit (l.map .insert)) :
    (∀ pre, pre <+: l → ∃ t, attempt step (fresh K V deg) (pre.map .insert) = some t ∧
      ∀ k, t.find k = lastInsert pre k) ↔
    Meets step (fresh K V deg) SplitsCleanly (l.map .insert) := by
  induction l using List.reverseRecOn with
  | nil =>
    refine iff_of_true (fun pre hpre => ?_) meets_nil
    obtain rfl := List.prefix_nil.1 hpre
    exact ⟨fresh K V deg, rfl, fun _ => rfl⟩
  | append_singleton l i ih =>
    rw [List.map_append, List.map_singleton, meets_snoc] at h ⊢
    obtain ⟨t, ks, ps, hrun, hrow, hlookup, -⟩ := run_insert_row h.1
    obtain ⟨t', ks', ps', qs', hinsert, -, -, hlookup', hexact, -⟩ := hrow.insert i (h.2 t hrun)
    have hrun' : attempt step (fresh K V deg) ((l ++ [i]).map .insert) = some t' := by
      rw [List.map_append, List.map_singleton, attempt_snoc, hrun, Option.bind_some]
      exact hinsert
    -- being right after a call is agreeing with the pairs on the chain
    have hiff : (∃ t₁, attempt step (fresh K V deg) (l.map .insert) = some t₁ ∧ ∀ k, t₁.find k = lastInsert l k) ↔
        t.Exact ps := by
      simp [hrun, Exact, hlookup]
    have hiff' : (∃ t₁, attempt step (fresh K V deg) ((l ++ [i]).map .insert) = some t₁ ∧
        ∀ k, t₁.find k = lastInsert (l ++ [i]) k) ↔ t'.Exact ps' := by
      simp [hrun', Exact, hlookup', hlookup, lastInsert_append, -List.map_append]
    have hstep : (∀ t₁, attempt step (fresh K V deg) (l.map .insert) = some t₁ → t₁.SplitsCleanly (.insert i)) ↔
        t.SplitsCleanly (.insert i) := by
      simp [hrun]
    rw [← ih h.1, hstep]
    refine ⟨?_, ?_⟩
    · intro hall
      have hall' := fun pre hpre => hall pre (List.IsPrefix.trans hpre (List.prefix_append l [i]))
      refine ⟨hall', (hexact (hiff.1 (hall' l (List.prefix_refl l)))).1 ?_⟩
      exact hiff'.1 (hall _ (List.prefix_refl _))
    · rintro ⟨hall, hclean⟩ pre hpre
      rcases List.prefix_concat_iff.1 hpre with rfl | hpre
      · exact hiff'.2 ((hexact (hiff.1 (hall l (List.prefix_refl l)))).2 hclean)
      · exact hall pre hpre

def insertions (keys : List ℕ) : List (Insertion ℕ ℕ) := keys.map fun k => ⟨k, k, fun _ => 0⟩

/-- A run with a split between equal keys, and one that promotes the inserted key. -/
theorem find_eq_lastInsert_of_repeated_keys :
    Meets step (fresh ℕ ℕ 2) NoRootSplit ((insertions [1, 1, 1, 1, 4, 4, 4]).map .insert) ∧
    ∀ pre, pre <+: insertions [1, 1, 1, 1, 4, 4, 4] →
      ∃ t, attempt step (fresh ℕ ℕ 2) (pre.map .insert) = some t ∧ ∀ k, t.find k = lastInsert pre k :=
  ⟨by decide +kernel, (find_eq_lastInsert_iff 2 (insertions [1, 1, 1, 1, 4, 4, 4]) (by decide +kernel)).2
    (by decide +kernel)⟩

/-- The sixth insertion of `test_bplustree` splits the leaf in front of 15, and `find(15)`
goes left of it. -/
theorem find_misses_separator :
    ∃ t, attempt step (fresh ℕ ℕ 3) ((insertions [10, 20, 5, 15, 25, 3]).map .insert) = some t ∧
      t.find 15 = none ∧ lastInsert (insertions [10, 20, 5, 15, 25, 3]) 15 = some 15 := by
  have h : ∃ t ∈ attempt step (fresh ℕ ℕ 3) ((insertions [10, 20, 5, 15, 25, 3]).map .insert),
      t.find 15 = none ∧ lastInsert (insertions [10, 20, 5, 15, 25, 3]) 15 = some 15 := by
    decide +kernel
  exact h

end BPlusTree

end LearnSpdk
