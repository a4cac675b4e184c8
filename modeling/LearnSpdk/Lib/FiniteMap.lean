import LearnSpdk.Lib.SearchTree

/-! Finite maps as functions to `Option`, and the sorted list of their entries.
The operations of a search tree are described by what they do to the map. -/

namespace Lib

open ColorTree

variable {κ ν α : Type*}

/-- A list of items, cut at the one with key `k`, as a list of entries. -/
theorem map_pair_cut {key : α → κ} {val : α → ν} {k : κ} {o : Option α}
    (ho : ∀ a, o = some a → key a = k) (lo hi : List α) :
    (lo ++ (o.toList ++ hi)).map (fun a => (key a, val a)) =
      lo.map (fun a => (key a, val a)) ++
        (((o.map val).map (k, ·)).toList ++ hi.map fun a => (key a, val a)) := by
  cases o with
  | none => simp
  | some a => simp [ho a rfl]

/-- The entries that the items of a tree stand for. -/
def pairs (key : α → κ) (val : α → ν) (t : ColorTree α) : List (κ × ν) :=
  t.toList.map fun a => (key a, val a)

theorem pairs_eq_nil {key : α → κ} {val : α → ν} {t : ColorTree α} :
    pairs key val t = [] ↔ t = .nil := by
  cases t <;> simp [pairs, toList]

variable [LinearOrder κ]

/-- `l` lists the entries of `m` in the order of their keys, each once. -/
structure Entries (m : κ → Option ν) (l : List (κ × ν)) : Prop where
  sorted : Increasing Prod.fst l
  mem : ∀ k v, (k, v) ∈ l ↔ m k = some v

theorem entries_empty : Entries (fun _ : κ => (none : Option ν)) [] :=
  ⟨List.Pairwise.nil, by simp⟩

variable {m : κ → Option ν} {l lo hi : List (κ × ν)} {k : κ}

/-- Replacing what stands between the entries below and above `k` replaces the
value at `k`, and nothing else. -/
theorem Entries.update {o : Option ν} (h : Entries m (lo ++ ((o.map (k, ·)).toList ++ hi)))
    (hlo : ∀ e ∈ lo, e.1 < k) (hhi : ∀ e ∈ hi, k < e.1) (o' : Option ν) {l' : List (κ × ν)}
    (hl' : l' = lo ++ ((o'.map (k, ·)).toList ++ hi)) (hs : Increasing Prod.fst l') :
    Entries (Function.update m k o') l' := by
  refine ⟨hs, fun k' v => ?_⟩
  have hmem := h.mem k' v
  subst hl'
  by_cases hk : k' = k
  · subst hk
    have hlo' : (k', v) ∉ lo := fun e => lt_irrefl _ (hlo _ e)
    have hhi' : (k', v) ∉ hi := fun e => lt_irrefl _ (hhi _ e)
    simp [hlo', hhi', Function.update]
  · rw [Function.update_of_ne hk, ← hmem]
    have hne (o : Option ν) : (k', v) ∉ (o.map (k, ·)).toList := by
      intro he
      obtain ⟨w, -, hw⟩ := Option.map_eq_some_iff.1 (Option.mem_toList.1 he)
      exact hk (congrArg Prod.fst hw).symm
    simp only [List.mem_append, hne, false_or]

theorem Entries.lookup {o : Option ν} (h : Entries m (lo ++ ((o.map (k, ·)).toList ++ hi)))
    (hlo : ∀ e ∈ lo, e.1 < k) (hhi : ∀ e ∈ hi, k < e.1) : m k = o := by
  refine Option.ext fun v => ?_
  rw [← h.mem k v]
  have hlo' : (k, v) ∉ lo := fun e => lt_irrefl _ (hlo _ e)
  have hhi' : (k, v) ∉ hi := fun e => lt_irrefl _ (hhi _ e)
  simp [hlo', hhi']

/-- A map has as many keys as its list has entries. -/
theorem Entries.ncard (h : Entries m l) : {k | m k ≠ none}.ncard = l.length := by
  have hset : {k | m k ≠ none} = ((l.map Prod.fst).toFinset : Set κ) := by
    ext k
    simp only [Set.mem_ofPred_eq, List.coe_toFinset, List.mem_map, Prod.exists, exists_and_right,
      exists_eq_right, h.mem, Option.ne_none_iff_exists']
  have hnodup : (l.map Prod.fst).Nodup := (List.pairwise_map.2 h.sorted).imp ne_of_lt
  rw [hset, Set.ncard_coe_finset, List.toFinset_card_of_nodup hnodup, List.length_map]

theorem Entries.eq_nil (h : Entries m l) : l = [] ↔ ∀ k, m k = none := by
  refine ⟨?_, ?_⟩
  · rintro rfl k
    by_contra hk
    obtain ⟨v, hv⟩ := Option.ne_none_iff_exists'.1 hk
    exact List.not_mem_nil ((h.mem k v).2 hv)
  · intro hm
    refine List.eq_nil_iff_forall_not_mem.2 fun e he => ?_
    have hv := (h.mem e.1 e.2).1 he
    rw [hm] at hv
    cases hv

/-- The first entry has the least key. -/
theorem Entries.isLeast (h : Entries m l) {e : κ × ν} (he : l.head? = some e) :
    IsLeast {k | m k ≠ none} e.1 := by
  obtain ⟨rest, rfl⟩ := List.head?_eq_some_iff.1 he
  have hs := List.pairwise_cons.1 h.sorted
  refine ⟨?_, ?_⟩
  · have hv := (h.mem e.1 e.2).1 List.mem_cons_self
    simp [hv]
  · intro k hk
    obtain ⟨v, hv⟩ := Option.ne_none_iff_exists'.1 hk
    rcases List.mem_cons.1 ((h.mem k v).2 hv) with rfl | hmem
    · exact le_rfl
    · exact (hs.1 _ hmem).le

/-- The last entry has the greatest key. -/
theorem Entries.isGreatest (h : Entries m l) {e : κ × ν} (he : l.getLast? = some e) :
    IsGreatest {k | m k ≠ none} e.1 := by
  obtain ⟨rest, rfl⟩ := List.getLast?_eq_some_iff.1 he
  have hs := List.pairwise_append.1 h.sorted
  refine ⟨?_, ?_⟩
  · have hv := (h.mem e.1 e.2).1 (by simp)
    simp [hv]
  · intro k hk
    obtain ⟨v, hv⟩ := Option.ne_none_iff_exists'.1 hk
    rcases List.mem_append.1 ((h.mem k v).2 hv) with hmem | hmem
    · exact (hs.2.2 _ hmem e (by simp)).le
    · rw [← List.mem_singleton.1 hmem]

section Tree

variable {key : α → κ} {val : α → ν} {t : ColorTree α}

theorem increasing_pairs : Increasing Prod.fst (pairs key val t) ↔ Increasing key t.toList :=
  List.pairwise_map

theorem Entries.lookup_eq (h : Entries m (pairs key val t)) (k : κ) :
    m k = (Lib.lookup key k t).map val := by
  obtain ⟨lo, hi, hlo, hhi, hkey, ht, -, -⟩ := toList_split k (increasing_pairs.1 h.sorted)
  rw [pairs, ht, map_pair_cut hkey] at h
  exact h.lookup (by simpa using hlo) (by simpa using hhi)

theorem Entries.put (h : Entries m (pairs key val t)) {k : κ} {new : Option α → α}
    (hk : key (new (Lib.lookup key k t)) = k) :
    Entries (Function.update m k (some (val (new (Lib.lookup key k t)))))
      (pairs key val (Lib.put key k new t)) := by
  have hs := increasing_put (increasing_pairs.1 h.sorted) hk
  obtain ⟨lo, hi, hlo, hhi, hkey, ht, hput, -⟩ := toList_split k (increasing_pairs.1 h.sorted)
  rw [pairs, ht, map_pair_cut hkey] at h
  refine h.update (by simpa using hlo) (by simpa using hhi) _ ?_ (increasing_pairs.2 hs)
  rw [pairs, hput]
  exact map_pair_cut (o := some (new (Lib.lookup key k t))) (by rintro a ⟨⟩; exact hk) lo hi

theorem Entries.erase (h : Entries m (pairs key val t)) (k : κ) :
    Entries (Function.update m k none) (pairs key val (Lib.erase key k t)) := by
  have hs := increasing_erase k (increasing_pairs.1 h.sorted)
  obtain ⟨lo, hi, hlo, hhi, hkey, ht, -, herase⟩ := toList_split k (increasing_pairs.1 h.sorted)
  rw [pairs, ht, map_pair_cut hkey] at h
  refine h.update (by simpa using hlo) (by simpa using hhi) _ ?_ (increasing_pairs.2 hs)
  rw [pairs, herase]
  exact map_pair_cut (o := none) (by simp) lo hi

end Tree

end Lib
