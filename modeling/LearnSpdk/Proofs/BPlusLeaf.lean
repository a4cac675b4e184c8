import LearnSpdk.Lib.SortedList
import LearnSpdk.Spec.BPlusTree

/-! The operations of one leaf in terms of its sorted list of pairs, and what a change
to one leaf does to the store. -/

namespace LearnSpdk

open Lib BPlus

variable {K V : Type}

namespace LeafNode

theorem pairs_take (l : LeafNode K V) (n : ℕ) (o : Option ℕ) :
    (⟨l.keys.take n, l.values.take n, o⟩ : LeafNode K V).pairs = l.pairs.take n := by
  rw [pairs, pairs, List.zip_eq_zipWith, List.zip_eq_zipWith, List.take_zipWith]

theorem pairs_drop (l : LeafNode K V) (n : ℕ) (o : Option ℕ) :
    (⟨l.keys.drop n, l.values.drop n, o⟩ : LeafNode K V).pairs = l.pairs.drop n := by
  rw [pairs, pairs, List.zip_eq_zipWith, List.zip_eq_zipWith, List.drop_zipWith]

variable [LinearOrder K] {l : LeafNode K V} {k : K} {v : V}

/-- A leaf has as many values as keys, and its keys are sorted. -/
structure Ok (l : LeafNode K V) : Prop where
  length_eq : l.keys.length = l.values.length
  sorted : l.keys.Pairwise (· ≤ ·)

theorem Ok.map_fst (h : l.Ok) : l.pairs.map Prod.fst = l.keys :=
  List.map_fst_zip (le_of_eq h.length_eq)

theorem Ok.mem_keys (h : l.Ok) {e : K × V} (he : e ∈ l.pairs) : e.1 ∈ l.keys := by
  rw [← h.map_fst]
  exact List.mem_map_of_mem he

theorem Ok.length_pairs (h : l.Ok) : l.pairs.length = l.keys.length := by
  rw [← h.map_fst, List.length_map]

theorem Ok.pairs_eq_nil (h : l.Ok) : l.pairs = [] ↔ l.keys = [] := by
  rw [← h.map_fst, List.map_eq_nil_iff]

theorem Ok.take (h : l.Ok) (n : ℕ) (o : Option ℕ) :
    (⟨l.keys.take n, l.values.take n, o⟩ : LeafNode K V).Ok :=
  ⟨by simp [h.length_eq], h.sorted.sublist (List.take_sublist _ _)⟩

theorem Ok.drop (h : l.Ok) (n : ℕ) (o : Option ℕ) :
    (⟨l.keys.drop n, l.values.drop n, o⟩ : LeafNode K V).Ok :=
  ⟨by simp [h.length_eq], h.sorted.sublist (List.drop_sublist _ _)⟩

theorem Ok.cut (h : l.Ok) (k : K) :
    ∃ lo hi vlo vhi, l.keys = lo ++ hi ∧ l.values = vlo ++ vhi ∧ lo.length = vlo.length ∧
      hi.length = vhi.length ∧ lowerBound k l.keys = lo.length ∧ (∀ x ∈ lo, x < k) ∧
      ∀ x ∈ hi, k ≤ x := by
  obtain ⟨lo, hi, hkeys, hlo, hlt, hle⟩ := exists_cut h.sorted k
  have hlen := h.length_eq
  rw [hkeys] at hlen
  obtain ⟨vlo, vhi, hvalues, h₁, h₂⟩ := exists_append_of_length hlen
  exact ⟨lo, hi, vlo, vhi, hkeys, hvalues, h₁, h₂, by rw [lowerBound, hlo], hlt, hle⟩

theorem lt_of_mem_zip {lo : List K} {vlo : List V} (h : ∀ x ∈ lo, x < k) :
    ∀ e ∈ lo.zip vlo, e.1 < k := fun _ he => h _ (List.of_mem_zip he).1

theorem le_of_mem_zip {hi : List K} {vhi : List V} (h : ∀ x ∈ hi, k ≤ x) :
    ∀ e ∈ hi.zip vhi, k ≤ e.1 := fun _ he => h _ (List.of_mem_zip he).1

/-- `insert_key` puts the pair in front of those whose key is not smaller. -/
theorem Ok.insertKey (h : l.Ok) (k : K) (v : V) :
    (l.insertKey k v).Ok ∧ ∃ lo hi, l.pairs = lo ++ hi ∧ (l.insertKey k v).pairs = lo ++ (k, v) :: hi ∧
      (∀ e ∈ lo, e.1 < k) ∧ ∀ e ∈ hi, k ≤ e.1 := by
  obtain ⟨lo, hi, vlo, vhi, hkeys, hvalues, h₁, h₂, hlb, hlt, hle⟩ := h.cut k
  have hk : (l.insertKey k v).keys = lo ++ k :: hi := by
    rw [LeafNode.insertKey, hlb, hkeys, insertIdx_length_append]
  have hv : (l.insertKey k v).values = vlo ++ v :: vhi := by
    rw [LeafNode.insertKey, hlb, hvalues, h₁, insertIdx_length_append]
  refine ⟨?_, ?_⟩
  · refine ⟨?_, ?_⟩
    · simp [hk, hv, h₁, h₂]
    · rw [hk]
      exact pairwise_insert (hkeys ▸ h.sorted) (fun x hx => le_of_lt (hlt x hx)) hle
  · refine ⟨lo.zip vlo, hi.zip vhi, ?_, ?_, lt_of_mem_zip hlt, le_of_mem_zip hle⟩
    · rw [pairs, hkeys, hvalues, List.zip_append h₁]
    · rw [pairs, hk, hv, List.zip_append h₁, List.zip_cons_cons]

theorem Ok.getElem?_lowerBound (h : l.Ok) : l.keys[lowerBound k l.keys]? = some k ↔ k ∈ l.keys := by
  refine ⟨?_, ?_⟩
  · exact List.mem_of_getElem?
  · intro hk
    obtain ⟨lo, hi, hkeys, hlo, hlt, hle⟩ := exists_cut h.sorted k
    have hhi : k ∈ hi := by
      rw [hkeys] at hk
      exact (List.mem_append.1 hk).resolve_left fun hx => lt_irrefl _ (hlt k hx)
    have hsorted : hi.Pairwise (· ≤ ·) := (List.pairwise_append.1 (hkeys ▸ h.sorted)).2.1
    rw [lowerBound, hlo, hkeys, List.getElem?_append_right le_rfl, Nat.sub_self,
      ← List.head?_eq_getElem?]
    exact head?_eq_some_of_mem hsorted hle hhi

theorem Ok.contains (h : l.Ok) : l.contains k = true ↔ k ∈ l.keys := by
  rw [LeafNode.contains, decide_eq_true_iff, h.getElem?_lowerBound]

theorem Ok.removeKey_of_notMem (h : l.Ok) (hk : k ∉ l.keys) : l.removeKey k = l := by
  rw [LeafNode.removeKey, if_neg fun he => hk (h.getElem?_lowerBound.1 he)]

/-- A leaf that holds `k`, cut in front of the pair that the operations on `k` reach. -/
theorem Ok.cut_of_mem (h : l.Ok) (hk : k ∈ l.keys) :
    ∃ lo hi vlo v vhi, l.keys = lo ++ k :: hi ∧ l.values = vlo ++ v :: vhi ∧
      lo.length = vlo.length ∧ hi.length = vhi.length ∧ lowerBound k l.keys = lo.length ∧
      (∀ x ∈ lo, x < k) ∧ ∀ x ∈ hi, k ≤ x := by
  obtain ⟨lo, hi, vlo, vhi, hkeys, hvalues, h₁, h₂, hlb, hlt, hle⟩ := h.cut k
  have hget := h.getElem?_lowerBound.2 hk
  rw [hlb, hkeys, List.getElem?_append_right le_rfl, Nat.sub_self, ← List.head?_eq_getElem?] at hget
  cases hi with
  | nil => simp at hget
  | cons x hi =>
    obtain rfl : x = k := by simpa using hget
    cases vhi with
    | nil => simp at h₂
    | cons v vhi =>
      exact ⟨lo, hi, vlo, v, vhi, hkeys, hvalues, h₁, Nat.succ_inj.1 h₂, hlb, hlt,
        fun y hy => hle y (by simp [hy])⟩

/-- `remove_key` takes out the first pair with the key. -/
theorem Ok.removeKey_of_mem (h : l.Ok) (hk : k ∈ l.keys) :
    (l.removeKey k).Ok ∧ ∃ lo v hi, l.pairs = lo ++ (k, v) :: hi ∧ (l.removeKey k).pairs = lo ++ hi ∧
      (∀ e ∈ lo, e.1 < k) ∧ ∀ e ∈ hi, k ≤ e.1 := by
  obtain ⟨lo, hi, vlo, v, vhi, hkeys, hvalues, h₁, h₂, hlb, hlt, hle⟩ := h.cut_of_mem hk
  have hremove : l.removeKey k = { l with keys := lo ++ hi, values := vlo ++ vhi } := by
    rw [LeafNode.removeKey, if_pos (h.getElem?_lowerBound.2 hk), hlb, hkeys, hvalues,
      eraseIdx_length_append, h₁, eraseIdx_length_append]
  rw [hremove]
  refine ⟨?_, ?_⟩
  · refine ⟨?_, ?_⟩
    · simp [h₁, h₂]
    · exact h.sorted.sublist (by rw [hkeys]; simp)
  · refine ⟨lo.zip vlo, v, hi.zip vhi, ?_, ?_, lt_of_mem_zip hlt, le_of_mem_zip hle⟩
    · rw [pairs, hkeys, hvalues, List.zip_append h₁, List.zip_cons_cons]
    · rw [pairs, List.zip_append h₁]

theorem Ok.halves (h : l.Ok) {s : K} {lo hi : List K} (hkeys : l.keys = lo ++ s :: hi) :
    (∀ e ∈ l.pairs.take lo.length, e.1 ∈ lo ∧ e.1 ≤ s) ∧
      (∀ e ∈ l.pairs.drop lo.length, s ≤ e.1) ∧ (l.pairs.drop lo.length).lookup s ≠ none := by
  have hsorted := h.sorted
  rw [hkeys] at hsorted
  obtain ⟨-, hupper, hle⟩ := List.pairwise_append.1 hsorted
  have htake : (l.pairs.take lo.length).map Prod.fst = lo := by
    rw [List.map_take, h.map_fst, hkeys, List.take_left]
  have hdrop : (l.pairs.drop lo.length).map Prod.fst = s :: hi := by
    rw [List.map_drop, h.map_fst, hkeys, List.drop_left]
  refine ⟨fun e he => ?_, fun e he => ?_, ?_⟩
  · have hmem : e.1 ∈ lo := htake ▸ List.mem_map_of_mem he
    exact ⟨hmem, hle _ hmem s (by simp)⟩
  · have hmem : e.1 ∈ s :: hi := hdrop ▸ List.mem_map_of_mem he
    rcases List.mem_cons.1 hmem with heq | hmem
    · exact le_of_eq heq.symm
    · exact (List.pairwise_cons.1 hupper).1 _ hmem
  · rw [lookup_ne_none_iff, hdrop]
    exact List.mem_cons_self

theorem removeKey_keys_sublist (k : K) (l : LeafNode K V) : (l.removeKey k).keys.Sublist l.keys := by
  simp only [removeKey]
  split
  · exact List.eraseIdx_sublist _ _
  · exact List.Sublist.refl _

theorem Ok.keys_eq_singleton (h : l.Ok) (hk : k ∈ l.keys) (hnil : (l.removeKey k).keys = []) :
    l.keys = [k] := by
  obtain ⟨hok, lo, v, hi, hpairs, hpairs', -⟩ := h.removeKey_of_mem hk
  rw [hok.pairs_eq_nil.2 hnil] at hpairs'
  obtain ⟨rfl, rfl⟩ := List.append_eq_nil_iff.1 hpairs'.symm
  rw [← h.map_fst, hpairs]
  rfl

theorem Ok.removeKey (h : l.Ok) (k : K) : (l.removeKey k).Ok := by
  by_cases hk : k ∈ l.keys
  · exact (h.removeKey_of_mem hk).1
  · rw [h.removeKey_of_notMem hk]
    exact h

theorem Ok.find (h : l.Ok) (k : K) : l.find k = l.pairs.lookup k := by
  by_cases hk : k ∈ l.keys
  · obtain ⟨lo, hi, vlo, v, vhi, hkeys, hvalues, h₁, -, hlb, hlt, -⟩ := h.cut_of_mem hk
    rw [LeafNode.find, if_pos (h.getElem?_lowerBound.2 hk), hlb, pairs, hkeys, hvalues,
      List.zip_append h₁, List.zip_cons_cons, lookup_insert_self (lt_of_mem_zip hlt), h₁]
    simp
  · rw [LeafNode.find, if_neg fun he => hk (h.getElem?_lowerBound.1 he), lookup_eq_none_of_ne]
    rintro e he rfl
    exact hk (h.mem_keys he)

end LeafNode

namespace BPlus

variable {H : Leaves K V} {p q : ℕ} {f : LeafNode K V → LeafNode K V}

theorem isFull_eq_true {degree : ℕ} {keys : List K} :
    isFull degree keys = true ↔ 2 * degree - 1 ≤ keys.length := by
  rw [isFull, decide_eq_true_iff]

theorem isFull_eq_false {degree : ℕ} {keys : List K} :
    isFull degree keys = false ↔ keys.length < 2 * degree - 1 := by
  rw [isFull, decide_eq_false_iff_not, not_le]

theorem leafAt_modify_self (h : p < H.length) : leafAt (H.modify p f) p = f (leafAt H p) := by
  simp [leafAt, List.getElem?_modify_eq, List.getElem?_eq_getElem h]

theorem leafAt_modify_of_ne (h : q ≠ p) : leafAt (H.modify p f) q = leafAt H q := by
  rw [leafAt, List.getElem?_modify_ne _ _ h.symm, leafAt]

theorem modify_eq_self (h : f (leafAt H p) = leafAt H p) : H.modify p f = H := by
  refine List.ext_getElem? fun i => ?_
  by_cases hip : i = p
  · subst hip
    rw [List.getElem?_modify_eq]
    rw [leafAt] at h
    cases hi : H[i]? with
    | none => rfl
    | some l =>
      rw [hi] at h
      exact congrArg some h
  · rw [List.getElem?_modify_ne _ _ (Ne.symm hip)]

theorem leafAt_append_length {l : LeafNode K V} : leafAt (H ++ [l]) H.length = l := by
  simp [leafAt]

theorem leafAt_append_of_lt {l : LeafNode K V} (h : q < H.length) : leafAt (H ++ [l]) q = leafAt H q := by
  rw [leafAt, List.getElem?_append_left h, leafAt]

@[simp] theorem length_splitLeaf : (splitLeaf p H).length = H.length + 1 := by
  simp [splitLeaf]

theorem leafAt_splitLeaf_self (h : p < H.length) :
    leafAt (splitLeaf p H) p =
      ⟨(leafAt H p).keys.take ((leafAt H p).keys.length / 2),
        (leafAt H p).values.take ((leafAt H p).keys.length / 2), some H.length⟩ := by
  have hp : p < (H.set p ⟨(leafAt H p).keys.take ((leafAt H p).keys.length / 2),
      (leafAt H p).values.take ((leafAt H p).keys.length / 2), some H.length⟩).length := by
    simpa using h
  rw [splitLeaf, leafAt_append_of_lt hp, leafAt, List.getElem?_set_self h]
  rfl

theorem leafAt_splitLeaf_new :
    leafAt (splitLeaf p H) H.length =
      ⟨(leafAt H p).keys.drop ((leafAt H p).keys.length / 2),
        (leafAt H p).values.drop ((leafAt H p).keys.length / 2), (leafAt H p).next⟩ := by
  simp [splitLeaf, leafAt]

theorem leafAt_splitLeaf_of_ne (hq : q ≠ H.length) (h : q ≠ p) :
    leafAt (splitLeaf p H) q = leafAt H q := by
  rcases Nat.lt_or_gt_of_ne hq with hq | hq
  · rw [splitLeaf, leafAt_append_of_lt (by simpa using hq), leafAt, List.getElem?_set_ne h.symm, leafAt]
  · rw [leafAt, leafAt, List.getElem?_eq_none (by simpa [Nat.succ_le_iff] using hq),
      List.getElem?_eq_none (le_of_lt hq)]

end BPlus

end LearnSpdk
