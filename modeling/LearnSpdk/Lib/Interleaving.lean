import Mathlib.Data.List.Nodup
import Mathlib.Data.List.Perm.Basic
import Mathlib.Data.List.Perm.Lattice

/-! A list that several parties wrote: each member was added by one of them, and what one of
them added stands in it in order. -/

namespace Lib

variable {ι β : Type*} [DecidableEq ι] {l : List β} {f : ι → List β} {i j : ι} {b : β}

/-- What party `i` added to a list of tagged members. -/
def shareOf (tagged : List (ι × β)) (i : ι) : List β := (tagged.filter fun t => t.1 = i).map Prod.snd

/-- The list `l` is made of the lists `f i`, in some order that keeps each of theirs. -/
def Interleaves (l : List β) (f : ι → List β) : Prop :=
  ∃ tagged : List (ι × β), tagged.map Prod.snd = l ∧ ∀ i, shareOf tagged i = f i

theorem Interleaves.nil : Interleaves ([] : List β) (fun _ : ι => []) := ⟨[], rfl, fun _ => rfl⟩

/-- One of the parties adds something. -/
theorem Interleaves.append (h : Interleaves l f) (i : ι) (m : List β) {g : ι → List β} (hi : g i = f i ++ m)
    (hg : ∀ j, j ≠ i → g j = f j) : Interleaves (l ++ m) g := by
  obtain ⟨tagged, hl, hf⟩ := h
  refine ⟨tagged ++ m.map fun b => (i, b), ?_, ?_⟩
  · rw [List.map_append, hl, List.map_map]
    exact congrArg (l ++ ·) (List.map_id m)
  · intro j
    have hshare := hf j
    rw [shareOf] at hshare ⊢
    rw [List.filter_append, List.map_append, hshare]
    by_cases hj : j = i
    · subst hj
      rw [hi]
      simp [List.filter_map, Function.comp_def]
    · rw [hg j hj]
      simp [List.filter_map, Function.comp_def, Ne.symm hj]

theorem Interleaves.sublist (h : Interleaves l f) (i : ι) : (f i).Sublist l := by
  obtain ⟨tagged, rfl, hf⟩ := h
  rw [← hf i]
  exact List.filter_sublist.map _

theorem Interleaves.exists_of_mem (h : Interleaves l f) (hb : b ∈ l) : ∃ i, b ∈ f i := by
  obtain ⟨tagged, rfl, hf⟩ := h
  obtain ⟨t, ht, rfl⟩ := List.mem_map.1 hb
  refine ⟨t.1, ?_⟩
  rw [← hf t.1]
  exact List.mem_map.2 ⟨t, List.mem_filter.2 ⟨ht, by simp⟩, rfl⟩

/-- Where no member occurs twice, no two parties added the same. -/
theorem Interleaves.eq_of_mem (h : Interleaves l f) (hl : l.Nodup) (hi : b ∈ f i) (hj : b ∈ f j) : i = j := by
  obtain ⟨tagged, rfl, hf⟩ := h
  rw [← hf i] at hi
  rw [← hf j] at hj
  obtain ⟨t, ht, rfl⟩ := List.mem_map.1 hi
  obtain ⟨u, hu, hsnd⟩ := List.mem_map.1 hj
  rw [List.mem_filter] at ht hu
  have heq : u = t := List.inj_on_of_nodup_map hl hu.1 ht.1 hsnd
  subst heq
  exact (of_decide_eq_true ht.2).symm.trans (of_decide_eq_true hu.2)

/-- Where only one party added anything. -/
theorem Interleaves.eq_of_alone (h : Interleaves l f) (hall : ∀ j, j ≠ i → f j = []) : l = f i := by
  obtain ⟨tagged, rfl, hf⟩ := h
  have htag : ∀ t ∈ tagged, t.1 = i := by
    intro t ht
    by_contra hne
    have hmem : t.2 ∈ shareOf tagged t.1 := List.mem_map.2 ⟨t, List.mem_filter.2 ⟨ht, by simp⟩, rfl⟩
    rw [hf, hall _ hne] at hmem
    cases hmem
  rw [← hf i, shareOf, List.filter_eq_self.2 fun t ht => decide_eq_true (htag t ht)]

/-- Two lists of members of a list without repetitions, in its order: what they share stands
in the same order in both. -/
theorem filter_sublist_of_sublist [DecidableEq β] {k m : List β} (hl : l.Nodup) (hk : k.Sublist l)
    (hm : m.Sublist l) : (k.filter (· ∈ m)).Sublist m := by
  have hfilter : l.filter (· ∈ m) = m := by
    have hperm : (l.filter (· ∈ m)).Perm m := by
      rw [List.perm_ext_iff_of_nodup (hl.filter _) (hl.sublist hm)]
      intro b
      rw [List.mem_filter, decide_eq_true_iff]
      exact ⟨fun h => h.2, fun h => ⟨hm.subset h, h⟩⟩
    have hsub : m.Sublist (l.filter (· ∈ m)) := by
      have hself := hm.filter (· ∈ m)
      rwa [List.filter_eq_self.2 fun b hb => decide_eq_true hb] at hself
    exact (hsub.eq_of_length hperm.length_eq.symm).symm
  have hsub := hk.filter (· ∈ m)
  rwa [hfilter] at hsub

theorem map_snd_perm {parties : List ι} (hnodup : parties.Nodup) (tagged : List (ι × β))
    (hall : ∀ t ∈ tagged, t.1 ∈ parties) : (tagged.map Prod.snd).Perm (parties.flatMap (shareOf tagged)) := by
  induction parties generalizing tagged with
  | nil =>
    obtain rfl : tagged = [] := List.eq_nil_iff_forall_not_mem.2 fun t ht => by simpa using hall t ht
    exact List.Perm.refl _
  | cons i parties ih =>
    obtain ⟨hi, hnodup⟩ := List.nodup_cons.1 hnodup
    -- the others add what they add to the list without the members of `i`
    have hrest : ∀ t ∈ tagged.filter (fun t => !decide (t.1 = i)), t.1 ∈ parties := by
      intro t ht
      obtain ⟨hmem, hne⟩ := List.mem_filter.1 ht
      rcases List.mem_cons.1 (hall t hmem) with heq | hmem
      · simp [heq] at hne
      · exact hmem
    have hshare : parties.flatMap (shareOf (tagged.filter fun t => !decide (t.1 = i))) =
        parties.flatMap (shareOf tagged) := by
      refine List.flatMap_congr fun j hj => ?_
      have hne : j ≠ i := fun h => hi (h ▸ hj)
      rw [shareOf, shareOf, List.filter_filter]
      congr 1
      refine List.filter_congr fun t _ => ?_
      by_cases ht : t.1 = j
      · simp [ht, hne]
      · simp [ht]
    have hsplit := (List.filter_append_perm (fun t => decide (t.1 = i)) tagged).map Prod.snd
    rw [List.map_append] at hsplit
    rw [List.flatMap_cons]
    refine hsplit.symm.trans (List.Perm.append_left _ ?_)
    rw [← hshare]
    exact ih hnodup _ hrest

/-- The list is what the parties added, one after the other, in another order. -/
theorem Interleaves.perm (h : Interleaves l f) {parties : List ι} (hnodup : parties.Nodup)
    (hall : ∀ i, f i ≠ [] → i ∈ parties) : l.Perm (parties.flatMap f) := by
  obtain ⟨tagged, rfl, hf⟩ := h
  have hperm := map_snd_perm hnodup tagged fun t ht => hall t.1 fun hnil => by
    have hmem : t.2 ∈ shareOf tagged t.1 := List.mem_map.2 ⟨t, List.mem_filter.2 ⟨ht, by simp⟩, rfl⟩
    rw [hf, hnil] at hmem
    cases hmem
  rwa [List.flatMap_congr fun i _ => hf i] at hperm

end Lib
