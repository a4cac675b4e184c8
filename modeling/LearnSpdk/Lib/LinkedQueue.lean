import Mathlib.Data.List.Chain
import Mathlib.Data.List.Nodup
import Mathlib.Logic.Function.Basic

/-! A list of nodes held together by their `next` links, with the positions of the nodes
in it. The only write to the links that keeps it in order is one behind the last node. -/

namespace Lib

variable {ν : Type*} [DecidableEq ν] {next : ν → Option ν} {l : List ν} {m n t : ν}

/-- The links lead through the list, and end with it. -/
structure Threaded (next : ν → Option ν) (l : List ν) : Prop where
  nodup : l.Nodup
  next_eq : ∀ n ∈ l, next n = l[l.idxOf n + 1]?

theorem Threaded.singleton (h : next n = none) : Threaded next [n] where
  nodup := List.nodup_singleton n
  next_eq := by simp [h]

/-- The last node is the one without a link. -/
theorem Threaded.next_eq_none (h : Threaded next l) (hn : n ∈ l) :
    next n = none ↔ l.idxOf n + 1 = l.length := by
  have hlt := List.idxOf_lt_length_of_mem hn
  rw [h.next_eq n hn, List.getElem?_eq_none_iff]
  omega

theorem Threaded.of_next (h : Threaded next l) (hn : n ∈ l) (hm : next n = some m) :
    m ∈ l ∧ l.idxOf m = l.idxOf n + 1 := by
  rw [h.next_eq n hn] at hm
  obtain ⟨hlt, rfl⟩ := List.getElem?_eq_some_iff.1 hm
  exact ⟨List.getElem_mem hlt, h.nodup.idxOf_getElem _ hlt⟩

theorem idxOf_inj (hm : m ∈ l) (h : l.idxOf m = l.idxOf n) : m = n := by
  have hlt := List.idxOf_lt_length_of_mem hm
  have hlt' := hlt
  rw [h] at hlt'
  rw [← List.getElem_idxOf hlt, ← List.getElem_idxOf hlt']
  simp only [h]

/-- The list that the links spell from `n` on: it starts at `n`, every node links to the one
behind it, no node comes twice, and the last one has no link. -/
structure Spelled (next : ν → Option ν) (n : ν) (l : List ν) : Prop where
  head : l.head? = some n
  links : l.IsChain fun m k => next m = some k
  nodup : l.Nodup
  last : ∀ k, l.getLast? = some k → next k = none

/-- The part of the list from one of its nodes on is spelled by the links from there. -/
theorem Threaded.spelled (h : Threaded next l) (hn : n ∈ l) : Spelled next n (l.drop (l.idxOf n)) where
  head := by
    rw [List.head?_drop, List.getElem?_eq_getElem (List.idxOf_lt_length_of_mem hn), List.getElem_idxOf]
  links := by
    refine (List.isChain_iff_getElem.2 fun i hi => ?_).drop _
    rw [h.next_eq _ (List.getElem_mem _), h.nodup.idxOf_getElem, List.getElem?_eq_getElem hi]
  nodup := h.nodup.sublist (List.drop_sublist _ _)
  last := by
    intro k hk
    rw [List.getLast?_drop] at hk
    split_ifs at hk
    rw [List.getLast?_eq_getElem?] at hk
    obtain ⟨hlt, rfl⟩ := List.getElem?_eq_some_iff.1 hk
    rw [h.next_eq_none (List.getElem_mem hlt), h.nodup.idxOf_getElem]
    omega

theorem mem_drop_idxOf (hm : m ∈ l) (hle : l.idxOf n ≤ l.idxOf m) : m ∈ l.drop (l.idxOf n) := by
  have hlt := List.idxOf_lt_length_of_mem hm
  rw [List.mem_iff_getElem]
  refine ⟨l.idxOf m - l.idxOf n, by rw [List.length_drop]; omega, ?_⟩
  rw [List.getElem_drop]
  simp only [Nat.add_sub_cancel' hle, List.getElem_idxOf]

/-- A new node is linked behind the last one. -/
theorem Threaded.append (h : Threaded next l) (ht : t ∈ l) (hlast : next t = none) (hm : m ∉ l)
    (hnone : next m = none) : Threaded (Function.update next t (some m)) (l ++ [m]) where
  nodup := by
    rw [List.nodup_append]
    refine ⟨h.nodup, List.nodup_singleton m, fun a ha b hb => ?_⟩
    rw [List.mem_singleton] at hb
    rintro rfl
    exact hm (hb ▸ ha)
  next_eq := by
    intro n hn
    have hlen := (h.next_eq_none ht).1 hlast
    by_cases hnt : n = t
    · subst hnt
      rw [Function.update_self, List.idxOf_append_of_mem ht, hlen]
      simp
    rw [Function.update_of_ne hnt]
    rcases List.mem_append.1 hn with hn | hn
    · have hne : l.idxOf n + 1 ≠ l.length := by
        intro heq
        exact hnt (idxOf_inj hn (Nat.succ_inj.1 (heq.trans hlen.symm)))
      have hlt := List.idxOf_lt_length_of_mem hn
      rw [h.next_eq n hn, List.idxOf_append_of_mem hn, List.getElem?_append_left (by omega)]
    · obtain rfl := List.mem_singleton.1 hn
      rw [hnone, List.idxOf_append_of_notMem hm]
      simp

end Lib
