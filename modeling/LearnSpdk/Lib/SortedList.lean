import Mathlib.Data.List.InsertIdx
import Mathlib.Order.Lattice

/-! Sorted lists, with repetitions, and association lists sorted by key: cutting one
at a key, and putting an element in where it is cut. -/

namespace Lib

variable {α κ ν : Type*}

/-- Insertion where the first of two appended lists ends. -/
theorem insertIdx_length_append (lo hi : List α) (a : α) :
    (lo ++ hi).insertIdx lo.length a = lo ++ a :: hi := by
  induction lo with
  | nil => rfl
  | cons b lo ih => simp [ih]

theorem eraseIdx_length_append (lo hi : List α) (a : α) :
    (lo ++ a :: hi).eraseIdx lo.length = lo ++ hi := by
  induction lo with
  | nil => rfl
  | cons b lo ih => simp [ih]

/-- The second of two lists of one length is cut where the first is. -/
theorem exists_append_of_length {l : List α} {lo hi : List κ} (h : (lo ++ hi).length = l.length) :
    ∃ l₁ l₂, l = l₁ ++ l₂ ∧ lo.length = l₁.length ∧ hi.length = l₂.length := by
  refine ⟨l.take lo.length, l.drop lo.length, (List.take_append_drop _ _).symm, ?_, ?_⟩
  · simp only [List.length_append] at h
    simp only [List.length_take]
    omega
  · simp only [List.length_append] at h
    simp only [List.length_drop]
    omega

variable [LinearOrder κ]

/-- An element between two parts of a sorted list. -/
theorem pairwise_insert {lo hi : List κ} {k : κ} (h : (lo ++ hi).Pairwise (· ≤ ·))
    (hlo : ∀ x ∈ lo, x ≤ k) (hhi : ∀ x ∈ hi, k ≤ x) : (lo ++ k :: hi).Pairwise (· ≤ ·) := by
  rw [List.pairwise_append] at h ⊢
  refine ⟨h.1, List.pairwise_cons.2 ⟨hhi, h.2.1⟩, ?_⟩
  intro x hx y hy
  rcases List.mem_cons.1 hy with rfl | hy
  · exact hlo x hx
  · exact h.2.2 x hx y hy

/-- A sorted list is cut at `k` by the elements below `k` at its front. -/
theorem exists_cut {l : List κ} (h : l.Pairwise (· ≤ ·)) (k : κ) :
    ∃ lo hi, l = lo ++ hi ∧ l.takeWhile (· < k) = lo ∧ (∀ x ∈ lo, x < k) ∧ ∀ x ∈ hi, k ≤ x := by
  induction l with
  | nil => exact ⟨[], [], by simp⟩
  | cons a l ih =>
    obtain ⟨ha, hl⟩ := List.pairwise_cons.1 h
    by_cases hk : a < k
    · obtain ⟨lo, hi, rfl, hlo, hlt, hle⟩ := ih hl
      refine ⟨a :: lo, hi, rfl, ?_, ?_, hle⟩
      · rw [List.takeWhile_cons_of_pos (by simpa using hk), hlo]
      · simpa using ⟨hk, hlt⟩
    · refine ⟨[], a :: l, rfl, ?_, by simp, ?_⟩
      · rw [List.takeWhile_cons_of_neg (by simpa using hk)]
      · intro x hx
        rcases List.mem_cons.1 hx with rfl | hx
        · exact not_lt.1 hk
        · exact le_trans (not_lt.1 hk) (ha x hx)

/-- In a list cut at `k`, an element `k` is the first one of the upper part. -/
theorem head?_eq_some_of_mem {hi : List κ} {k : κ} (h : hi.Pairwise (· ≤ ·)) (hle : ∀ x ∈ hi, k ≤ x)
    (hk : k ∈ hi) : hi.head? = some k := by
  cases hi with
  | nil => simp at hk
  | cons a hi =>
    refine congrArg some (le_antisymm ?_ (hle a (by simp)))
    rcases List.mem_cons.1 hk with rfl | hk
    · exact le_rfl
    · exact (List.pairwise_cons.1 h).1 k hk

theorem lookup_eq_none_of_ne {l : List (κ × ν)} {k : κ} (h : ∀ e ∈ l, e.1 ≠ k) :
    l.lookup k = none := by
  rw [List.lookup_eq_none_iff]
  intro e he
  simpa using (h e he).symm

theorem lookup_ne_none_iff {l : List (κ × ν)} {k : κ} :
    l.lookup k ≠ none ↔ k ∈ l.map Prod.fst := by
  refine ⟨?_, ?_⟩
  · intro h
    by_contra hk
    exact h (lookup_eq_none_of_ne fun e he hek => hk (List.mem_map.2 ⟨e, he, hek⟩))
  · intro h hnone
    obtain ⟨e, he, rfl⟩ := List.mem_map.1 h
    simpa using List.lookup_eq_none_iff.1 hnone e he

section Lookup
variable {lo hi : List (κ × ν)} {k x : κ} {v : ν}

theorem lookup_append_of_ne (h : ∀ e ∈ lo, e.1 ≠ k) : (lo ++ hi).lookup k = hi.lookup k := by
  rw [List.lookup_append, lookup_eq_none_of_ne h, Option.none_or]

theorem lookup_append_of_ne_right (h : ∀ e ∈ hi, e.1 ≠ k) : (lo ++ hi).lookup k = lo.lookup k := by
  rw [List.lookup_append, lookup_eq_none_of_ne h, Option.or_none]

theorem lookup_insert_self (h : ∀ e ∈ lo, e.1 < k) : (lo ++ (k, v) :: hi).lookup k = some v := by
  rw [lookup_append_of_ne fun e he => ne_of_lt (h e he), List.lookup_cons_self]

theorem lookup_insert_of_ne (h : x ≠ k) : (lo ++ (k, v) :: hi).lookup x = (lo ++ hi).lookup x := by
  have hk : (x == k) = false := by simpa using h
  simp only [List.lookup_append, List.lookup_cons, hk]

end Lookup

end Lib
