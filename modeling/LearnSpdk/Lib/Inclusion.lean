import Mathlib.Data.List.Basic
import Mathlib.Data.List.Count

/-! A list kept beside a longer one: the first is a part of the second, which has at most `k`
members more. -/

namespace Lib

variable {α : Type*} {S L : List α} {k : ℕ}

structure PartOf (k : ℕ) (S L : List α) : Prop where
  sublist : S.Sublist L
  length_le : L.length ≤ S.length + k

theorem PartOf.nil : PartOf k ([] : List α) [] := ⟨List.Sublist.refl _, by simp⟩

/-- The longer list loses at least what the shorter one loses. -/
theorem PartOf.filter (h : PartOf k S L) (p : α → Bool) : PartOf k (S.filter p) (L.filter p) := by
  refine ⟨h.sublist.filter p, ?_⟩
  have hS := List.length_eq_countP_add_countP (l := S) p
  have hL := List.length_eq_countP_add_countP (l := L) p
  have hle := h.sublist.countP_le (p := fun a => decide ¬p a = true)
  have hk := h.length_le
  rw [← List.countP_eq_length_filter, ← List.countP_eq_length_filter]
  omega

theorem PartOf.cons (h : PartOf k S L) (a : α) : PartOf k (a :: S) (a :: L) := by
  refine ⟨h.sublist.cons_cons a, ?_⟩
  have hk := h.length_le
  rw [List.length_cons, List.length_cons]
  omega

theorem dropLast_sublist_dropLast (h : S.Sublist L) : S.dropLast.Sublist L.dropLast := by
  rcases List.eq_nil_or_concat L with rfl | ⟨L, a, rfl⟩
  · rw [List.sublist_nil.1 h]
  rw [List.concat_eq_append] at h
  obtain ⟨S, T, rfl, hS, hT⟩ := List.sublist_append_iff.1 h
  rw [List.concat_eq_append, List.dropLast_concat]
  rcases List.sublist_singleton.1 hT with rfl | rfl
  · rw [List.append_nil]
    exact (List.dropLast_sublist S).trans hS
  · rwa [List.dropLast_concat]

end Lib
