import Mathlib.Data.Finset.Card
import Mathlib.Data.Finset.Dedup
import Mathlib.Data.List.Nodup

/-! Keys in the order of their last use. A history lists the uses, the latest first; a list of
keys is in order of recency if each was used since the last use of those behind it. -/

namespace Lib

variable {κ : Type*} {H B B' : List κ} {L : List κ} {k x y : κ}

/-- `B` are the uses since the last use of `x`. -/
def Since (H : List κ) (x : κ) (B : List κ) : Prop := ∃ A, H = B ++ x :: A ∧ x ∉ B

theorem since_self (k : κ) (H : List κ) : Since (k :: H) k [] := ⟨H, rfl, List.not_mem_nil⟩

theorem Since.mem (h : Since H x B) : x ∈ H := by
  obtain ⟨A, rfl, -⟩ := h
  simp

theorem Since.cons (h : Since H x B) (hne : x ≠ k) : Since (k :: H) x (k :: B) := by
  obtain ⟨A, rfl, hx⟩ := h
  refine ⟨A, rfl, ?_⟩
  rw [List.mem_cons, not_or]
  exact ⟨hne, hx⟩

/-- Another use adds to the uses since the last use of `x`. -/
theorem Since.of_cons (h : Since (k :: H) x B) (hne : x ≠ k) : ∃ B', B = k :: B' ∧ Since H x B' := by
  obtain ⟨A, heq, hx⟩ := h
  cases B with
  | nil => exact absurd (List.cons.inj heq).1.symm hne
  | cons b B =>
    obtain ⟨rfl, rfl⟩ := List.cons.inj heq
    exact ⟨B, rfl, A, rfl, fun hmem => hx (List.mem_cons_of_mem _ hmem)⟩

theorem Since.unique (h : Since H x B) (h' : Since H x B') : B = B' := by
  induction H generalizing B B' with
  | nil => exact absurd h.mem List.not_mem_nil
  | cons k H ih =>
    by_cases hne : x = k
    · subst hne
      have hnil {C : List κ} (hC : Since (x :: H) x C) : C = [] := by
        obtain ⟨A, heq, hx⟩ := hC
        cases C with
        | nil => rfl
        | cons c C => exact absurd ((List.cons.inj heq).1 ▸ List.mem_cons_self) hx
      rw [hnil h, hnil h']
    · obtain ⟨C, rfl, hC⟩ := h.of_cons hne
      obtain ⟨C', rfl, hC'⟩ := h'.of_cons hne
      rw [ih hC hC']

theorem exists_since (h : x ∈ H) : ∃ B, Since H x B := by
  induction H with
  | nil => cases h
  | cons k H ih =>
    by_cases hne : x = k
    · exact ⟨[], hne ▸ since_self k H⟩
    · obtain ⟨B, hB⟩ := ih ((List.mem_cons.1 h).resolve_left hne)
      exact ⟨k :: B, hB.cons hne⟩

/-- `y` was used since the last use of `x`. -/
def Later (H : List κ) (y x : κ) : Prop := ∃ B, Since H x B ∧ y ∈ B

/-- The keys of `L` in the order of their last use, the latest first. -/
structure Recent (H L : List κ) : Prop where
  used : ∀ x ∈ L, x ∈ H
  later : L.Pairwise (Later H)

theorem recent_nil (H : List κ) : Recent H [] := ⟨by simp, List.Pairwise.nil⟩

theorem Recent.sublist {L' : List κ} (h : Recent H L) (hsub : L'.Sublist L) : Recent H L' :=
  ⟨fun x hx => h.used x (hsub.subset hx), h.later.sublist hsub⟩

theorem Recent.nodup (h : Recent H L) : L.Nodup := by
  refine h.later.imp ?_
  rintro y x ⟨B, ⟨A, -, hx⟩, hy⟩ rfl
  exact hx hy

/-- A use brings its key to the front. -/
theorem Recent.use (h : Recent H L) (hk : k ∉ L) : Recent (k :: H) (k :: L) := by
  have hne {x : κ} (hx : x ∈ L) : x ≠ k := fun heq => hk (heq ▸ hx)
  refine ⟨?_, List.pairwise_cons.2 ⟨?_, ?_⟩⟩
  · intro x hx
    rcases List.mem_cons.1 hx with rfl | hx
    · exact List.mem_cons_self
    · exact List.mem_cons_of_mem _ (h.used x hx)
  · intro x hx
    obtain ⟨B, hB⟩ := exists_since (h.used x hx)
    exact ⟨k :: B, hB.cons (hne hx), List.mem_cons_self⟩
  · refine h.later.imp_of_mem ?_
    rintro y x - hx ⟨B, hB, hy⟩
    exact ⟨k :: B, hB.cons (hne hx), List.mem_cons_of_mem _ hy⟩

/-- Since the last use of the last key, all the others were used. -/
theorem Recent.last (h : Recent H (L ++ [x])) (hB : Since H x B) : ∀ y ∈ L, y ∈ B := by
  intro y hy
  obtain ⟨B', hB', hy'⟩ := (List.pairwise_append.1 h.later).2.2 y hy x (List.mem_singleton_self x)
  rwa [hB.unique hB']

/-- A new key and all but the last of the old ones: so many were used since the last. -/
theorem Recent.length_le_card [DecidableEq κ] (h : Recent H (L ++ [x])) (hB : Since H x B)
    (hk : k ∉ L ++ [x]) : (L ++ [x]).length ≤ (k :: B).toFinset.card := by
  have hnodup : (k :: L).Nodup := by
    rw [List.nodup_cons]
    exact ⟨fun hmem => hk (List.mem_append_left _ hmem), (List.nodup_append.1 h.nodup).1⟩
  have hsub : (k :: L).toFinset ⊆ (k :: B).toFinset := by
    intro y hy
    rw [List.mem_toFinset, List.mem_cons] at hy ⊢
    exact hy.imp id (h.last hB y)
  have hcard := Finset.card_le_card hsub
  rw [List.toFinset_card_of_nodup hnodup] at hcard
  simpa using hcard

end Lib
