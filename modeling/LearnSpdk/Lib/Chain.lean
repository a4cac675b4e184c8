import Mathlib.Data.List.Basic
import Mathlib.Data.List.Nodup

/-! Singly linked chains: `next` maps a cell to the one after it. -/

namespace Lib

variable {α : Type*} {next next' : α → Option α}

/-- In a list without repetitions, opened at `p`. -/
theorem ne_of_nodup_append {ps qs : List α} {p : α} (h : (ps ++ p :: qs).Nodup) :
    (∀ q ∈ ps, q ≠ p) ∧ ∀ q ∈ qs, q ≠ p := by
  obtain ⟨-, hqs, hdisj⟩ := List.nodup_append.1 h
  refine ⟨fun q hq => hdisj q hq p (by simp), ?_⟩
  rintro q hq rfl
  exact (List.nodup_cons.1 hqs).1 hq

/-- A sublist and the list, opened at the same element. -/
theorem sublist_of_nodup_append {ps₁ ps₂ qs₁ qs₂ : List α} {p : α} (hn : (qs₁ ++ p :: qs₂).Nodup)
    (h : (ps₁ ++ p :: ps₂).Sublist (qs₁ ++ p :: qs₂)) : ps₁.Sublist qs₁ ∧ ps₂.Sublist qs₂ := by
  induction qs₁ generalizing ps₁ with
  | nil =>
    have hp : p ∉ qs₂ := (List.nodup_cons.1 hn).1
    cases ps₁ with
    | nil => exact ⟨List.nil_sublist _, List.cons_sublist_cons.1 h⟩
    | cons a ps₁ =>
      cases h with
      | cons _ h => exact absurd (h.subset (by simp)) hp
      | cons_cons _ h => exact absurd (h.subset (by simp)) hp
  | cons q qs₁ ih =>
    obtain ⟨hq, hn⟩ := List.nodup_cons.1 hn
    cases ps₁ with
    | nil =>
      cases h with
      | cons _ h =>
        have hrest : ([] ++ p :: ps₂).Sublist (qs₁ ++ p :: qs₂) := h
        exact ⟨List.nil_sublist _, (ih hn hrest).2⟩
      | cons_cons _ h => simp at hq
    | cons a ps₁ =>
      cases h with
      | cons _ h => exact ⟨(ih hn h).1.cons _, (ih hn h).2⟩
      | cons_cons _ h => exact ⟨(ih hn h).1.cons_cons _, (ih hn h).2⟩

/-- Following `next` from `o` visits `ps` and ends there. -/
def Visits (next : α → Option α) : Option α → List α → Prop
  | o, [] => o = none
  | o, p :: ps => o = some p ∧ Visits next (next p) ps

theorem Visits.congr {o : Option α} {ps : List α} (h : Visits next o ps)
    (hn : ∀ p ∈ ps, next' p = next p) : Visits next' o ps := by
  induction ps generalizing o with
  | nil => exact h
  | cons p ps ih =>
    refine ⟨h.1, ?_⟩
    rw [hn p (by simp)]
    exact ih h.2 fun q hq => hn q (by simp [hq])

/-- A chain can be entered at any of its cells. -/
theorem Visits.suffix {o : Option α} {ps qs : List α} {q : α} (h : Visits next o (ps ++ q :: qs)) :
    Visits next (some q) (q :: qs) := by
  induction ps generalizing o with
  | nil => exact ⟨rfl, h.2⟩
  | cons p ps ih => exact ih h.2

/-- A new cell `q` is linked in after `p`. -/
theorem Visits.insert {o : Option α} {ps qs : List α} {p q : α} (h : Visits next o (ps ++ p :: qs))
    (hnodup : (ps ++ p :: qs).Nodup) (hq : q ∉ ps ++ p :: qs) (hp : next' p = some q)
    (hq' : next' q = next p) (hn : ∀ r, r ≠ p → r ≠ q → next' r = next r) :
    Visits next' o (ps ++ p :: q :: qs) := by
  induction ps generalizing o with
  | nil =>
    refine ⟨h.1, hp, ?_⟩
    rw [hq']
    refine h.2.congr fun r hr => hn r ((ne_of_nodup_append hnodup).2 r hr) ?_
    rintro rfl
    exact hq (by simp [hr])
  | cons r ps ih =>
    have hr : r ∉ ps ++ p :: qs := (List.nodup_cons.1 hnodup).1
    refine ⟨h.1, ?_⟩
    rw [hn r (fun e => hr (by simp [e])) (fun e => hq (by simp [e]))]
    exact ih h.2 (List.nodup_cons.1 hnodup).2 fun e => hq (List.mem_cons_of_mem _ e)

/-- Following `link` from `a` visits `l`; where it leads from there is left open. -/
def Leads (link : α → α) : α → List α → Prop
  | _, [] => True
  | a, b :: l => a = b ∧ Leads link (link b) l

theorem Leads.congr {link link' : α → α} {a : α} {l : List α} (h : Leads link a l)
    (hlink : ∀ b ∈ l, link' b = link b) : Leads link' a l := by
  induction l generalizing a with
  | nil => trivial
  | cons b l ih =>
    refine ⟨h.1, ?_⟩
    rw [hlink b (by simp)]
    exact ih h.2 fun c hc => hlink c (by simp [hc])

end Lib
