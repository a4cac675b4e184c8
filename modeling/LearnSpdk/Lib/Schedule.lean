import Mathlib.Data.List.Induction
import Mathlib.Data.List.Infix

/-! Runs of a system whose steps are chosen one after the other by a scheduler, and what
happened lately in a run: at a moment since which a process was busy, or, in a log, since
which some other event did not occur. -/

namespace Lib

variable {σ α : Type*} {step : α → σ → σ} {init : σ} {acts : List α} {a : α} {busy P : σ → Prop}

/-- The state after the steps `acts`. -/
def sched (step : α → σ → σ) (init : σ) (acts : List α) : σ := acts.foldl (fun s a => step a s) init

@[simp] theorem sched_snoc : sched step init (acts ++ [a]) = step a (sched step init acts) := by
  simp [sched]

/-- A property of the first state that every step keeps. -/
theorem sched_induct {I : σ → Prop} (hinit : I init) (hstep : ∀ s a, I s → I (step a s))
    (acts : List α) : I (sched step init acts) := by
  induction acts using List.reverseRecOn with
  | nil => exact hinit
  | append_singleton acts a ih =>
    rw [sched_snoc]
    exact hstep _ a ih

/-- `P` held at some moment of the run since which `busy` holds. -/
def Lately (step : α → σ → σ) (init : σ) (busy P : σ → Prop) (acts : List α) : Prop :=
  ∃ k ≤ acts.length, P (sched step init (acts.take k)) ∧
    ∀ j, k ≤ j → j ≤ acts.length → busy (sched step init (acts.take j))

theorem Lately.now (hbusy : busy (sched step init acts)) (hP : P (sched step init acts)) :
    Lately step init busy P acts := by
  refine ⟨acts.length, le_refl _, ?_, ?_⟩
  · rwa [List.take_length]
  · intro j hj hj'
    rwa [le_antisymm hj' hj, List.take_length]

theorem Lately.snoc (h : Lately step init busy P acts) (hbusy : busy (sched step init (acts ++ [a]))) :
    Lately step init busy P (acts ++ [a]) := by
  obtain ⟨k, hk, hP, hsince⟩ := h
  refine ⟨k, ?_, ?_, ?_⟩
  · rw [List.length_append]
    exact Nat.le_add_right_of_le hk
  · rwa [List.take_append_of_le_length hk]
  · intro j hj hj'
    rw [List.length_append, List.length_singleton] at hj'
    rcases Nat.lt_or_eq_of_le hj' with hlt | rfl
    · rw [List.take_append_of_le_length (Nat.le_of_lt_succ hlt)]
      exact hsince j hj (Nat.le_of_lt_succ hlt)
    · rwa [List.take_of_length_le (by simp)]

section Log
variable {ε : Type*} {a b e : ε} {log : List ε}

/-- `a` is in the log, and `b` is not after it. -/
def Outstanding (a b : ε) (log : List ε) : Prop := ∃ l₁ l₂, log = l₁ ++ a :: l₂ ∧ b ∉ l₂

@[simp] theorem not_outstanding_nil : ¬Outstanding a b [] := by
  rintro ⟨l₁, l₂, h, -⟩
  simp at h

theorem outstanding_snoc : Outstanding a b (log ++ [e]) ↔ e = a ∨ e ≠ b ∧ Outstanding a b log := by
  refine ⟨?_, ?_⟩
  · rintro ⟨l₁, l₂, h, hb⟩
    rcases List.eq_nil_or_concat' l₂ with rfl | ⟨l₃, e', rfl⟩
    · exact .inl (List.singleton_inj.1 (List.append_inj' h rfl).2)
    · rw [← List.cons_append, ← List.append_assoc] at h
      obtain ⟨hlog, he⟩ := List.append_inj' h rfl
      obtain rfl := List.singleton_inj.1 he
      rw [List.mem_append, List.mem_singleton, not_or] at hb
      exact .inr ⟨fun heq => hb.2 heq.symm, l₁, l₃, hlog, hb.1⟩
  · rintro (rfl | ⟨hne, l₁, l₂, rfl, hb⟩)
    · exact ⟨log, [], rfl, by simp⟩
    · refine ⟨l₁, l₂ ++ [e], by simp, ?_⟩
      rw [List.mem_append, List.mem_singleton, not_or]
      exact ⟨hb, hne.symm⟩

end Log

end Lib
