import LearnSpdk.Lib.Schedule
import Mathlib.Algebra.BigOperators.Group.Finset.Basic
import Mathlib.Algebra.Order.BigOperators.Group.Finset
import Mathlib.Algebra.BigOperators.Ring.Finset

/-! What the steps of a run add up to, and the potential argument for such sums: if every
step pays for what it gains with its own cost and the fall of a potential, then so does the
whole run. -/

namespace Lib

variable {σ α ι : Type*} {step : α → σ → σ} {f g : σ → α → ℕ} {init : σ} {acts : List α} {a : α}

/-- The sum of `f` over the steps of the run. -/
def tally (step : α → σ → σ) (f : σ → α → ℕ) : σ → List α → ℕ
  | _, [] => 0
  | s, a :: acts => f s a + tally step f (step a s) acts

theorem tally_snoc : tally step f init (acts ++ [a]) = tally step f init acts + f (sched step init acts) a := by
  induction acts generalizing init with
  | nil => simp [tally, sched]
  | cons b acts ih =>
    rw [List.cons_append, tally, ih, tally, Nat.add_assoc]
    rfl

theorem tally_add :
    tally step (fun s a => f s a + g s a) init acts = tally step f init acts + tally step g init acts := by
  induction acts generalizing init with
  | nil => rfl
  | cons a acts ih =>
    rw [tally, tally, tally, ih]
    omega

theorem tally_mul (c : ℕ) : tally step (fun s a => c * f s a) init acts = c * tally step f init acts := by
  induction acts generalizing init with
  | nil => rfl
  | cons a acts ih => rw [tally, tally, ih, Nat.mul_add]

/-- The potential argument, over the states that the run reaches. -/
theorem tally_le (pot : σ → ℕ)
    (h : ∀ acts a, pot (step a (sched step init acts)) + f (sched step init acts) a ≤
      pot (sched step init acts) + g (sched step init acts) a) (acts : List α) :
    pot (sched step init acts) + tally step f init acts ≤ pot init + tally step g init acts := by
  induction acts using List.reverseRecOn with
  | nil => exact le_refl _
  | append_singleton acts a ih =>
    have hstep := h acts a
    rw [tally_snoc, tally_snoc, sched_snoc]
    omega

/-- A counter that every step raises by `f`. -/
theorem tally_eq (count : σ → ℕ) (h : ∀ s a, count (step a s) = count s + f s a) (acts : List α) :
    count (sched step init acts) = count init + tally step f init acts := by
  induction acts using List.reverseRecOn with
  | nil => rfl
  | append_singleton acts a ih => rw [sched_snoc, tally_snoc, h, ih, Nat.add_assoc]

/-- A sum over a list when one of its members changes. -/
theorem sum_map_set {τ : Type*} (F : τ → ℕ) {l : List τ} {i : ℕ} {c : τ} (hc : l[i]? = some c) (c' : τ) :
    ((l.set i c').map F).sum + F c = (l.map F).sum + F c' := by
  induction l generalizing i with
  | nil => cases hc
  | cons d l ih =>
    cases i with
    | zero =>
      obtain rfl := Option.some.inj hc
      simp only [List.set_cons_zero, List.map_cons, List.sum_cons]
      omega
    | succ i =>
      have h := ih (i := i) (by simpa using hc)
      simp only [List.set_cons_succ, List.map_cons, List.sum_cons]
      omega

section Threads
variable [Fintype ι] {τ : Type*} {p : ι → τ} {i : ι} {q : τ}

/-- A sum over all threads when one of them moves and the summands of the others stay. -/
theorem sum_update_add [DecidableEq ι] {F G : τ → ℕ} (h : ∀ j ≠ i, G (p j) = F (p j)) :
    ∑ j, G (Function.update p i q j) + F (p i) = ∑ j, F (p j) + G q := by
  have hG := Finset.add_sum_erase Finset.univ (fun j => G (Function.update p i q j)) (Finset.mem_univ i)
  have hF := Finset.add_sum_erase Finset.univ (fun j => F (p j)) (Finset.mem_univ i)
  have herase : ∑ j ∈ Finset.univ.erase i, G (Function.update p i q j) = ∑ j ∈ Finset.univ.erase i, F (p j) := by
    apply Finset.sum_congr rfl
    intro j hj
    rw [Function.update_of_ne (Finset.ne_of_mem_erase hj), h j (Finset.ne_of_mem_erase hj)]
  rw [Function.update_self] at hG
  omega

theorem sum_le_card_mul {F : ι → ℕ} {b : ℕ} (h : ∀ j, F j ≤ b) : ∑ j, F j ≤ Fintype.card ι * b := by
  calc ∑ j, F j ≤ Finset.univ.card • b := Finset.sum_le_card_nsmul _ _ _ fun j _ => h j
    _ = Fintype.card ι * b := by rw [Finset.card_univ, nsmul_eq_mul, Nat.cast_id]

end Threads

end Lib
