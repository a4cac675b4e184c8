import LearnSpdk.Lib.Attempt

/-! How often a run makes headway: the steps of it that move, counted. What is left to do is
a number that a step which moves makes smaller by one and that no other step changes. -/

namespace Lib

variable {σ α : Type*} {step : α → σ → Option σ} {moves : σ → α → Bool} {init s : σ} {acts : List α} {a : α}
  {C : σ → α → Prop} {I : ℕ → σ → Prop} {n : ℕ}

/-- The number of steps of the run that move, up to the first one that gives no state. -/
def headway (step : α → σ → Option σ) (moves : σ → α → Bool) : σ → List α → ℕ
  | _, [] => 0
  | s, a :: acts =>
    (moves s a).toNat +
      match step a s with
      | none => 0
      | some s' => headway step moves s' acts

theorem headway_snoc (h : attempt step init acts = some s) :
    headway step moves init (acts ++ [a]) = headway step moves init acts + (moves s a).toNat := by
  induction acts generalizing init with
  | nil =>
    obtain rfl := Option.some.inj h
    rw [List.nil_append, headway, headway]
    cases step a init with
    | none => simp
    | some s => simp [headway]
  | cons b acts ih =>
    rw [attempt_cons, Option.bind_eq_some_iff] at h
    obtain ⟨t, ht, h⟩ := h
    simp only [List.cons_append, headway, ht]
    rw [ih h, Nat.add_assoc]

/-- If every step that moves lessens what is left by one, then the headway made and what is
left make up what there was to do. -/
theorem Meets.headway (hC : Meets step init C acts) (hinit : I n init)
    (hstep : ∀ m s a s', I m s → step a s = some s' → C s a → ∃ m', I m' s' ∧ m' + (moves s a).toNat = m)
    (h : attempt step init acts = some s) : ∃ m, I m s ∧ headway step moves init acts + m = n := by
  induction acts using List.reverseRecOn generalizing s with
  | nil =>
    obtain rfl := Option.some.inj h
    exact ⟨n, hinit, Nat.zero_add n⟩
  | append_singleton acts a ih =>
    rw [attempt_snoc, Option.bind_eq_some_iff] at h
    obtain ⟨t, ht, hs⟩ := h
    obtain ⟨m, hm, hn⟩ := ih hC.of_snoc.1 ht
    obtain ⟨m', hm', hm₁⟩ := hstep m t a s hm hs (hC.of_snoc.2 t ht)
    refine ⟨m', hm', ?_⟩
    rw [headway_snoc ht]
    omega

end Lib
