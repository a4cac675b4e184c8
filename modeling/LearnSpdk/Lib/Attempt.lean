import Mathlib.Data.List.Induction
import Mathlib.Data.List.Infix

/-! Runs of a system whose steps may fail to give a state, and properties that hold along a
run: in the state after each of its steps. -/

namespace Lib

variable {σ α : Type*} {step : α → σ → Option σ} {init s s' : σ} {acts : List α} {a : α}
  {I P : σ → Prop} {C : σ → α → Prop}

/-- The state after the steps `acts`, if each of them gives one. -/
def attempt (step : α → σ → Option σ) (init : σ) (acts : List α) : Option σ :=
  acts.foldl (fun s a => s.bind (step a)) (some init)

@[simp] theorem attempt_nil : attempt step init [] = some init := rfl

@[simp] theorem attempt_snoc : attempt step init (acts ++ [a]) = (attempt step init acts).bind (step a) := by
  simp [attempt]

theorem attempt_cons : attempt step init (a :: acts) = (step a init).bind fun s => attempt step s acts := by
  induction acts using List.reverseRecOn with
  | nil => simp [attempt]
  | append_singleton acts b ih => rw [← List.cons_append, attempt_snoc, ih, Option.bind_assoc]; simp

theorem attempt_singleton : attempt step init [a] = step a init := rfl

/-- A property of the first state that every step keeps. -/
theorem attempt_induct (hinit : I init) (hstep : ∀ s a s', I s → step a s = some s' → I s')
    (h : attempt step init acts = some s) : I s := by
  induction acts using List.reverseRecOn generalizing s with
  | nil =>
    obtain rfl := Option.some.inj h
    exact hinit
  | append_singleton acts a ih =>
    rw [attempt_snoc, Option.bind_eq_some_iff] at h
    obtain ⟨t, ht, hs⟩ := h
    exact hstep t a s (ih ht) hs

/-- `P` holds in the state after each step of the run. -/
def Along (step : α → σ → Option σ) (init : σ) (P : σ → Prop) (acts : List α) : Prop :=
  ∀ k ≤ acts.length, ∃ s, attempt step init (acts.take k) = some s ∧ P s

/-- Each step of the run meets `C` in the state before it. -/
def Meets (step : α → σ → Option σ) (init : σ) (C : σ → α → Prop) (acts : List α) : Prop :=
  ∀ k (hk : k < acts.length) s, attempt step init (acts.take k) = some s → C s acts[k]

theorem Meets.of_snoc (h : Meets step init C (acts ++ [a])) :
    Meets step init C acts ∧ ∀ s, attempt step init acts = some s → C s a := by
  refine ⟨?_, ?_⟩
  · intro k hk s hs
    have := h k (by simp; omega) s (by rwa [List.take_append_of_le_length hk.le])
    rwa [List.getElem_append_left hk] at this
  · intro s hs
    have := h acts.length (by simp) s (by rwa [List.take_append_of_le_length le_rfl, List.take_length])
    rwa [List.getElem_concat_length rfl] at this

theorem Meets.snoc (h : Meets step init C acts) (ha : ∀ s, attempt step init acts = some s → C s a) :
    Meets step init C (acts ++ [a]) := by
  intro k hk s hs
  rw [List.length_append, List.length_singleton] at hk
  rcases Nat.lt_or_eq_of_le (Nat.le_of_lt_succ hk) with hlt | rfl
  · rw [List.take_append_of_le_length hlt.le] at hs
    rw [List.getElem_append_left hlt]
    exact h k hlt s hs
  · rw [List.take_append_of_le_length le_rfl, List.take_length] at hs
    rw [List.getElem_concat_length rfl]
    exact ha s hs

theorem meets_nil : Meets step init C [] := fun _ hk => absurd hk (Nat.not_lt_zero _)

theorem meets_snoc : Meets step init C (acts ++ [a]) ↔
    Meets step init C acts ∧ ∀ s, attempt step init acts = some s → C s a :=
  ⟨Meets.of_snoc, fun h => h.1.snoc h.2⟩

theorem meets_cons : Meets step init C (a :: acts) ↔
    C init a ∧ ∀ s, step a init = some s → Meets step s C acts := by
  refine ⟨fun h => ⟨h 0 (Nat.zero_lt_succ _) init rfl, fun s hs k hk s' hs' => ?_⟩, ?_⟩
  · refine h (k + 1) (Nat.succ_lt_succ hk) s' ?_
    rw [List.take_succ_cons, attempt_cons, hs, Option.bind_some, hs']
  · rintro ⟨hinit, hrest⟩ k hk s hs
    cases k with
    | zero =>
      obtain rfl := Option.some.inj hs
      exact hinit
    | succ k =>
      rw [List.take_succ_cons, attempt_cons, Option.bind_eq_some_iff] at hs
      obtain ⟨t, ht, hs⟩ := hs
      exact hrest t ht k (Nat.lt_of_succ_lt_succ hk) s hs

instance decidableMeets [∀ s a, Decidable (C s a)] :
    ∀ (init : σ) (acts : List α), Decidable (Meets step init C acts)
  | _, [] => isTrue meets_nil
  | init, a :: acts =>
    have : Decidable (∀ s, step a init = some s → Meets step s C acts) :=
      match step a init with
      | none => isTrue fun _ hs => nomatch hs
      | some s =>
        have := decidableMeets s acts
        decidable_of_iff (Meets step s C acts)
          ⟨fun hmeets _ hs => Option.some.inj hs ▸ hmeets, fun hall => hall s rfl⟩
    decidable_of_iff _ meets_cons.symm

theorem meets_congr {D : σ → α → Prop}
    (h : ∀ acts s a, attempt step init acts = some s → (C s a ↔ D s a)) :
    Meets step init C acts ↔ Meets step init D acts :=
  ⟨fun hC k hk s hs => (h _ s _ hs).1 (hC k hk s hs), fun hD k hk s hs => (h _ s _ hs).2 (hD k hk s hs)⟩

/-- What holds of every beginning of a list that is longer by one. -/
theorem forall_take_snoc {R : List α → Prop} :
    (∀ k ≤ (acts ++ [a]).length, R ((acts ++ [a]).take k)) ↔
      (∀ k ≤ acts.length, R (acts.take k)) ∧ R (acts ++ [a]) := by
  refine ⟨?_, ?_⟩
  · intro h
    refine ⟨fun k hk => ?_, ?_⟩
    · have := h k (by simp; omega)
      rwa [List.take_append_of_le_length hk] at this
    · have := h (acts ++ [a]).length le_rfl
      rwa [List.take_length] at this
  · rintro ⟨h, hlast⟩ k hk
    rw [List.length_append, List.length_singleton] at hk
    rcases Nat.lt_or_eq_of_le hk with hlt | rfl
    · rw [List.take_append_of_le_length (Nat.le_of_lt_succ hlt)]
      exact h k (Nat.le_of_lt_succ hlt)
    · rwa [List.take_of_length_le (by simp)]

theorem along_nil : Along step init P [] ↔ P init := by
  simp [Along]

theorem along_snoc : Along step init P (acts ++ [a]) ↔
    Along step init P acts ∧ ∃ s, attempt step init (acts ++ [a]) = some s ∧ P s :=
  forall_take_snoc (R := fun acts => ∃ s, attempt step init acts = some s ∧ P s)

/-- If `C` says when one step leads from a state with `P` to one with `P`, then it says when
a run has `P` along it. The invariant `I` may help. -/
theorem along_iff (hinit : P init) (hI : I init) (hstep : ∀ s a s', I s → step a s = some s' → I s')
    (hC : ∀ s a, I s → P s → ((∃ s', step a s = some s' ∧ P s') ↔ C s a)) :
    Along step init P acts ↔ Meets step init C acts := by
  induction acts using List.reverseRecOn with
  | nil => simp [along_nil, hinit, Meets]
  | append_singleton acts a ih =>
    have hlast : Along step init P acts →
        ((∃ s, attempt step init (acts ++ [a]) = some s ∧ P s) ↔
          ∀ s, attempt step init acts = some s → C s a) := by
      intro h
      obtain ⟨s, hs, hPs⟩ := h acts.length le_rfl
      rw [List.take_length] at hs
      rw [attempt_snoc, hs, Option.bind_some, hC s a (attempt_induct hI hstep hs) hPs]
      simp
    rw [along_snoc]
    refine ⟨?_, ?_⟩
    · rintro ⟨h, h'⟩
      exact (ih.1 h).snoc ((hlast h).1 h')
    · intro h
      have halong := ih.2 h.of_snoc.1
      exact ⟨halong, (hlast halong).2 h.of_snoc.2⟩

/-- The same for a condition on the step alone. -/
theorem along_iff_forall {D : α → Prop} (hinit : P init)
    (hD : ∀ s a, P s → ((∃ s', step a s = some s' ∧ P s') ↔ D a)) :
    Along step init P acts ↔ ∀ a ∈ acts, D a := by
  have h : Along step init P acts ↔ Meets step init (fun _ => D) acts :=
    along_iff (I := fun _ => True) hinit trivial (fun _ _ _ _ _ => trivial) fun s a _ hs => hD s a hs
  refine ⟨?_, ?_⟩
  · intro halong a ha
    obtain ⟨k, hk, rfl⟩ := List.getElem_of_mem ha
    obtain ⟨s, hs, -⟩ := halong k hk.le
    exact h.1 halong k hk s hs
  · intro hall
    exact h.2 fun k hk s _ => hall acts[k] (List.getElem_mem hk)

/-- `P` holds in every state that the run reaches. -/
def Throughout (step : α → σ → Option σ) (init : σ) (P : σ → Prop) (acts : List α) : Prop :=
  ∀ k ≤ acts.length, ∀ s, attempt step init (acts.take k) = some s → P s

theorem throughout_nil : Throughout step init P [] ↔ P init := by
  simp [Throughout]

theorem throughout_snoc : Throughout step init P (acts ++ [a]) ↔
    Throughout step init P acts ∧ ∀ s, attempt step init (acts ++ [a]) = some s → P s :=
  forall_take_snoc (R := fun acts => ∀ s, attempt step init acts = some s → P s)

/-- A property of the first state that every step keeps that meets `C`. -/
theorem Meets.induct (h : Meets step init C acts) (hinit : I init)
    (hstep : ∀ s a s', I s → step a s = some s' → C s a → I s')
    (hs : attempt step init acts = some s) : I s := by
  induction acts using List.reverseRecOn generalizing s with
  | nil =>
    obtain rfl := Option.some.inj hs
    exact hinit
  | append_singleton acts a ih =>
    rw [attempt_snoc, Option.bind_eq_some_iff] at hs
    obtain ⟨t, ht, hs⟩ := hs
    exact hstep t a s (ih h.of_snoc.1 ht) hs (h.of_snoc.2 t ht)

/-- A run whose steps all meet `C` goes through, if from a state with `I` such a step leads to
one with `I`. -/
theorem Meets.survives (h : Meets step init C acts) (hinit : I init)
    (hstep : ∀ s a, I s → C s a → ∃ s', step a s = some s' ∧ I s') :
    ∃ s, attempt step init acts = some s ∧ I s := by
  induction acts using List.reverseRecOn with
  | nil => exact ⟨init, rfl, hinit⟩
  | append_singleton acts a ih =>
    obtain ⟨t, ht, hI⟩ := ih h.of_snoc.1
    obtain ⟨s, hs, hI'⟩ := hstep t a hI (h.of_snoc.2 t ht)
    exact ⟨s, by rw [attempt_snoc, ht, Option.bind_some, hs], hI'⟩

theorem Meets.take (h : Meets step init C acts) (k : ℕ) : Meets step init C (acts.take k) := by
  intro j hj s hs
  rw [List.length_take] at hj
  rw [List.take_take, Nat.min_eq_left (by omega)] at hs
  rw [List.getElem_take]
  exact h j (by omega) s hs

theorem attempt_take_succ {k : ℕ} (hk : k < acts.length) (hs : attempt step init (acts.take k) = some s) :
    attempt step init (acts.take (k + 1)) = step acts[k] s := by
  rw [List.take_succ_eq_append_getElem hk, attempt_snoc, hs, Option.bind_some]

/-- If `C` says when one step leads from a state with `I` to one with `P`, and `I` is kept
by the steps that meet `C`, then `C` says when a run has `P` throughout. -/
theorem throughout_iff (hinit : I init) (hP : ∀ s, I s → P s)
    (hstep : ∀ s a s', I s → step a s = some s' → C s a → I s')
    (hC : ∀ s a, I s → (∀ s', step a s = some s' → P s') → C s a) :
    Throughout step init P acts ↔ Meets step init C acts := by
  induction acts using List.reverseRecOn with
  | nil => simp [throughout_nil, hP init hinit, Meets]
  | append_singleton acts a ih =>
    rw [throughout_snoc]
    refine ⟨?_, ?_⟩
    · rintro ⟨h, hlast⟩
      have hmeets := ih.1 h
      refine hmeets.snoc fun s hs => hC s a (hmeets.induct hinit hstep hs) fun s' hs' => ?_
      exact hlast s' (by rw [attempt_snoc, hs, Option.bind_some, hs'])
    · intro h
      exact ⟨ih.2 h.of_snoc.1, fun s hs => hP s (h.induct hinit hstep hs)⟩

end Lib
