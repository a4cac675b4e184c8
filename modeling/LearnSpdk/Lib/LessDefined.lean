import Mathlib.Data.Option.Basic

/-! Two versions of a partial computation, of which one stops where the other goes on. What
the first returns the second returns too. -/

namespace Lib

variable {α β : Type} {a b : Option α} {f g : α → Option β}

/-- What `a` returns, `b` returns. -/
def LessDefined (a b : Option α) : Prop := ∀ r, a = some r → b = some r

theorem LessDefined.rfl : LessDefined a a := fun _ h => h

theorem LessDefined.none : LessDefined none b := by
  intro r h
  cases h

theorem LessDefined.bind (h : LessDefined a b) (hf : ∀ r, LessDefined (f r) (g r)) :
    LessDefined (a >>= f) (b >>= g) := by
  intro s hs
  obtain ⟨r, hr, hs⟩ := Option.bind_eq_some_iff.1 hs
  exact Option.bind_eq_some_iff.2 ⟨r, h r hr, hf r s hs⟩

/-- The same first step. -/
theorem LessDefined.next (hf : ∀ r, LessDefined (f r) (g r)) : LessDefined (a >>= f) (a >>= g) :=
  LessDefined.rfl.bind hf

theorem LessDefined.ite {p : Prop} [Decidable p] {a' b' : Option α} (h : LessDefined a b)
    (h' : LessDefined a' b') : LessDefined (if p then a else a') (if p then b else b') := by
  split
  · exact h
  · exact h'

/-- Two versions that both return what a third one returns. -/
theorem LessDefined.eq {c : Option α} {r : α} (hb : LessDefined a b) (hc : LessDefined a c) (ha : a = some r) :
    b = c := by
  rw [hb r ha, hc r ha]

end Lib
