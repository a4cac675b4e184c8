import Mathlib.Algebra.Group.Nat.Defs
import Mathlib.Data.Nat.Notation
import Mathlib.Logic.Function.Basic

/-! A byte-addressed memory, with the little-endian words of any width in it,
and copies of a block of bytes. -/

namespace Lib

def Memory := ℕ → UInt8

namespace Memory

variable {m m' : Memory} {a b v w w' : ℕ}

def load (m : Memory) (a : ℕ) : ℕ → ℕ
  | 0 => 0
  | w + 1 => (m a).toNat + 256 * m.load (a + 1) w

def setByte (m : Memory) (a : ℕ) (x : UInt8) : Memory := Function.update m a x

/-- Writes the low `w` bytes of `v` at `a`. -/
def store (m : Memory) (a : ℕ) : ℕ → ℕ → Memory
  | 0, _ => m
  | w + 1, v => (m.store (a + 1) w (v / 256)).setByte a (UInt8.ofNat v)

@[simp] theorem setByte_self (m : Memory) (a : ℕ) (x : UInt8) : m.setByte a x a = x :=
  Function.update_self ..

theorem setByte_of_ne (m : Memory) (x : UInt8) (h : b ≠ a) : m.setByte a x b = m b :=
  Function.update_of_ne h ..

theorem load_congr (h : ∀ c, a ≤ c → c < a + w → m c = m' c) : m.load a w = m'.load a w := by
  induction w generalizing a with
  | zero => rfl
  | succ w ih =>
    have hrest : m.load (a + 1) w = m'.load (a + 1) w := by
      apply ih
      intro c hc hc'
      exact h c (by omega) (by omega)
    simp only [load, hrest, h a (Nat.le_refl a) (by omega)]

theorem store_outside (m : Memory) (v : ℕ) (h : b < a ∨ a + w ≤ b) : m.store a w v b = m b := by
  induction w generalizing a v with
  | zero => rfl
  | succ w ih =>
    rw [store, setByte_of_ne _ _ (by omega)]
    exact ih _ (by omega)

theorem load_store (m : Memory) (a w v : ℕ) : (m.store a w v).load a w = v % 256 ^ w := by
  induction w generalizing a v with
  | zero => simp [load, Nat.mod_one]
  | succ w ih =>
    have hrest : (m.store a (w + 1) v).load (a + 1) w = (m.store (a + 1) w (v / 256)).load (a + 1) w := by
      apply load_congr
      intro c hc _
      exact setByte_of_ne _ _ (by omega)
    rw [load, hrest, ih, store, setByte_self, Nat.pow_succ', Nat.mod_mul]
    simp

theorem load_store_of_disjoint (m : Memory) (v : ℕ) (h : a + w ≤ b ∨ b + w' ≤ a) :
    (m.store a w v).load b w' = m.load b w' := by
  apply load_congr
  intro c hc hc'
  exact store_outside m v (by omega)

/-- The `w` bytes of `m'` at `b` copied to `a`. -/
def copy (m : Memory) (a : ℕ) (m' : Memory) (b w : ℕ) : Memory :=
  fun c => if a ≤ c ∧ c < a + w then m' (b + (c - a)) else m c

theorem copy_inside (m m' : Memory) (a b : ℕ) {i : ℕ} (h : i < w) : m.copy a m' b w (a + i) = m' (b + i) := by
  rw [copy, if_pos ⟨by omega, by omega⟩, Nat.add_sub_cancel_left]

end Memory

end Lib
