import LearnSpdk.Spec.Myfs
import Mathlib.Data.Nat.Bitwise
import Mathlib.Tactic.IntervalCases

/-! The bitmap of the descriptors: `get_fd_from_bitmap` hands out the least free one. -/

namespace LearnSpdk

open Lib

namespace Myfs

variable {t : FdTable} {a b fd n : ℕ}

def IsSet (t : FdTable) (fd : ℕ) : Prop := t (fd / 8) &&& mask fd ≠ 0

def setBit (t : FdTable) (fd : ℕ) : FdTable := Function.update t (fd / 8) (t (fd / 8) ||| mask fd)

def clearBit (t : FdTable) (fd : ℕ) : FdTable := Function.update t (fd / 8) (t (fd / 8) &&& ~~~mask fd)

theorem toNat_mask (fd : ℕ) : (mask fd).toNat = 2 ^ (fd % 8) := by
  unfold mask
  have h : fd % 8 < 8 := Nat.mod_lt fd (by decide)
  generalize fd % 8 = i at h
  interval_cases i <;> rfl

theorem and_mask (x : UInt8) (fd : ℕ) : x &&& mask fd ≠ 0 ↔ x.toNat.testBit (fd % 8) = true := by
  rw [Ne, ← UInt8.toNat_inj, UInt8.toNat_and, toNat_mask, Nat.and_two_pow]
  cases x.toNat.testBit (fd % 8) <;> simp

theorem isSet_iff : IsSet t fd ↔ (t (fd / 8)).toNat.testBit (fd % 8) = true := and_mask _ _

theorem isSet_update {x : UInt8} (h : b / 8 = a / 8) :
    IsSet (Function.update t (a / 8) x) b ↔ x.toNat.testBit (b % 8) = true := by
  rw [isSet_iff, h, Function.update_self]

theorem isSet_update_of_ne {x : UInt8} (h : b / 8 ≠ a / 8) :
    IsSet (Function.update t (a / 8) x) b ↔ IsSet t b := by
  rw [isSet_iff, Function.update_of_ne h, isSet_iff]

theorem mod_eq_iff (h : b / 8 = a / 8) : a % 8 = b % 8 ↔ b = a := by omega

theorem isSet_setBit : IsSet (setBit t a) b ↔ b = a ∨ IsSet t b := by
  by_cases h : b / 8 = a / 8
  · rw [setBit, isSet_update h, UInt8.toNat_or, Nat.testBit_or, toNat_mask, Nat.testBit_two_pow, isSet_iff, h,
      Bool.or_eq_true, decide_eq_true_iff, mod_eq_iff h]
    exact or_comm
  · rw [setBit, isSet_update_of_ne h]
    have hne : b ≠ a := fun e => h (e ▸ rfl)
    simp [hne]

theorem isSet_clearBit : IsSet (clearBit t a) b ↔ b ≠ a ∧ IsSet t b := by
  by_cases h : b / 8 = a / 8
  · have hlt : b % 8 < 8 := Nat.mod_lt b (by decide)
    have hmask : (~~~mask a).toNat.testBit (b % 8) = true ↔ b ≠ a := by
      have hpow : 2 ^ (a % 8) < 2 ^ 8 := Nat.pow_lt_pow_right (by decide) (Nat.mod_lt a (by decide))
      rw [UInt8.toNat_not, toNat_mask, Nat.sub_sub, Nat.add_comm 1,
        Nat.testBit_two_pow_sub_succ hpow, Nat.testBit_two_pow]
      simp [hlt, mod_eq_iff h]
    rw [clearBit, isSet_update h, UInt8.toNat_and, Nat.testBit_and, Bool.and_eq_true, hmask, isSet_iff, h]
    exact and_comm
  · rw [clearBit, isSet_update_of_ne h]
    have hne : b ≠ a := fun e => h (e ▸ rfl)
    simp [hne]

/-- A descriptor that `get_fd_from_bitmap` may hand out. -/
def Free (t : FdTable) (fd : ℕ) : Prop := DEFAULT_FD_NUM ≤ fd ∧ fd < MAX_FD_COUNT ∧ ¬IsSet t fd

def LeastFree (t : FdTable) (fd : ℕ) : Prop := Free t fd ∧ ∀ b, Free t b → fd ≤ b

/-- What the loop finds in the descriptors it goes through. -/
theorem scan_cases (t : FdTable) (n fd : ℕ) :
    (∃ a, fd ≤ a ∧ a < fd + n ∧ ¬IsSet t a ∧ (∀ b, fd ≤ b → b < a → IsSet t b) ∧
      scan t n fd = ((a : ℤ), setBit t a)) ∨
    (∀ b, fd ≤ b → b < fd + n → IsSet t b) ∧ scan t n fd = (-1, t) := by
  induction n generalizing fd with
  | zero => exact .inr ⟨fun b hb hb' => by omega, rfl⟩
  | succ n ih =>
    by_cases hfree : t (fd / 8) &&& mask fd = 0
    · refine .inl ⟨fd, le_rfl, by omega, not_not.2 hfree, fun b hb hb' => by omega, ?_⟩
      rw [scan, if_pos hfree]
      rfl
    · have hscan : scan t (n + 1) fd = scan t n (fd + 1) := by rw [scan, if_neg hfree]
      rw [hscan]
      have hfirst : ∀ b, fd ≤ b → (fd + 1 ≤ b → IsSet t b) → IsSet t b := by
        intro b hb hrest
        rcases Nat.eq_or_lt_of_le hb with rfl | hlt
        · exact hfree
        · exact hrest hlt
      rcases ih (fd + 1) with ⟨a, ha, ha', hnot, hset, h⟩ | ⟨hset, h⟩
      · exact .inl ⟨a, by omega, by omega, hnot, fun b hb hb' => hfirst b hb fun hlt => hset b hlt hb', h⟩
      · exact .inr ⟨fun b hb hb' => hfirst b hb fun hlt => hset b hlt (by omega), h⟩

theorem getFdFromBitmap_cases (t : FdTable) :
    (∃ fd, LeastFree t fd ∧ getFdFromBitmap t = ((fd : ℤ), setBit t fd)) ∨
    (∀ fd, ¬Free t fd) ∧ getFdFromBitmap t = (-1, t) := by
  have hmax : DEFAULT_FD_NUM + (MAX_FD_COUNT - DEFAULT_FD_NUM) = MAX_FD_COUNT := by decide
  rcases scan_cases t (MAX_FD_COUNT - DEFAULT_FD_NUM) DEFAULT_FD_NUM with
    ⟨a, ha, ha', hnot, hset, h⟩ | ⟨hset, h⟩
  · refine .inl ⟨a, ⟨⟨ha, by omega, hnot⟩, fun b hb => ?_⟩, h⟩
    by_contra hlt
    exact hb.2.2 (hset b hb.1 (by omega))
  · exact .inr ⟨fun fd hfd => hfd.2.2 (hset fd hfd.1 (by rw [hmax]; exact hfd.2.1)), h⟩

theorem LeastFree.unique (ha : LeastFree t a) (hb : LeastFree t b) : a = b :=
  Nat.le_antisymm (ha.2 b hb.1) (hb.2 a ha.1)

theorem exists_leastFree (h : ∃ fd, Free t fd) : ∃ n, LeastFree t n := by
  obtain ⟨fd, hfd⟩ := h
  rcases getFdFromBitmap_cases t with ⟨n, hn, -⟩ | ⟨hfull, -⟩
  · exact ⟨n, hn⟩
  · exact absurd hfd (hfull fd)

theorem getFdFromBitmap_of_leastFree (h : LeastFree t fd) : getFdFromBitmap t = ((fd : ℤ), setBit t fd) := by
  rcases getFdFromBitmap_cases t with ⟨n, hn, hget⟩ | ⟨hfull, -⟩
  · rw [hget, h.unique hn]
  · exact absurd h.1 (hfull fd)

theorem getFdFromBitmap_eq_iff : (getFdFromBitmap t).1 = (fd : ℤ) ↔ LeastFree t fd := by
  refine ⟨fun h => ?_, fun h => by rw [getFdFromBitmap_of_leastFree h]⟩
  rcases getFdFromBitmap_cases t with ⟨a, ha, hget⟩ | ⟨-, hget⟩
  · rw [hget] at h
    exact Int.ofNat.inj h ▸ ha
  · simp [hget] at h

theorem getFdFromBitmap_eq_neg_one_iff : (getFdFromBitmap t).1 = -1 ↔ ∀ fd, ¬Free t fd := by
  rcases getFdFromBitmap_cases t with ⟨a, ha, hget⟩ | ⟨hfull, hget⟩
  · rw [hget]
    exact ⟨fun h => absurd h (by simp), fun h => absurd ha.1 (h a)⟩
  · simp [hget, hfull]

theorem getFdFromBitmap_unchanged (h : (getFdFromBitmap t).1 = -1) : (getFdFromBitmap t).2 = t := by
  rcases getFdFromBitmap_cases t with ⟨a, -, hget⟩ | ⟨-, hget⟩
  · simp [hget] at h
  · rw [hget]

theorem setFdToBitmap_of_lt (h : fd < MAX_FD_COUNT) (t : FdTable) :
    setFdToBitmap fd t = (0, clearBit t fd) := by
  simp only [setFdToBitmap, ge_iff_le, Nat.not_le.2 h, if_false]
  rfl

theorem setFdToBitmap_snd (h : fd < MAX_FD_COUNT) : (setFdToBitmap fd t).2 = clearBit t fd := by
  rw [setFdToBitmap_of_lt h]

/-! ### Runs of the two calls -/

/-- The descriptor was answered, and not released since. -/
def HandedOut (log : List FdEvent) (fd : ℕ) : Prop := Outstanding (.got fd) (.released fd) log

namespace Bitmap

variable {m : Bitmap}

/-- The table shows what is handed out, and a descriptor is not answered twice before it is
released. -/
structure Inv (m : Bitmap) : Prop where
  isSet_iff : ∀ fd, IsSet m.table fd ↔ HandedOut m.log fd
  once : ∀ l₁ l₂ l₃ (fd : ℕ), m.log = l₁ ++ .got fd :: l₂ ++ .got fd :: l₃ → .released fd ∈ l₂

theorem inv_empty : Inv ⟨fun _ => 0, []⟩ := by
  refine ⟨?_, ?_⟩
  · intro fd
    simp [IsSet, HandedOut]
  · intro l₁ l₂ l₃ fd h
    simp at h

theorem once_snoc {log : List FdEvent} {e : FdEvent}
    (h : ∀ l₁ l₂ l₃ (fd : ℕ), log = l₁ ++ .got fd :: l₂ ++ .got fd :: l₃ → .released fd ∈ l₂)
    (he : ∀ fd : ℕ, e = .got fd → ¬HandedOut log fd) :
    ∀ l₁ l₂ l₃ (fd : ℕ), log ++ [e] = l₁ ++ .got fd :: l₂ ++ .got fd :: l₃ → .released fd ∈ l₂ := by
  intro l₁ l₂ l₃ fd heq
  rcases List.eq_nil_or_concat' l₃ with rfl | ⟨l₄, e', rfl⟩
  · obtain ⟨hlog, hlast⟩ := List.append_inj' heq rfl
    by_contra hrel
    exact he fd (List.singleton_inj.1 hlast) ⟨l₁, l₂, hlog, hrel⟩
  · rw [← List.cons_append, ← List.append_assoc] at heq
    exact h l₁ l₂ l₄ fd (List.append_inj' heq rfl).1

theorem Inv.get (h : Inv m) : Inv (step .get m) := by
  rcases getFdFromBitmap_cases m.table with ⟨a, ha, hget⟩ | ⟨-, hget⟩
  · have hstep : step .get m = ⟨setBit m.table a, m.log ++ [.got a]⟩ := by simp only [step, hget]
    rw [hstep]
    refine ⟨fun fd => ?_, once_snoc h.once ?_⟩
    · rw [isSet_setBit, HandedOut, outstanding_snoc, h.isSet_iff, HandedOut]
      simp [eq_comm]
    · rintro fd heq hout
      obtain rfl : a = fd := by simpa using heq
      exact ha.1.2.2 ((h.isSet_iff a).2 hout)
  · have hstep : step .get m = ⟨m.table, m.log ++ [.got (-1)]⟩ := by simp only [step, hget]
    have hne (fd : ℕ) : FdEvent.got (-1) ≠ .got fd := by
      rw [Ne, FdEvent.got.injEq]
      omega
    rw [hstep]
    refine ⟨fun fd => ?_, once_snoc h.once fun fd heq => absurd heq (hne fd)⟩
    rw [HandedOut, outstanding_snoc, h.isSet_iff, HandedOut]
    simp [hne fd]

theorem Inv.set (h : Inv m) (a : Fin MAX_FD_COUNT) : Inv (step (.set a) m) := by
  have hstep : step (.set a) m = ⟨clearBit m.table a, m.log ++ [.released a]⟩ := by
    simp only [step, setFdToBitmap_snd a.isLt]
  rw [hstep]
  refine ⟨fun fd => ?_, once_snoc h.once (by simp)⟩
  rw [isSet_clearBit, HandedOut, outstanding_snoc, h.isSet_iff, HandedOut]
  simp [eq_comm]

theorem inv_run (calls : List FdCall) : Inv (run calls) := by
  refine sched_induct inv_empty (fun m call h => ?_) calls
  cases call with
  | get => exact h.get
  | set fd => exact h.set fd

theorem Inv.free_iff (h : Inv m) :
    Free m.table fd ↔ DEFAULT_FD_NUM ≤ fd ∧ fd < MAX_FD_COUNT ∧ ¬HandedOut m.log fd := by
  rw [Free, h.isSet_iff]

theorem Inv.leastFree_iff (h : Inv m) :
    LeastFree m.table fd ↔ DEFAULT_FD_NUM ≤ fd ∧ fd < MAX_FD_COUNT ∧ ¬HandedOut m.log fd ∧
      ∀ b, DEFAULT_FD_NUM ≤ b → b < fd → HandedOut m.log b := by
  refine ⟨?_, ?_⟩
  · rintro ⟨hfree, hleast⟩
    obtain ⟨hge, hlt, hnot⟩ := h.free_iff.1 hfree
    refine ⟨hge, hlt, hnot, fun b hb hlt' => ?_⟩
    by_contra hfreeb
    have hle := hleast b (h.free_iff.2 ⟨hb, hlt'.trans hlt, hfreeb⟩)
    omega
  · rintro ⟨hge, hlt, hnot, hbelow⟩
    refine ⟨h.free_iff.2 ⟨hge, hlt, hnot⟩, fun b hb => ?_⟩
    obtain ⟨hgeb, -, hnotb⟩ := h.free_iff.1 hb
    by_contra hlt'
    exact hnotb (hbelow b hgeb (not_le.1 hlt'))

end Bitmap

/-- After every run of the two calls: the bits set are those of the descriptors handed out;
`get_fd_from_bitmap` answers with the least descriptor of the range that is not handed out,
and marks only it, or with -1, and changes nothing, if and only if all are handed out; no
answer is given again before it is released; and `set_fd_to_bitmap` clears one bit. -/
theorem run_least_free (calls : List FdCall) :
    (∀ fd, IsSet (Bitmap.run calls).table fd ↔ HandedOut (Bitmap.run calls).log fd) ∧
    (∀ fd : ℕ, (getFdFromBitmap (Bitmap.run calls).table).1 = fd ↔
      DEFAULT_FD_NUM ≤ fd ∧ fd < MAX_FD_COUNT ∧ ¬HandedOut (Bitmap.run calls).log fd ∧
        ∀ b, DEFAULT_FD_NUM ≤ b → b < fd → HandedOut (Bitmap.run calls).log b) ∧
    (∀ fd : ℕ, (getFdFromBitmap (Bitmap.run calls).table).1 = fd →
      ∀ b, IsSet (getFdFromBitmap (Bitmap.run calls).table).2 b ↔ b = fd ∨ IsSet (Bitmap.run calls).table b) ∧
    ((getFdFromBitmap (Bitmap.run calls).table).1 = -1 ↔
      ∀ b, DEFAULT_FD_NUM ≤ b → b < MAX_FD_COUNT → HandedOut (Bitmap.run calls).log b) ∧
    ((getFdFromBitmap (Bitmap.run calls).table).1 = -1 →
      (getFdFromBitmap (Bitmap.run calls).table).2 = (Bitmap.run calls).table) ∧
    (∀ l₁ l₂ l₃ (fd : ℕ), (Bitmap.run calls).log = l₁ ++ .got fd :: l₂ ++ .got fd :: l₃ → .released fd ∈ l₂) ∧
    ∀ fd < MAX_FD_COUNT, (setFdToBitmap fd (Bitmap.run calls).table).1 = 0 ∧
      ∀ b, IsSet (setFdToBitmap fd (Bitmap.run calls).table).2 b ↔ b ≠ fd ∧ IsSet (Bitmap.run calls).table b := by
  have h := Bitmap.inv_run calls
  refine ⟨h.isSet_iff, fun fd => getFdFromBitmap_eq_iff.trans h.leastFree_iff, fun fd hfd b => ?_, ?_,
    getFdFromBitmap_unchanged, h.once, fun fd hfd => ?_⟩
  · rw [getFdFromBitmap_of_leastFree (getFdFromBitmap_eq_iff.1 hfd)]
    exact isSet_setBit
  · rw [getFdFromBitmap_eq_neg_one_iff]
    refine ⟨fun hfull b hb hlt => ?_, fun hall b hb => ?_⟩
    · by_contra hnot
      exact hfull b (h.free_iff.2 ⟨hb, hlt, hnot⟩)
    · obtain ⟨hge, hlt, hnot⟩ := h.free_iff.1 hb
      exact hnot (hall b hge hlt)
  · rw [setFdToBitmap_of_lt hfd]
    exact ⟨rfl, fun b => isSet_clearBit⟩

end Myfs

end LearnSpdk
