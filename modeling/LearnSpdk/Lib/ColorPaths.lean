import LearnSpdk.Lib.RedBlack

/-! The ways down a coloured tree: the red-black conditions read off them, and the height that
they allow. -/

namespace Lib

open ColorTree

variable {α β : Type*} {c : Color} {t l r : ColorTree α} {a : α} {n : ℕ}

namespace ColorTree

/-- The colours met on each way from the root to a missing child, from left to right. -/
def ways : ColorTree α → List (List Color)
  | nil => [[]]
  | node c l _ r => (l.ways ++ r.ways).map (c :: ·)

/-- No red node has a red child. -/
def NoRedRed : ColorTree α → Prop
  | nil => True
  | node c l _ r => (c = .red → l.color = .black ∧ r.color = .black) ∧ l.NoRedRed ∧ r.NoRedRed

/-- All ways down pass the same number of black nodes. -/
def EvenWays (t : ColorTree α) : Prop := ∀ p ∈ t.ways, ∀ q ∈ t.ways, p.count .black = q.count .black

/-- The number of nodes on the longest way down. -/
def height : ColorTree α → ℕ
  | nil => 0
  | node _ l _ r => 1 + max l.height r.height

theorem ways_ne_nil (t : ColorTree α) : t.ways ≠ [] := by
  induction t with
  | nil => simp [ways]
  | node c l a r ihl ihr => simp [ways, ihl]

theorem count_cons (c : Color) (w : List Color) : (c :: w).count .black = w.count .black + c.weight := by
  cases c <;> simp [Color.weight]

end ColorTree

theorem balanced_node : Balanced (node c l a r) n ↔
    (c = .red → l.color = .black ∧ r.color = .black) ∧ ∃ k, n = k + c.weight ∧ Balanced l k ∧ Balanced r k := by
  cases c with
  | red => simp [Balanced, Color.weight, and_assoc]
  | black => simp [Balanced, Color.weight]

/-- The number of black nodes on the ways down is unique. -/
theorem Balanced.unique {m : ℕ} (h : Balanced t n) (h' : Balanced t m) : n = m := by
  induction t generalizing n m with
  | nil => exact h.trans h'.symm
  | node c l a r ihl ihr =>
    obtain ⟨-, k, rfl, hl, -⟩ := balanced_node.1 h
    obtain ⟨-, k', rfl, hl', -⟩ := balanced_node.1 h'
    rw [ihl hl hl']

theorem balanced_iff_ways : Balanced t n ↔ t.NoRedRed ∧ ∀ w ∈ t.ways, w.count .black = n := by
  induction t generalizing n with
  | nil => simp [NoRedRed, ways, eq_comm]
  | node c l a r ihl ihr =>
    have hways (k : ℕ) : (∀ w ∈ (node c l a r).ways, w.count .black = k + c.weight) ↔
        (∀ w ∈ l.ways, w.count .black = k) ∧ ∀ w ∈ r.ways, w.count .black = k := by
      simp only [ways, List.forall_mem_map, List.forall_mem_append, count_cons, Nat.add_right_cancel_iff]
    rw [balanced_node, NoRedRed]
    refine ⟨?_, ?_⟩
    · rintro ⟨hc, k, rfl, hl, hr⟩
      obtain ⟨hnl, hwl⟩ := ihl.1 hl
      obtain ⟨hnr, hwr⟩ := ihr.1 hr
      exact ⟨⟨hc, hnl, hnr⟩, (hways k).2 ⟨hwl, hwr⟩⟩
    · rintro ⟨⟨hc, hnl, hnr⟩, hw⟩
      -- some way down tells how many black nodes there are below the root
      obtain ⟨w, hmem⟩ := List.exists_mem_of_ne_nil _ l.ways_ne_nil
      have hn : n = w.count .black + c.weight := by
        rw [← count_cons]
        exact (hw (c :: w) (by simp [ways, hmem])).symm
      subst hn
      obtain ⟨hwl, hwr⟩ := (hways _).1 hw
      exact ⟨hc, _, rfl, ihl.2 ⟨hnl, hwl⟩, ihr.2 ⟨hnr, hwr⟩⟩

theorem exists_balanced_iff : (∃ n, Balanced t n) ↔ t.NoRedRed ∧ t.EvenWays := by
  simp only [balanced_iff_ways]
  refine ⟨?_, ?_⟩
  · rintro ⟨n, hred, hw⟩
    exact ⟨hred, fun p hp q hq => (hw p hp).trans (hw q hq).symm⟩
  · rintro ⟨hred, hw⟩
    obtain ⟨q, hq⟩ := List.exists_mem_of_ne_nil _ t.ways_ne_nil
    exact ⟨q.count .black, hred, fun p hp => hw p hp q hq⟩

/-- The red-black conditions, condition by condition. -/
theorem isRedBlack_iff_ways :
    IsRedBlack t ↔ t = .nil ∨ t.color = .black ∧ t.NoRedRed ∧ t.EvenWays := by
  rw [IsRedBlack, exists_balanced_iff]
  refine ⟨.inr, ?_⟩
  rintro (rfl | h)
  · exact ⟨rfl, exists_balanced_iff.1 ⟨0, rfl⟩⟩
  · exact h

theorem balanced_map (f : α → β) : Balanced (t.map f) n ↔ Balanced t n := by
  induction t generalizing n with
  | nil => rfl
  | node c l a r ihl ihr => simp only [ColorTree.map, balanced_node, ihl, ihr, color_map]

/-- Only the shape and the colours count. -/
theorem isRedBlack_map (f : α → β) : IsRedBlack (t.map f) ↔ IsRedBlack t := by
  simp only [IsRedBlack, color_map, balanced_map]

/-- Red nodes at most double a way down. -/
theorem Balanced.height_le (h : Balanced t n) : t.height + t.color.weight ≤ 2 * n + 1 := by
  induction t generalizing n with
  | nil => exact Nat.le_add_left _ _
  | node c l a r ihl ihr =>
    obtain ⟨hc, k, rfl, hl, hr⟩ := balanced_node.1 h
    have hl' := ihl hl
    have hr' := ihr hr
    cases c with
    | red =>
      obtain ⟨hlc, hrc⟩ := hc rfl
      rw [hlc, Color.weight] at hl'
      rw [hrc, Color.weight] at hr'
      rw [height, color, Color.weight]
      omega
    | black =>
      rw [height, color, Color.weight]
      omega

theorem Balanced.two_pow_le (h : Balanced t n) : 2 ^ n ≤ t.toList.length + 1 := by
  induction t generalizing n with
  | nil => exact le_of_eq (by rw [balanced_nil.1 h]; rfl)
  | node c l a r ihl ihr =>
    obtain ⟨-, k, rfl, hl, hr⟩ := balanced_node.1 h
    have hl' := ihl hl
    have hr' := ihr hr
    rw [toList, List.length_append, List.length_cons]
    cases c with
    | red =>
      rw [Color.weight, Nat.add_zero]
      omega
    | black =>
      rw [Color.weight, Nat.pow_succ]
      omega

theorem IsRedBlack.height_le (h : IsRedBlack t) : t.height ≤ 2 * Nat.log 2 (t.toList.length + 1) := by
  obtain ⟨hc, n, hn⟩ := h
  have hheight := hn.height_le
  have hlog : n ≤ Nat.log 2 (t.toList.length + 1) := Nat.le_log_of_pow_le (by decide) hn.two_pow_le
  rw [hc, Color.weight] at hheight
  omega

end Lib
