import LearnSpdk.Lib.SearchTree
import LearnSpdk.Lib.TreeWalk

/-! How deep the positions lie that the operations on a coloured search tree come to, and what
lies at one depth. -/

namespace Lib

open ColorTree Trail

variable {α : Type*}

/-- What hangs at a hole is not higher than the tree, less the way to the hole. -/
theorem length_add_height_le (p : Trail α) (t : ColorTree α) : p.length + t.height ≤ (plug p t).height := by
  induction p generalizing t with
  | nil => simp
  | cons f p ih =>
    obtain ⟨d, c, a, o⟩ := f
    have h := ih (Frame.fill ⟨d, c, a, o⟩ t)
    have hfill : t.height + 1 ≤ (Frame.fill ⟨d, c, a, o⟩ t).height := by
      cases d with
      | left =>
        simp only [Frame.fill, join, height]
        omega
      | right =>
        simp only [Frame.fill, join, height]
        omega
    rw [plug_cons, List.length_cons]
    omega

theorem length_le_height (p : Trail α) (t : ColorTree α) : p.length ≤ (plug p t).height :=
  (Nat.le_add_right _ _).trans (length_add_height_le p t)

/-- The place that is left short lies inside the tree. -/
theorem length_splice_lt_height (p : Trail α) (c : Color) (l : ColorTree α) (a : α) (r : ColorTree α) :
    (splice p (.node c l a r)).2.1.length < (plug p (.node c l a r)).height := by
  have hroot := length_add_height_le p (.node c l a r)
  rw [height] at hroot
  rcases l with _ | ⟨cl, ll, al, rl⟩
  · simp only [splice]
    omega
  rcases r with _ | ⟨cr, lr, ar, rr⟩
  · simp only [splice]
    omega
  obtain ⟨q, cs, s, x, hq, hplug, -⟩ := leftmost_spec (node_ne_nil cr lr ar rr)
  have hdown := length_add_height_le q (.node cs .nil s x)
  rw [hplug, height] at hdown
  simp only [splice, hq, List.length_append, List.length_cons]
  omega

/-! ### The nodes at one depth -/

variable {t : ColorTree α} {d : ℕ}

theorem length_level_le (t : ColorTree α) (d : ℕ) : (t.level d).length ≤ 2 ^ d := by
  induction d generalizing t with
  | zero => cases t <;> simp [level]
  | succ d ih =>
    cases t with
    | nil => exact Nat.zero_le _
    | node c l a r =>
      rw [level, List.length_append, Nat.pow_succ, Nat.mul_two]
      exact Nat.add_le_add (ih l) (ih r)

theorem level_ne_nil (h : d < t.height) : t.level d ≠ [] := by
  induction d generalizing t with
  | zero =>
    cases t with
    | nil => exact absurd h (Nat.lt_irrefl 0)
    | node c l a r => exact List.cons_ne_nil _ _
  | succ d ih =>
    cases t with
    | nil => exact absurd h (Nat.not_lt_zero _)
    | node c l a r =>
      rw [height, Nat.add_comm 1, Nat.add_lt_add_iff_right, lt_max_iff] at h
      rw [level, Ne, List.append_eq_nil_iff]
      rintro ⟨hl, hr⟩
      exact h.elim (ih · hl) (ih · hr)

/-- From left to right they stand as in the tree. -/
theorem level_sublist (t : ColorTree α) (d : ℕ) : (t.level d).Sublist t.colored := by
  induction d generalizing t with
  | zero =>
    cases t with
    | nil => exact List.Sublist.slnil
    | node c l a r => simp [level, colored]
  | succ d ih =>
    cases t with
    | nil => exact List.Sublist.slnil
    | node c l a r => exact (ih l).append ((ih r).trans (List.sublist_cons_self _ _))

end Lib
