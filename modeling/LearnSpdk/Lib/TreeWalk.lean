import LearnSpdk.Lib.ColorPaths

/-! Walks over a coloured tree that keep a list of the subtrees they still have to enter: a
stack for the walk in order, a queue for the walk by levels. -/

namespace Lib.ColorTree

variable {α : Type*} {P : ColorTree α → Prop} {t : ColorTree α} {s : List (ColorTree α)}

/-- The items in order, with the colours of their nodes. -/
def colored : ColorTree α → List (α × Color)
  | nil => []
  | node c l a r => l.colored ++ (a, c) :: r.colored

theorem map_fst_colored (t : ColorTree α) : t.colored.map Prod.fst = t.toList := by
  induction t with
  | nil => rfl
  | node c l a r ihl ihr => simp [colored, toList, ihl, ihr]

/-! ### In order -/

/-- What is left of a subtree when its left child is done. -/
def pending : ColorTree α → List (α × Color)
  | nil => []
  | node c _ a r => (a, c) :: r.colored

/-- The stack with the subtrees on the way down to the left. -/
def leftSpine : ColorTree α → List (ColorTree α) → List (ColorTree α)
  | nil, s => s
  | node c l a r, s => l.leftSpine (node c l a r :: s)

/-- What is left to visit does not change on the way down. -/
theorem flatMap_pending_leftSpine (t : ColorTree α) (s : List (ColorTree α)) :
    (t.leftSpine s).flatMap pending = t.colored ++ s.flatMap pending := by
  induction t generalizing s with
  | nil => rfl
  | node c l a r ihl ihr => simp [leftSpine, ihl, colored, pending]

theorem leftSpine_ne_nil (h : t ≠ nil ∨ s ≠ []) : t.leftSpine s ≠ [] := by
  induction t generalizing s with
  | nil => simpa [leftSpine] using h
  | node c l a r ihl ihr => exact ihl (.inr (List.cons_ne_nil _ _))

/-- The stack holds nodes only, and what passes to a left child holds of them. -/
theorem forall_mem_leftSpine (hleft : ∀ c l a r, P (node c l a r) → P l) (ht : P t)
    (hs : ∀ u ∈ s, u ≠ nil ∧ P u) : ∀ u ∈ t.leftSpine s, u ≠ nil ∧ P u := by
  induction t generalizing s with
  | nil => exact hs
  | node c l a r ihl ihr =>
    apply ihl (hleft c l a r ht)
    intro u hu
    rcases List.mem_cons.1 hu with rfl | hu
    · exact ⟨node_ne_nil c l a r, ht⟩
    · exact hs u hu

/-! ### By levels -/

/-- The nodes at depth `d`, from left to right. -/
def level : ColorTree α → ℕ → List (α × Color)
  | nil, _ => []
  | node c _ a _, 0 => [(a, c)]
  | node _ l _ r, d + 1 => l.level d ++ r.level d

def children : ColorTree α → List (ColorTree α)
  | nil => []
  | node _ l _ r => [l, r]

theorem flatMap_level_succ (F : List (ColorTree α)) (d : ℕ) :
    F.flatMap (level · (d + 1)) = (F.flatMap children).flatMap (level · d) := by
  rw [List.flatMap_assoc]
  congr 1
  funext t
  cases t with
  | nil => rfl
  | node c l a r => simp [level, children]

/-- The height of the highest tree. -/
def tallest : List (ColorTree α) → ℕ
  | [] => 0
  | t :: F => max t.height (tallest F)

theorem tallest_append (F G : List (ColorTree α)) : tallest (F ++ G) = max (tallest F) (tallest G) := by
  induction F with
  | nil => simp [tallest]
  | cons t F ih => simp [tallest, ih, max_assoc]

/-- One level down. -/
theorem tallest_flatMap_children (F : List (ColorTree α)) : tallest (F.flatMap children) = tallest F - 1 := by
  induction F with
  | nil => rfl
  | cons t F ih =>
    have ht : tallest t.children = t.height - 1 := by
      cases t with
      | nil => rfl
      | node c l a r => simp [children, tallest, height]
    rw [List.flatMap_cons, tallest_append, ht, ih, tallest]
    omega

theorem height_le_length (t : ColorTree α) : t.height ≤ t.toList.length := by
  induction t with
  | nil => exact le_rfl
  | node c l a r ihl ihr =>
    simp only [height, toList, List.length_append, List.length_cons]
    omega

/-- The levels together have every node once. -/
theorem level_perm_colored {n : ℕ} (h : t.height ≤ n) : ((List.range n).flatMap t.level).Perm t.colored := by
  induction t generalizing n with
  | nil => simp [level, colored]
  | node c l a r ihl ihr =>
    simp only [height] at h
    obtain ⟨n, rfl⟩ : ∃ m, n = m + 1 := ⟨n - 1, by omega⟩
    have hbelow := (List.flatMap_append_perm (List.range n) l.level r.level).symm
    have hperm := hbelow.trans ((ihl (n := n) (by omega)).append (ihr (n := n) (by omega)))
    rw [List.range_succ_eq_map, List.flatMap_cons, List.flatMap_map]
    exact (hperm.cons (a, c)).trans List.perm_middle.symm

end Lib.ColorTree
