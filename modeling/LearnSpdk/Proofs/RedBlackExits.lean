import LearnSpdk.Lib.LessDefined
import LearnSpdk.Proofs.RedBlackTreeRuns

/-! The defensive exits of `RedBlackTree` are dead code. A call that stops at an exit is less
defined than one with any other exit, and after every run even the call that stops
at an exit returns. -/

namespace LearnSpdk.RedBlackTree

open Lib

variable {K V : Type} (exit : Links K V → Option (Links K V))

/-- The exit that stops the call. -/
def stop (_ : Links K V) : Option (Links K V) := none

theorem rotate_stop (d : Side) (x : Option Ptr) (L : Links K V) :
    LessDefined (rotate stop d x L) (rotate exit d x L) := by
  unfold rotate
  refine .next fun c => ?_
  exact .ite .none .rfl

theorem fixInsertLoop_stop (n : ℕ) (node : Option Ptr) (L : Links K V) :
    LessDefined (fixInsertLoop stop n node L) (fixInsertLoop exit n node L) := by
  induction n generalizing node L with
  | zero => exact .rfl
  | succ n ih =>
    unfold fixInsertLoop
    refine .ite .rfl ?_
    refine .next fun c => .next fun p => .ite .rfl ?_
    -- at an exit the first call is over
    refine .next fun p' => .ite .none ?_
    refine .next fun left => .next fun uncle => .next fun black => .ite ?_ ?_
    · exact .next fun L₁ => .next fun L₂ => .next fun L₃ => ih _ L₃
    · refine .next fun outer => .ite ?_ ?_
      · exact .next fun L₁ => .next fun L₂ => (rotate_stop exit _ _ L₂).bind fun L₃ => ih node L₃
      · refine (rotate_stop exit _ _ L).bind fun L₁ => .next fun c => .ite (.next ?_) (.next fun p => .next ?_)
        -- the grandparent is read again, and may be missing in two ways
        all_goals
          refine fun grandparent => .ite .none ?_
          exact .next fun L₂ => .next fun L₃ => (rotate_stop exit _ _ L₃).bind fun L₄ => ih _ L₄

theorem fixInsert_stop (n : ℕ) (node : Option Ptr) (L : Links K V) :
    LessDefined (fixInsert stop n node L) (fixInsert exit n node L) :=
  (fixInsertLoop_stop exit n node L).bind fun _ => .rfl

section Delete
variable (d : Side) (parent sibling : Option Ptr) (L : Links K V)

theorem redSibling_stop :
    LessDefined (redSibling stop d parent sibling L) (redSibling exit d parent sibling L) := by
  unfold redSibling
  refine .next fun c => .ite ?_ .rfl
  exact .next fun L₁ => .next fun L₂ => (rotate_stop exit d parent L₂).bind fun _ => .rfl

theorem innerNephew_stop :
    LessDefined (innerNephew stop d parent sibling L) (innerNephew exit d parent sibling L) := by
  unfold innerNephew
  refine .next fun c => .next fun black => .ite (.next fun c' => ?_) .rfl
  refine .ite (.next fun L₁ => ?_) (.next fun L₁ => ?_)
  all_goals exact .next fun L₂ => (rotate_stop exit d.other sibling L₂).bind fun _ => .rfl

theorem outerNephew_stop :
    LessDefined (outerNephew stop d parent sibling L) (outerNephew exit d parent sibling L) := by
  unfold outerNephew
  refine .next fun c => .next fun L₁ => .next fun L₂ => .next fun c' => ?_
  refine .ite (.next fun L₃ => ?_) (.next fun L₃ => ?_)
  all_goals exact rotate_stop exit d parent L₃

theorem blackSibling_stop
    {loop loop' : Option Ptr → Option Ptr → Links K V → Option (Option Ptr × Links K V)}
    (hloop : ∀ node parent L, LessDefined (loop node parent L) (loop' node parent L)) (node : Option Ptr) :
    LessDefined (blackSibling stop loop d node parent sibling L)
      (blackSibling exit loop' d node parent sibling L) := by
  unfold blackSibling
  refine .next fun c => .next fun c' => .next fun near => .next fun far => .ite ?_ ?_
  · exact .next fun L₁ => .next fun c => hloop parent _ L₁
  · refine (innerNephew_stop exit d parent sibling L).bind fun r => .ite .none ?_
    exact (outerNephew_stop exit d parent r.1 r.2).bind fun _ => .rfl

end Delete

theorem fixDeleteLoop_stop (n : ℕ) (node parent : Option Ptr) (L : Links K V) :
    LessDefined (fixDeleteLoop stop n node parent L) (fixDeleteLoop exit n node parent L) := by
  induction n generalizing node parent L with
  | zero => exact .rfl
  | succ n ih =>
    unfold fixDeleteLoop
    refine .ite .rfl (.next fun black => .ite .rfl (.ite .none ?_))
    refine .next fun c => .next fun c' => .ite .none ?_
    refine (redSibling_stop exit _ _ _ L).bind fun r => .ite .none ?_
    exact blackSibling_stop exit _ parent r.1 r.2 ih node

theorem fixDelete_stop (n : ℕ) (node parent : Option Ptr) (L : Links K V) :
    LessDefined (fixDelete stop n node parent L) (fixDelete exit n node parent L) := by
  unfold fixDelete
  exact .ite .rfl ((fixDeleteLoop_stop exit n node parent L).bind fun _ => .rfl)

theorem repair_stop (n : ℕ) (original : Color) (x parent : Option Ptr) (L : Links K V) :
    LessDefined (repair stop n original x parent L) (repair exit n original x parent L) := by
  unfold repair
  exact .ite (.ite .rfl (.ite .rfl (fixDelete_stop exit n x parent L))) .rfl

section Runs
variable [LinearOrder K]

theorem insertWith_stop (n : ℕ) (k : K) (v : V) (t : RedBlackTree K V) :
    LessDefined (insertWith stop n k v t) (insertWith exit n k v t) := by
  unfold insertWith
  refine .ite .rfl (.next fun place => ?_)
  rcases place with ⟨_ | current, parent⟩
  · refine .next fun c => .next fun L₁ => ?_
    exact (fixInsert_stop exit n (some t.next) L₁).bind fun _ => .rfl
  · exact .rfl

theorem removeWith_stop (n : ℕ) (k : K) (t : RedBlackTree K V) :
    LessDefined (removeWith stop n k t) (removeWith exit n k t) := by
  unfold removeWith
  refine .next fun node => ?_
  cases node with
  | none => exact .rfl
  | some node =>
    refine .next fun r => ?_
    exact (repair_stop exit n r.1 r.2.1 r.2.2.1 r.2.2.2).bind fun _ => .rfl

/-- After every run of calls the next `insert` and the next `remove` return what they return when
an exit stops the call, or does anything else: none is taken. -/
theorem run_exits_dead (ops : List (Op K V)) :
    ∃ t, run ops = some t ∧ ∀ (exit : Links K V → Option (Links K V)) (k : K),
      (∀ v, ∃ r, insertWith stop t.fuel k v t = some r ∧ insertWith exit t.fuel k v t = some r ∧ insert k v t = some r) ∧
        ∃ r, removeWith stop t.fuel k t = some r ∧ removeWith exit t.fuel k t = some r ∧ remove k t = some r := by
  obtain ⟨t, T, e, h, -⟩ := run_spec ops
  refine ⟨t, e, fun exit k => ⟨fun v => ?_, ?_⟩⟩
  · obtain ⟨t', e', -⟩ := insertWith_spec stop k v h
    exact ⟨_, e', insertWith_stop exit _ k v t _ e', insertWith_stop some _ k v t _ e'⟩
  · obtain ⟨t', e', -⟩ := removeWith_spec stop k h
    exact ⟨_, e', removeWith_stop exit _ k t _ e', removeWith_stop some _ k t _ e'⟩

end Runs

end LearnSpdk.RedBlackTree
