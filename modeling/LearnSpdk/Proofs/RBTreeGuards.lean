import LearnSpdk.Lib.LessDefined
import LearnSpdk.Spec.RBTree

/-! A call of `RBTree` that stops where a check fails is less defined than one in which the
checks do anything else. -/

namespace LearnSpdk.RBTree

open Lib

variable {T : Type} (nil : Ptr) (check : Check)

theorem Check.run_stop (b : Bool) : LessDefined (Check.stop.run b) (check.run b) := by
  cases b with
  | false => exact .none
  | true =>
    rw [Check.stop.run_true, check.run_true]
    exact .rfl

theorem rotate_stop (d : Side) (x : Option Ptr) (L : Links T T) :
    LessDefined (rotate nil .stop d x L) (rotate nil check d x L) :=
  .next fun _ => (check.run_stop _).bind fun _ => .rfl

theorem blackUncle_stop (d : Side) (z : Option Ptr) (L : Links T T) :
    LessDefined (blackUncle nil .stop d z L) (blackUncle nil check d z L) := by
  unfold blackUncle
  refine .next fun parent => .next fun c => .ite ?_ (.next fun r => ?_)
  -- the inner grandchild is rotated up first, the rest is the same
  on_goal 1 => refine (rotate_stop nil check d parent L).bind fun L₁ => .next fun r => ?_
  all_goals
    refine .next fun p => .next fun L₂ => .next fun p => .next fun g => .next fun L₃ => ?_
    exact .next fun p => .next fun g => (rotate_stop nil check _ g L₃).bind fun _ => .rfl

theorem insertFixupLoop_stop (n : ℕ) (z : Option Ptr) (L : Links T T) :
    LessDefined (insertFixupLoop nil .stop n z L) (insertFixupLoop nil check n z L) := by
  induction n generalizing z L with
  | zero => exact .rfl
  | succ n ih =>
    unfold insertFixupLoop
    refine .next fun parent => .ite .rfl (.next fun c => .ite .rfl ?_)
    refine .next fun grandparent => .next fun c => .next fun c' => .next fun red => .ite ?_ ?_
    · exact .next fun L₁ => .next fun L₂ => .next fun L₃ => .ite .rfl (ih grandparent L₃)
    · exact (blackUncle_stop nil check _ z L).bind fun r => .ite .rfl (ih r.1 r.2)

theorem insertFixup_stop (n : ℕ) (z : Option Ptr) (L : Links T T) :
    LessDefined (insertFixup nil .stop n z L) (insertFixup nil check n z L) :=
  (insertFixupLoop_stop nil check n z L).bind fun _ => .rfl

section Delete
variable (parent : Option Ptr) (d : Side) (x w : Option Ptr) (L : Links T T)

theorem redSibling_stop :
    LessDefined (redSibling nil .stop parent d x w L) (redSibling nil check parent d x w L) := by
  unfold redSibling
  refine .next fun c => .ite ?_ .rfl
  refine .next fun L₁ => .next fun p => .next fun L₂ => .next fun p => ?_
  refine (rotate_stop nil check d p L₂).bind fun L₃ => (check.run_stop _).bind fun _ => ?_
  exact .next fun p => .next fun c => (check.run_stop _).bind fun _ => .rfl

theorem innerNephew_stop :
    LessDefined (innerNephew nil .stop parent d x w L) (innerNephew nil check parent d x w L) := by
  unfold innerNephew
  refine .next fun c => .next fun far => .ite ?_ .rfl
  refine .next fun c => .next fun L₁ => .next fun L₂ => ?_
  refine (rotate_stop nil check d.other w L₂).bind fun L₃ => (check.run_stop _).bind fun _ => ?_
  exact .next fun p => .next fun c => (check.run_stop _).bind fun _ => .rfl

theorem outerNephew_stop :
    LessDefined (outerNephew nil .stop parent d x w L) (outerNephew nil check parent d x w L) := by
  unfold outerNephew
  refine .next fun p => .next fun c => .next fun L₁ => .next fun p => .next fun L₂ => ?_
  refine .next fun c => .next fun L₃ => .next fun p => ?_
  exact (rotate_stop nil check d p L₃).bind fun L₄ => (check.run_stop _).bind fun _ => .rfl

theorem blackSibling_stop :
    LessDefined (blackSibling nil .stop parent d x w L) (blackSibling nil check parent d x w L) := by
  unfold blackSibling
  refine .next fun c => .next fun near => .next fun c => .next fun far => .ite .rfl ?_
  refine (innerNephew_stop nil check parent d x w L).bind fun r => ?_
  exact (outerNephew_stop nil check parent d x r.1 r.2).bind fun _ => .rfl

end Delete

theorem deleteFixupLoop_stop (n : ℕ) (x : Option Ptr) (L : Links T T) :
    LessDefined (deleteFixupLoop nil .stop n x L) (deleteFixupLoop nil check n x L) := by
  induction n generalizing x L with
  | zero => exact .rfl
  | succ n ih =>
    unfold deleteFixupLoop
    refine .ite .rfl (.next fun c => .ite .rfl ?_)
    refine .next fun parent => .next fun c => (check.run_stop _).bind fun _ => ?_
    refine .next fun c => (check.run_stop _).bind fun _ => ?_
    refine (redSibling_stop nil check parent _ x _ L).bind fun r => ?_
    exact (blackSibling_stop nil check parent _ x r.1 r.2).bind fun r' => ih r'.1 r'.2

theorem repair_stop (n : ℕ) (original : Color) (x : Option Ptr) (L : Links T T) :
    LessDefined (repair nil .stop n original x L) (repair nil check n original x L) :=
  .ite ((deleteFixupLoop_stop nil check n x L).bind fun _ => .rfl) .rfl

variable [LinearOrder T]

theorem insertWith_stop (n : ℕ) (k v : T) (t : RBTree T) :
    LessDefined (insertWith .stop n k v t) (insertWith check n k v t) := by
  unfold insertWith
  refine .next fun existing => .ite .rfl (.next fun place => ?_)
  cases place with
  | none => exact .rfl
  | some y =>
    refine .ite (.next fun L₁ => ?_) (.next fun c => .next fun L₁ => ?_)
    all_goals
      refine .next fun parent => ?_
      cases parent with
      | none => exact .rfl
      | some parent =>
        refine .next fun grandparent => .ite .rfl ?_
        exact (insertFixup_stop t.nil check n (some t.next) L₁).bind fun _ => .rfl

theorem removeWith_stop (n : ℕ) (k : T) (t : RBTree T) :
    LessDefined (removeWith .stop n k t) (removeWith check n k t) := by
  unfold removeWith
  refine .next fun node => ?_
  cases node with
  | none => exact .rfl
  | some z =>
    refine .ite .rfl (.next fun r => (check.run_stop _).bind fun _ => ?_)
    exact (repair_stop t.nil check n r.1 r.2.1 r.2.2).bind fun _ => .rfl

end LearnSpdk.RBTree
