import LearnSpdk.Proofs.LockfreeQueue

/-! The shape of the lock-free queue under every schedule: a list from `head` on, with `tail`
at its end or one node before it. -/

namespace LearnSpdk

open Lib

namespace LockfreeQueue

open Shared

variable {ι T : Type} {moved : T → T} {s s' : Shared T} {E N : Prop} {p : Point T} {h t : ℕ}

/-- The links from `head` spell a list that `tail` is on, as its last node or the one before. -/
structure Shape (s : Shared T) : Prop where
  list : ∃ l, Spelled s.next s.head l ∧ s.tail ∈ l
  last : s.next s.tail = none ∨ ∃ m, s.next s.tail = some m ∧ s.next m = none

theorem Shared.Inv.shape (hs : s.Inv) : Shape s where
  list := ⟨_, hs.threaded.spelled hs.head_mem, mem_drop_idxOf hs.tail_mem hs.head_le⟩
  last := by
    cases hm : s.next s.tail with
    | none => exact .inl rfl
    | some m =>
      obtain ⟨-, hmem, hpos⟩ := hs.of_next hm
      have hlast := hs.tail_last
      have hle := pos_le hmem
      exact .inr ⟨m, rfl, (hs.next_eq_none hmem).2 (by omega)⟩

/-- `head` and `tail` stay, or go to the node behind. -/
structure Forward (s s' : Shared T) : Prop where
  head : s'.head = s.head ∨ s.next s.head = some s'.head
  tail : s'.tail = s.tail ∨ s.next s.tail = some s'.tail
  links : ∀ n m, s.next n = some m → s'.next n = some m

theorem Change.forward {o o' : Option ℕ} (hc : Change moved s o s' o') (hs : s.Inv) : Forward s s' := by
  have hnext := (hc.evolves hs).next
  cases hc with
  | stay => exact ⟨.inl rfl, .inl rfl, hnext⟩
  | move n => exact ⟨.inl rfl, .inl rfl, hnext⟩
  | make v => exact ⟨.inl rfl, .inl rfl, hnext⟩
  | link ht hlast => exact ⟨.inl rfl, .inl rfl, hnext⟩
  | swingTail _ hm => exact ⟨.inl rfl, .inr hm, hnext⟩
  | swingHead _ hm hlt => exact ⟨.inr hm, .inl rfl, hnext⟩

/-- If `dequeue` has read no node behind `head_ptr`, then `tail_ptr` is `head_ptr`. -/
def Point.Lone (p : Point T) : Prop := ∀ h t, p = .dequeue (.checkHead h t none) → h = t

/-- The node that was `tail` is not before the one that was `head`, which is the last one. -/
theorem eq_of_next_eq_none (hs : s.Inv) (hh : s.PastHead h) (ht : s.PastTail t) (hle : s.pos h ≤ s.pos t)
    (hnone : s.next h = none) : h = t := by
  have hlast := (hs.next_eq_none hh.1).1 hnone
  have hend := pos_le ht.1
  exact idxOf_inj hh.1 (le_antisymm hle (hend.trans hlast.ge))

theorem dequeueStep_lone {d : DequeuePoint T} (hs : s.Inv) (hd : d.Ok s E) (fails : Bool) :
    (dequeueStep moved fails s d).2.Lone := by
  intro h t heq
  cases d with
  | loadNext headPtr tailPtr =>
    obtain ⟨hh, ht, hle⟩ := hd
    obtain ⟨rfl, rfl, hnone⟩ : headPtr = h ∧ tailPtr = t ∧ s.next headPtr = none := by
      simpa [dequeueStep] using heq
    exact eq_of_next_eq_none hs hh ht hle hnone
  | checkHead headPtr tailPtr nextPtr =>
    cases nextPtr with
    | none =>
      simp only [dequeueStep] at heq
      split_ifs at heq <;> cases heq
    | some n =>
      simp only [dequeueStep] at heq
      split_ifs at heq <;> cases heq
  | swingHead headPtr nextPtr value =>
    simp only [dequeueStep] at heq
    split_ifs at heq
    cases heq
  | loadHead | loadTail | helpTail | moveData => cases heq

theorem act_lone (hs : s.Inv) (hok : p.Ok s E N) (hp : p.Lone) (a : Action ι T) :
    (act moved s p a).2.Lone := by
  cases a with
  | call i c =>
    by_cases hidle : p = .idle
    · subst hidle
      intro h t heq
      cases c <;> cases heq
    · rwa [act_call hidle]
  | advance i fails =>
    cases p with
    | dequeue d => exact dequeueStep_lone hs hok fails
    | enqueue newNode p =>
      intro h t heq
      cases p with
      | checkTail tailPtr nextPtr =>
        simp only [act, advance, enqueueStep] at heq
        split_ifs at heq
        cases nextPtr <;> cases heq
      | link tailPtr =>
        simp only [act, advance, enqueueStep] at heq
        split_ifs at heq
      | loadTail | loadNext | helpTail | swingTail => cases heq
    | empty p =>
      intro h t heq
      cases p with
      | loadTail headPtr =>
        simp only [act, advance, emptyStep] at heq
        split_ifs at heq
      | loadHead | loadNext => cases heq
    | idle | returns =>
      intro h t heq
      cases heq

variable [DecidableEq ι] [Inhabited T]

theorem run_lone (moved : T → T) (acts : List (Action ι T)) (i : ι) : ((run moved acts).point i).Lone := by
  induction acts using List.reverseRecOn generalizing i with
  | nil =>
    intro h t heq
    cases heq
  | append_singleton acts a ih =>
    have hsound := sound moved acts
    rw [run_snoc]
    by_cases hi : i = a.thread
    · subst hi
      rw [step_point]
      exact act_lone hsound.inv (hsound.ok a.thread) (ih a.thread) a
    · rw [step_point_of_ne hi]
      exact ih i

/-- After every schedule the queue has its shape, the next step moves `head` and `tail` along
the links or not at all, and no `dequeue` that has read different nodes as `head` and
`tail` has read no node behind the first. -/
theorem run_shape (moved : T → T) (acts : List (Action ι T)) :
    Shape (run moved acts).shared ∧
      (∀ a, Forward (run moved acts).shared (run moved (acts ++ [a])).shared) ∧
      ∀ i h t, (run moved acts).point i = .dequeue (.checkHead h t none) → h = t := by
  have hsound := sound moved acts
  exact ⟨hsound.inv.shape, fun a => (hsound.change a).forward hsound.inv, fun i => run_lone moved acts i⟩

end LockfreeQueue

end LearnSpdk
