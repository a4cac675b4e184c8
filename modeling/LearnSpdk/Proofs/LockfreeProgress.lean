import LearnSpdk.Lib.Tally
import LearnSpdk.Proofs.LockfreeShape

/-! Progress of the lock-free queue. A thread that runs alone returns after a few steps: its
next attempt finds what it has read unchanged, and at most one other step, the help for
`tail`, lies between two attempts. Another thread can only hold it up by a step that links
a node, moves `tail` or takes a node, and calls pay for those. -/

namespace LearnSpdk

open Lib

namespace LockfreeQueue

variable {ι T : Type} {moved : T → T} {s s' : Shared T} {p : Point T} {E N : Prop}

/-! ### A thread alone -/

namespace Shared

/-- The steps of the loop of `enqueue` until it returns, if no other thread runs. -/
def enqueueLoop (s : Shared T) : ℕ := if s.next s.tail = none then 5 else 9

def dequeueLoop (s : Shared T) : ℕ :=
  if s.head = s.tail then if s.next s.head = none then 4 else 11 else 6

theorem enqueueLoop_le (s : Shared T) : s.enqueueLoop ≤ 9 := by
  unfold enqueueLoop
  split <;> omega

theorem dequeueLoop_le (s : Shared T) : s.dequeueLoop ≤ 11 := by
  unfold dequeueLoop
  split_ifs <;> omega

end Shared

open Shared

/-- The steps from a point of `enqueue` until it returns, if no other thread runs. -/
def EnqueuePoint.left (s : Shared T) : EnqueuePoint → ℕ
  | .loadTail => s.enqueueLoop
  | .loadNext tailPtr => if tailPtr = s.tail then s.enqueueLoop - 1 else s.enqueueLoop + 2
  | .checkTail tailPtr nextPtr =>
    if tailPtr = s.tail then
      match nextPtr with
      | none => if s.next tailPtr = none then 3 else s.enqueueLoop + 2
      | some _ => 7
    else s.enqueueLoop + 1
  | .link tailPtr => if s.next tailPtr = none then 2 else s.enqueueLoop + 1
  | .helpTail tailPtr _ => if s.tail = tailPtr then 6 else s.enqueueLoop + 1
  | .swingTail _ => 1

def DequeuePoint.left (s : Shared T) : DequeuePoint T → ℕ
  | .loadHead => s.dequeueLoop
  | .loadTail headPtr => if headPtr = s.head then s.dequeueLoop - 1 else s.dequeueLoop + 3
  | .loadNext headPtr tailPtr =>
    if headPtr = s.head then
      if headPtr = tailPtr then
        if s.next headPtr = none then 2 else if s.tail = tailPtr then 9 else s.dequeueLoop + 3
      else 4
    else s.dequeueLoop + 2
  | .checkHead headPtr tailPtr nextPtr =>
    if headPtr = s.head then
      if headPtr = tailPtr then
        match nextPtr with
        | none => 1
        | some _ => if s.tail = tailPtr then 8 else s.dequeueLoop + 2
      else 3
    else s.dequeueLoop + 1
  | .helpTail tailPtr _ => if s.tail = tailPtr then 7 else s.dequeueLoop + 1
  | .moveData headPtr _ => if s.head = headPtr then 2 else s.dequeueLoop + 2
  | .swingHead headPtr _ _ => if s.head = headPtr then 1 else s.dequeueLoop + 1

def EmptyPoint.left : EmptyPoint → ℕ
  | .loadHead => 3
  | .loadTail _ => 2
  | .loadNext _ => 1

namespace Point

/-- The steps until the call returns, if no other thread runs. -/
def left (s : Shared T) : Point T → ℕ
  | .idle => 0
  | .enqueue _ p => p.left s
  | .dequeue p => p.left s
  | .empty p => p.left
  | .returns _ => 0

def busy : Point T → Bool
  | .idle => false
  | .returns _ => false
  | _ => true

def exchanges : Point T → Bool
  | .enqueue _ (.link _) => true
  | .enqueue _ (.helpTail _ _) => true
  | .enqueue _ (.swingTail _) => true
  | .dequeue (.helpTail _ _) => true
  | .dequeue (.swingHead _ _ _) => true
  | _ => false

theorem left_le (s : Shared T) (p : Point T) : p.left s ≤ 14 := by
  have he := s.enqueueLoop_le
  have hd := s.dequeueLoop_le
  cases p with
  | idle => simp [left]
  | returns r => simp [left]
  | empty p => cases p <;> simp [left, EmptyPoint.left]
  | enqueue newNode p =>
    cases p with
    | checkTail tailPtr nextPtr => cases nextPtr <;> simp only [left, EnqueuePoint.left] <;> split_ifs <;> omega
    | _ =>
      simp only [left, EnqueuePoint.left]
      (try split_ifs) <;> omega
  | dequeue p =>
    cases p with
    | checkHead headPtr tailPtr nextPtr =>
      cases nextPtr <;> simp only [left, DequeuePoint.left] <;> split_ifs <;> omega
    | _ =>
      simp only [left, DequeuePoint.left]
      (try split_ifs) <;> omega

end Point

/-- The links, `head` and `tail` are as before. -/
structure SameLinks (s s' : Shared T) : Prop where
  next : s'.next = s.next
  head : s'.head = s.head
  tail : s'.tail = s.tail

theorem SameLinks.refl (s : Shared T) : SameLinks s s := ⟨rfl, rfl, rfl⟩

theorem SameLinks.moveOut (s : Shared T) (n : ℕ) : SameLinks s (s.moveOut moved n) := ⟨next_moveOut, rfl, rfl⟩

theorem SameLinks.dequeue_left (h : SameLinks s s') (d : DequeuePoint T) : d.left s' = d.left s := by
  cases d <;> simp only [DequeuePoint.left, Shared.dequeueLoop, h.next, h.head, h.tail]

theorem SameLinks.left (h : SameLinks s s') (p : Point T) : p.left s' = p.left s := by
  cases p with
  | idle => rfl
  | returns r => rfl
  | empty q => rfl
  | dequeue d => exact h.dequeue_left d
  | enqueue newNode e =>
    cases e <;> simp only [Point.left, EnqueuePoint.left, Shared.enqueueLoop, h.next, h.tail]

/-- Help for `tail` leaves it at the last node. -/
theorem Shared.Inv.next_of_next_tail {m : ℕ} (hs : s.Inv) (hm : s.next s.tail = some m) : s.next m = none := by
  obtain ⟨-, hmem, hpos⟩ := hs.of_next hm
  have hle := pos_le hmem
  have hlast := hs.tail_last
  rw [hs.next_eq_none hmem]
  omega

theorem Shared.Inv.head_ne_of_next_tail {m : ℕ} (hs : s.Inv) (hm : s.next s.tail = some m) : s.head ≠ m := by
  obtain ⟨-, -, hpos⟩ := hs.of_next hm
  have hle := hs.head_le
  rintro rfl
  omega

theorem enqueueStep_left {e : EnqueuePoint} {n : ℕ} (hs : s.Inv) (hp : e.Ok s n) :
    (enqueueStep false n s e).2.left (enqueueStep false n s e).1 + 1 ≤ e.left s := by
  cases e with
  | loadTail =>
    have hpos : 0 < s.enqueueLoop := by
      unfold Shared.enqueueLoop
      split <;> omega
    simp only [enqueueStep, Point.left, EnqueuePoint.left, if_true]
    omega
  | loadNext tailPtr =>
    simp only [enqueueStep, Point.left, EnqueuePoint.left]
    by_cases ht : tailPtr = s.tail
    · subst ht
      obtain hnext | ⟨m, hnext⟩ := Option.eq_none_or_eq_some (s.next s.tail)
      · simp [Shared.enqueueLoop, hnext]
      · simp [Shared.enqueueLoop, hnext]
    · simp [ht]
  | checkTail tailPtr nextPtr =>
    simp only [enqueueStep, EnqueuePoint.left]
    by_cases ht : tailPtr = s.tail
    · rw [if_pos ht, if_pos ht]
      cases nextPtr with
      | none =>
        simp only [Point.left, EnqueuePoint.left]
        split_ifs <;> omega
      | some m =>
        simp only [Point.left, EnqueuePoint.left, if_pos ht.symm]
        omega
    · rw [if_neg ht, if_neg ht]
      simp [Point.left, EnqueuePoint.left]
  | link tailPtr =>
    simp only [enqueueStep, EnqueuePoint.left]
    by_cases hnext : s.next tailPtr = none
    · simp [hnext, Point.left, EnqueuePoint.left]
    · simp [hnext, Point.left, EnqueuePoint.left]
  | helpTail tailPtr nextPtr =>
    simp only [enqueueStep, EnqueuePoint.left, Point.left, casTail]
    by_cases ht : s.tail = tailPtr
    · subst ht
      have hloop : ({ s with tail := nextPtr } : Shared T).enqueueLoop = 5 := if_pos (hs.next_of_next_tail hp)
      simp [hloop]
    · simp [ht]
  | swingTail tailPtr => simp [enqueueStep, EnqueuePoint.left, Point.left]

theorem dequeueStep_left {d : DequeuePoint T} (hs : s.Inv) (hp : d.Ok s E) (hlone : (Point.dequeue d).Lone) :
    (dequeueStep moved false s d).2.left (dequeueStep moved false s d).1 + 1 ≤ d.left s := by
  cases d with
  | loadHead =>
    have hpos : 0 < s.dequeueLoop := by
      unfold Shared.dequeueLoop
      split_ifs <;> omega
    simp only [dequeueStep, Point.left, DequeuePoint.left, if_true]
    omega
  | loadTail headPtr =>
    simp only [dequeueStep, Point.left, DequeuePoint.left]
    by_cases hh : headPtr = s.head
    · subst hh
      simp only [if_true, Shared.dequeueLoop]
      split_ifs <;> omega
    · simp [hh]
  | loadNext headPtr tailPtr =>
    change (DequeuePoint.checkHead headPtr tailPtr (s.next headPtr)).left s + 1 ≤ _
    simp only [DequeuePoint.left]
    by_cases hh : headPtr = s.head
    · rw [if_pos hh, if_pos hh]
      by_cases ht : headPtr = tailPtr
      · rw [if_pos ht, if_pos ht]
        obtain hnext | ⟨m, hnext⟩ := Option.eq_none_or_eq_some (s.next headPtr)
        · simp [hnext]
        · simp only [hnext, reduceCtorEq, if_false]
          split_ifs <;> omega
      · rw [if_neg ht, if_neg ht]
    · simp [hh]
  | checkHead headPtr tailPtr nextPtr =>
    simp only [dequeueStep, DequeuePoint.left]
    by_cases hh : headPtr = s.head
    · rw [if_pos hh, if_pos hh]
      by_cases ht : headPtr = tailPtr
      · rw [if_pos ht, if_pos ht]
        cases nextPtr with
        | none => simp [Point.left]
        | some m =>
          simp only [Point.left, DequeuePoint.left]
          split_ifs <;> omega
      · rw [if_neg ht, if_neg ht]
        cases nextPtr with
        | none => exact absurd (hlone _ _ rfl) ht
        | some m => simp [Point.left, DequeuePoint.left, hh]
    · simp [hh, Point.left, DequeuePoint.left]
  | helpTail tailPtr nextPtr =>
    simp only [dequeueStep, DequeuePoint.left, Point.left, casTail]
    by_cases ht : s.tail = tailPtr
    · subst ht
      have hne : s.head ≠ nextPtr := hs.head_ne_of_next_tail hp
      simp [Shared.dequeueLoop, hne]
    · simp [ht]
  | moveData headPtr nextPtr =>
    change (DequeuePoint.swingHead headPtr nextPtr (s.heap nextPtr).data).left (s.moveOut moved nextPtr) + 1 ≤ _
    rw [(SameLinks.moveOut s nextPtr).dequeue_left]
    simp only [DequeuePoint.left]
    split_ifs <;> omega
  | swingHead headPtr nextPtr value =>
    simp only [dequeueStep, DequeuePoint.left]
    by_cases hh : s.head = headPtr
    · simp [hh, Point.left]
    · simp [hh, Point.left, DequeuePoint.left]

theorem advance_left (moved : T → T) (hs : s.Inv) (hok : p.Ok s E N) (hlone : p.Lone) (hbusy : p.busy = true) :
    (advance moved false s p).2.left (advance moved false s p).1 + 1 ≤ p.left s := by
  cases p with
  | idle => cases hbusy
  | returns r => cases hbusy
  | enqueue newNode e => exact enqueueStep_left hs hok
  | dequeue d => exact dequeueStep_left hs hok hlone
  | empty q =>
    cases q with
    | loadHead => simp [advance, emptyStep, Point.left, EmptyPoint.left]
    | loadTail headPtr =>
      simp only [advance, emptyStep]
      split_ifs <;> simp [Point.left, EmptyPoint.left]
    | loadNext headPtr => simp [advance, emptyStep, Point.left, EmptyPoint.left]

theorem advance_busy_or_returns (moved : T → T) (s : Shared T) (fails : Bool) (hbusy : p.busy = true) :
    (advance moved fails s p).2.busy = true ∨ ∃ r, (advance moved fails s p).2 = .returns r := by
  cases p with
  | idle => cases hbusy
  | returns r => cases hbusy
  | enqueue newNode e =>
    cases e with
    | checkTail tailPtr nextPtr =>
      simp only [advance, enqueueStep]
      split_ifs
      · cases nextPtr <;> exact .inl rfl
      · exact .inl rfl
    | link tailPtr =>
      simp only [advance, enqueueStep]
      split_ifs <;> exact .inl rfl
    | swingTail tailPtr => exact .inr ⟨_, rfl⟩
    | _ => exact .inl rfl
  | dequeue d =>
    cases d with
    | checkHead headPtr tailPtr nextPtr =>
      simp only [advance, dequeueStep]
      split_ifs
      · cases nextPtr with
        | none => exact .inr ⟨_, rfl⟩
        | some m => exact .inl rfl
      · cases nextPtr <;> exact .inl rfl
      · exact .inl rfl
    | swingHead headPtr nextPtr value =>
      simp only [advance, dequeueStep]
      split_ifs
      · exact .inr ⟨_, rfl⟩
      · exact .inl rfl
    | _ => exact .inl rfl
  | empty q =>
    cases q with
    | loadHead => exact .inl rfl
    | loadTail headPtr =>
      simp only [advance, emptyStep]
      split_ifs
      · exact .inl rfl
      · exact .inr ⟨_, rfl⟩
    | loadNext headPtr => exact .inr ⟨_, rfl⟩

section Alone
variable [DecidableEq ι] [Inhabited T]

theorem run_alone (moved : T → T) (i : ι) (n : ℕ) (acts : List (Action ι T))
    (hle : ((run moved acts).point i).left (run moved acts).shared ≤ n)
    (hbusy : ((run moved acts).point i).busy = true) :
    ∃ k ≤ n, ∃ r, (run moved (acts ++ List.replicate k (.advance i false))).point i = .returns r := by
  induction n generalizing acts with
  | zero =>
    have := advance_left moved (sound moved acts).inv ((sound moved acts).ok i) (run_lone moved acts i) hbusy
    omega
  | succ n ih =>
    have hleft := advance_left moved (sound moved acts).inv ((sound moved acts).ok i) (run_lone moved acts i) hbusy
    have hpoint : (run moved (acts ++ [.advance i false])).point i =
        (advance moved false (run moved acts).shared ((run moved acts).point i)).2 := by
      rw [run_snoc]
      exact step_point (.advance i false) _
    have hshared : (run moved (acts ++ [.advance i false])).shared =
        (advance moved false (run moved acts).shared ((run moved acts).point i)).1 := by
      rw [run_snoc]
      rfl
    rcases advance_busy_or_returns moved (run moved acts).shared false hbusy with hb | ⟨r, hr⟩
    · obtain ⟨k, hk, r, hr⟩ := ih (acts ++ [.advance i false]) (by rw [hpoint, hshared]; omega)
        (by rw [hpoint]; exact hb)
      refine ⟨k + 1, by omega, r, ?_⟩
      rwa [List.replicate_succ, ← List.singleton_append, ← List.append_assoc]
    · exact ⟨1, by omega, r, by rw [List.replicate_one, hpoint, hr]⟩

/-- From every state that a schedule reaches, a thread in a call that runs on alone, with no
exchange failing without reason, comes to its return within 14 steps. -/
theorem run_alone_returns (moved : T → T) (acts : List (Action ι T)) (i : ι)
    (hbusy : ((run moved acts).point i).busy = true) :
    ∃ k ≤ 14, ∃ r, (run moved (acts ++ List.replicate k (.advance i false))).point i = .returns r :=
  run_alone moved i 14 acts (Point.left_le _ _) hbusy

/-- An `enqueue` that has linked its node and has yet to move `tail`, and then a `dequeue`. -/
def lagging : List (Action Bool ℕ) :=
  .call false (.enqueue 7) :: List.replicate 4 (.advance false false) ++ [.call true .dequeue]

theorem run_alone_returns_in_dequeue :
    (run id lagging).shared.tail = 0 ∧ (run id lagging).shared.next 0 = some 1 ∧
      ∃ k ≤ 14, ∃ r, (run id (lagging ++ List.replicate k (.advance true false))).point true = .returns r :=
  ⟨rfl, rfl, run_alone_returns id lagging true rfl⟩

end Alone

/-! ### All threads together -/

/-- The changes of the links, of `tail` and of `head` that a call has still to pay for. -/
def Point.owes : Point T → ℕ
  | .enqueue _ (.swingTail _) => 0
  | .enqueue _ _ => 2
  | .dequeue _ => 1
  | _ => 0

/-- How far `tail` is from the last node. -/
def Shared.gap (s : Shared T) : ℕ := s.linked.length - s.pos s.tail

theorem casTail_pays {m t : ℕ} (hs : s.Inv) (hm : s.next t = some m) (fails : Bool) :
    s.casTail fails t m = s ∨ (s.casTail fails t m).gap + 1 = s.gap := by
  unfold casTail
  split_ifs with hcas
  · right
    rw [← hcas.2] at hm
    obtain ⟨-, hmem, hpos⟩ := hs.of_next hm
    have hle := pos_le hmem
    change s.linked.length - s.pos m + 1 = s.linked.length - s.pos s.tail
    omega
  · exact .inl rfl

/-- A step leaves the links alone and owes no more, or it is paid for. -/
def Pays (s : Shared T) (p : Point T) (r : Shared T × Point T) : Prop :=
  (SameLinks s r.1 ∧ r.1.gap = s.gap ∧ r.2.owes ≤ p.owes) ∨ r.2.owes + r.1.gap + 1 ≤ p.owes + s.gap

theorem Pays.same {q : Point T} (h : q.owes ≤ p.owes) : Pays s p (s, q) := .inl ⟨.refl s, rfl, h⟩

theorem Pays.casTail {q : Point T} {m t : ℕ} (hs : s.Inv) (hm : s.next t = some m) (fails : Bool)
    (h : q.owes ≤ p.owes) : Pays s p (s.casTail fails t m, q) := by
  rcases casTail_pays hs hm fails with heq | hgap
  · rw [heq]
    exact .same h
  · right
    dsimp only
    omega

theorem enqueueStep_pays {e : EnqueuePoint} {n : ℕ} (hs : s.Inv) (hp : e.Ok s n) (fails : Bool) :
    Pays s (.enqueue n e) (enqueueStep fails n s e) := by
  cases e with
  | loadTail => exact .same (le_refl _)
  | loadNext tailPtr => exact .same (le_refl _)
  | checkTail tailPtr nextPtr =>
    simp only [enqueueStep]
    split_ifs
    · cases nextPtr <;> exact .same (le_refl _)
    · exact .same (le_refl _)
  | link tailPtr =>
    simp only [enqueueStep]
    split_ifs with hcas
    · right
      have hle := pos_le hs.tail_mem
      have hgap : (s.setNext tailPtr n).gap = s.gap + 1 := by
        change (s.linked ++ [n]).length - (s.setNext tailPtr n).pos s.tail = s.linked.length - s.pos s.tail + 1
        rw [pos_setNext hs.tail_mem, List.length_append, List.length_singleton]
        omega
      simp only [Point.owes, hgap]
      omega
    · exact .same (le_refl _)
  | helpTail tailPtr nextPtr => exact .casTail hs hp fails (le_refl _)
  | swingTail tailPtr => exact .casTail hs hp fails (le_refl _)

theorem dequeueStep_pays (moved : T → T) {d : DequeuePoint T} (hs : s.Inv) (hp : d.Ok s E) (fails : Bool) :
    Pays s (.dequeue d) (dequeueStep moved fails s d) := by
  cases d with
  | loadHead => exact .same (le_refl _)
  | loadTail headPtr => exact .same (le_refl _)
  | loadNext headPtr tailPtr => exact .same (le_refl _)
  | checkHead headPtr tailPtr nextPtr =>
    simp only [dequeueStep]
    split_ifs
    · cases nextPtr with
      | none => exact .same (Nat.zero_le _)
      | some m => exact .same (le_refl _)
    · cases nextPtr <;> exact .same (le_refl _)
    · exact .same (le_refl _)
  | helpTail tailPtr nextPtr => exact .casTail hs hp fails (le_refl _)
  | moveData headPtr nextPtr => exact .inl ⟨.moveOut s nextPtr, rfl, le_refl _⟩
  | swingHead headPtr nextPtr value =>
    simp only [dequeueStep]
    split_ifs
    · right
      have hgap : (s.setHead nextPtr).gap = s.gap := rfl
      simp only [Point.owes, hgap]
      omega
    · exact .same (le_refl _)

theorem emptyStep_pays (s : Shared T) (q : EmptyPoint) : Pays s (.empty q) (emptyStep s q) := by
  cases q with
  | loadHead => exact .same (le_refl _)
  | loadTail headPtr =>
    simp only [emptyStep]
    split_ifs <;> exact .same (le_refl _)
  | loadNext headPtr => exact .same (le_refl _)

theorem advance_pays (moved : T → T) (hs : s.Inv) (hok : p.Ok s E N) (fails : Bool) (hbusy : p.busy = true) :
    Pays s p (advance moved fails s p) := by
  cases p with
  | idle => cases hbusy
  | returns r => cases hbusy
  | enqueue newNode e => exact enqueueStep_pays hs hok fails
  | dequeue d => exact dequeueStep_pays moved hs hok fails
  | empty q => exact emptyStep_pays s q

theorem advance_of_not_exchanges (moved : T → T) (s : Shared T) (fails : Bool) (hp : p.exchanges = false) :
    advance moved fails s p = advance moved false s p := by
  cases p with
  | idle => rfl
  | returns r => rfl
  | empty q => rfl
  | enqueue newNode e => cases e <;> first | rfl | cases hp
  | dequeue d => cases d <;> first | rfl | cases hp

section Counts

def inCall (s : State ι T) : Action ι T → ℕ
  | .call _ _ => 0
  | .advance i _ => (s.point i).busy.toNat

def starts (s : State ι T) : Action ι T → ℕ
  | .call i _ =>
    match s.point i with
    | .idle => 1
    | _ => 0
  | .advance _ _ => 0

def finishes (moved : T → T) (s : State ι T) : Action ι T → ℕ
  | .call _ _ => 0
  | .advance i fails => ((s.point i).busy && !(advance moved fails s.shared (s.point i)).2.busy).toNat

def spurious (s : State ι T) : Action ι T → ℕ
  | .call _ _ => 0
  | .advance i fails => ((s.point i).exchanges && fails).toNat

variable [Fintype ι]

/-- What the calls have still to do: each change that they have to pay for can send every
thread back to the start of its loop. -/
def work (s : State ι T) : ℕ :=
  (∑ j, (s.point j).owes + s.shared.gap) * (14 * Fintype.card ι + 1) + ∑ j, (s.point j).left s.shared

variable [DecidableEq ι]

theorem work_update {S : State ι T} {q : Point T} {i : ι} (hsame : SameLinks S.shared s')
    (hgap : s'.gap = S.shared.gap) :
    work ⟨s', Function.update S.point i q⟩ +
        ((S.point i).owes * (14 * Fintype.card ι + 1) + (S.point i).left S.shared) =
      work S + (q.owes * (14 * Fintype.card ι + 1) + q.left s') := by
  have h₁ := sum_update_add (p := S.point) (i := i) (q := q) (F := Point.owes) (G := Point.owes) fun _ _ => rfl
  have h₂ := sum_update_add (p := S.point) (i := i) (q := q) (F := Point.left S.shared) (G := Point.left s')
    fun j _ => hsame.left _
  have hmul : (∑ j, (Function.update S.point i q j).owes + s'.gap) * (14 * Fintype.card ι + 1) +
        (S.point i).owes * (14 * Fintype.card ι + 1) =
      (∑ j, (S.point j).owes + S.shared.gap) * (14 * Fintype.card ι + 1) +
        q.owes * (14 * Fintype.card ι + 1) := by
    rw [← Nat.add_mul, ← Nat.add_mul]
    congr 1
    omega
  unfold work
  dsimp only
  omega

theorem work_step_paid {S : State ι T} {q : Point T} {i : ι}
    (hpaid : q.owes + s'.gap + 1 ≤ (S.point i).owes + S.shared.gap) :
    work ⟨s', Function.update S.point i q⟩ + 1 ≤ work S := by
  have h₁ := sum_update_add (p := S.point) (i := i) (q := q) (F := Point.owes) (G := Point.owes) fun _ _ => rfl
  have h₂ : ∑ j, (Function.update S.point i q j).left s' ≤ Fintype.card ι * 14 :=
    sum_le_card_mul fun j => Point.left_le _ _
  have hmul : (∑ j, (Function.update S.point i q j).owes + s'.gap + 1) * (14 * Fintype.card ι + 1) ≤
      (∑ j, (S.point j).owes + S.shared.gap) * (14 * Fintype.card ι + 1) := by
    apply Nat.mul_le_mul_right
    omega
  rw [Nat.add_mul _ 1] at hmul
  unfold work
  dsimp only
  omega

theorem work_advance {S : State ι T} {i : ι} (moved : T → T) (hs : S.shared.Inv)
    (hok : (S.point i).Ok S.shared E N) (hlone : (S.point i).Lone) (fails : Bool) :
    work (step moved (.advance i fails) S) + inCall S (.advance i fails) ≤
      work S + 15 * spurious S (.advance i fails) := by
  change work ⟨(advance moved fails S.shared (S.point i)).1,
    Function.update S.point i (advance moved fails S.shared (S.point i)).2⟩ + (S.point i).busy.toNat ≤
      work S + 15 * ((S.point i).exchanges && fails).toNat
  cases hbusy : (S.point i).busy with
  | false =>
    -- at its return or in no call: the thread changes nothing that counts
    cases hp : S.point i with
    | idle =>
      have := work_update (i := i) (q := .idle) (.refl S.shared) rfl
      simp only [hp, Point.owes, Point.left] at this
      simp only [advance, Bool.toNat_false]
      omega
    | returns r =>
      have := work_update (i := i) (q := .idle) (.refl S.shared) rfl
      simp only [hp, Point.owes, Point.left] at this
      simp only [advance, Bool.toNat_false]
      omega
    | enqueue newNode e => simp [hp, Point.busy] at hbusy
    | dequeue d => simp [hp, Point.busy] at hbusy
    | empty q => simp [hp, Point.busy] at hbusy
  | true =>
    rw [Bool.toNat_true]
    rcases advance_pays moved hs hok fails hbusy with ⟨hsame, hgap, howes⟩ | hpaid
    · have hwork := work_update (i := i) (q := (advance moved fails S.shared (S.point i)).2) hsame hgap
      have hmul := Nat.mul_le_mul_right (14 * Fintype.card ι + 1) howes
      cases hex : (S.point i).exchanges && fails with
      | true =>
        have hle := Point.left_le (advance moved fails S.shared (S.point i)).1
          (advance moved fails S.shared (S.point i)).2
        rw [Bool.toNat_true]
        omega
      | false =>
        have hfalse : advance moved fails S.shared (S.point i) = advance moved false S.shared (S.point i) := by
          rcases Bool.and_eq_false_iff.1 hex with hex | rfl
          · exact advance_of_not_exchanges moved S.shared fails hex
          · rfl
        have hleft := advance_left moved hs hok hlone hbusy
        rw [← hfalse] at hleft
        omega
    · have := work_step_paid hpaid
      omega

theorem work_call {S : State ι T} (moved : T → T) (hs : S.shared.Inv) (i : ι) (c : Call T) :
    work (step moved (.call i c) S) ≤ work S + (28 * Fintype.card ι + 16) * starts S (.call i c) := by
  by_cases hidle : S.point i = .idle
  · have hstarts : starts S (.call i c) = 1 := by simp [starts, hidle]
    have hsame : SameLinks S.shared (begin S.shared c).1 ∧ (begin S.shared c).1.gap = S.shared.gap := by
      cases c with
      | enqueue value =>
        have hsize : S.shared.next S.shared.size = none :=
          hs.unlinked _ fun hmem => lt_irrefl _ (hs.lt _ hmem)
        exact ⟨⟨next_makeNode hsize, rfl, rfl⟩, rfl⟩
      | dequeue => exact ⟨.refl _, rfl⟩
      | empty => exact ⟨.refl _, rfl⟩
    have howes : (begin S.shared c).2.owes ≤ 2 := by cases c <;> simp [begin, Point.owes]
    have hmul := Nat.mul_le_mul_right (14 * Fintype.card ι + 1) howes
    have hle := Point.left_le (begin S.shared c).1 (begin S.shared c).2
    have hwork := work_update (i := i) (q := (begin S.shared c).2) hsame.1 hsame.2
    have hstep : step moved (.call i c) S =
        ⟨(begin S.shared c).1, Function.update S.point i (begin S.shared c).2⟩ := by
      simp only [step, Action.thread, hidle, act]
    rw [hstep, hstarts]
    omega
  · have hstep : step moved (.call i c) S = S := by
      simp only [step, Action.thread, act_call hidle]
      rw [Function.update_eq_self]
    rw [hstep]
    omega

def free (s : State ι T) : ℕ := ∑ j, (!(s.point j).busy).toNat

theorem free_step (moved : T → T) (S : State ι T) (a : Action ι T) :
    free (step moved a S) + starts S a ≤ free S + finishes moved S a := by
  have hupdate (q : Point T) : ∑ j, (!(Function.update S.point a.thread q j).busy).toNat +
      (!(S.point a.thread).busy).toNat = free S + (!q.busy).toNat :=
    sum_update_add (F := fun p : Point T => (!p.busy).toNat) (G := fun p : Point T => (!p.busy).toNat)
      fun _ _ => rfl
  have hstep := hupdate (act moved S.shared (S.point a.thread) a).2
  change free (step moved a S) + _ = _ at hstep
  cases a with
  | call i c =>
    by_cases hidle : S.point i = .idle
    · have hbusy : (begin S.shared c).2.busy = true := by cases c <;> rfl
      have hfree : (Point.idle : Point T).busy = false := rfl
      simp only [Action.thread, hidle, act, hbusy, hfree, Bool.not_false, Bool.toNat_true, Bool.not_true,
        Bool.toNat_false] at hstep
      simp only [starts, hidle, finishes]
      omega
    · have hstarts : starts S (.call i c) = 0 := by
        simp only [starts]
      simp only [Action.thread, act_call hidle] at hstep
      rw [hstarts]
      omega
  | advance i fails =>
    simp only [Action.thread, act] at hstep
    simp only [starts, finishes]
    cases hbusy : (S.point i).busy with
    | true =>
      simp only [hbusy, Bool.not_true, Bool.toNat_false, Bool.true_and] at hstep ⊢
      omega
    | false =>
      have hle := Bool.toNat_le (!(advance moved fails S.shared (S.point i)).2.busy)
      simp only [hbusy, Bool.not_false, Bool.toNat_true, Bool.false_and, Bool.toNat_false] at hstep ⊢
      omega

end Counts

section Runs
variable [DecidableEq ι] [Inhabited T] [Fintype ι]

theorem work_snoc (moved : T → T) (acts : List (Action ι T)) (a : Action ι T) :
    work (step moved a (run moved acts)) + inCall (run moved acts) a ≤
      work (run moved acts) + ((28 * Fintype.card ι + 16) * starts (run moved acts) a +
        15 * spurious (run moved acts) a) := by
  have hs := sound moved acts
  cases a with
  | call i c =>
    have := work_call moved hs.inv i c
    simpa [inCall, spurious] using this
  | advance i fails =>
    have := work_advance moved hs.inv (hs.ok i) (run_lone moved acts i) fails
    simpa [starts] using this

/-- The calls that were started are those that came to their return and those that threads
are in. -/
theorem starts_le_finishes (moved : T → T) (acts : List (Action ι T)) :
    tally (step moved) starts (initial ι T) acts ≤
      Fintype.card ι + tally (step moved) (finishes moved) (initial ι T) acts := by
  have hfree := tally_le free (fun acts a => free_step moved (sched (step moved) (initial ι T) acts) a) acts
  have hinit : free (initial ι T) = Fintype.card ι := by simp [free, initial, Point.busy]
  omega

/-- However the scheduler picks the threads, the steps that they make in calls are bounded by
the calls that come to their return, and by the exchanges that fail without reason: threads
that go on making steps complete calls. -/
theorem run_lock_free (moved : T → T) (acts : List (Action ι T)) :
    tally (step moved) inCall (initial ι T) acts ≤
      (28 * Fintype.card ι + 16) *
          (Fintype.card ι + tally (step moved) (finishes moved) (initial ι T) acts) +
        15 * tally (step moved) spurious (initial ι T) acts := by
  have hzero : work (initial ι T) = 0 := by
    simp [work, initial, Point.owes, Point.left, Shared.gap]
  have hwork : work (run moved acts) + tally (step moved) inCall (initial ι T) acts ≤
      work (initial ι T) + tally (step moved) (fun s a => (28 * Fintype.card ι + 16) * starts s a +
        15 * spurious s a) (initial ι T) acts := tally_le work (work_snoc moved) acts
  rw [hzero, tally_add, tally_mul, tally_mul] at hwork
  have hmul := Nat.mul_le_mul_left (28 * Fintype.card ι + 16) (starts_le_finishes moved acts)
  omega

end Runs

end LockfreeQueue

end LearnSpdk
