import LearnSpdk.Proofs.LockfreeQueue
import Mathlib.Tactic.IntervalCases

/-! Payloads through the lock-free queue. `dequeue` moves the payload out of the node before
the exchange that makes the node its own; a `dequeue` that fails there leaves the node
with what a move leaves behind, for the next one to deliver. -/

namespace LearnSpdk

open Lib

namespace LockfreeQueue

open Shared

variable {ι T : Type} {moved : T → T} {s s' : Shared T} {E N : Prop} {p : Point T}

namespace Point

/-- The payload that a `dequeue` has taken out of a node. -/
def hand : Point T → Option (ℕ × T)
  | .dequeue (.swingHead _ nextPtr value) => some (nextPtr, value)
  | .returns (.dequeue taken) => taken
  | _ => none

/-- A `dequeue` that has yet to take the node `n` and whose move has changed the value in it. -/
def Spoils (moved : T → T) (n : ℕ) : Point T → Prop
  | .dequeue (.swingHead _ nextPtr value) => nextPtr = n ∧ moved value ≠ value
  | _ => False

theorem Ok.hand_lt (hp : p.Ok s E N) (hs : s.Inv) {n : ℕ} {v : T} (hhand : p.hand = some (n, v)) :
    n < s.size := by
  match p with
  | .dequeue (.swingHead headPtr nextPtr value) =>
    have hnext : s.next headPtr = some nextPtr := hp.1
    cases hhand
    exact hs.lt _ (hs.of_next hnext).2.1
  | .returns (.dequeue taken) =>
    obtain rfl : taken = some (n, v) := hhand
    exact hs.lt n (List.mem_cons_of_mem _ (hs.taken.subset hp))
  | .idle | .enqueue _ _ | .empty _ | .returns (.enqueue _) | .returns (.empty _) | .dequeue .loadHead
  | .dequeue (.loadTail _) | .dequeue (.loadNext _ _) | .dequeue (.checkHead _ _ _)
  | .dequeue (.helpTail _ _) | .dequeue (.moveData _ _) => cases hhand

end Point

/-- What a step makes of the payloads, if it takes no node. -/
inductive Handles (moved : T → T) (s : Shared T) : Point T → Shared T × Point T → Prop where
  | stay (p : Point T) : Handles moved s p (s, p)
  | rest {p q : Point T} {s' : Shared T} (hp : ∀ n, ¬p.Spoils moved n) (hq : q.hand = none)
    (htaken : s'.taken = s.taken) (hheap : ∀ n, (s'.heap n).data = (s'.heap n).given ∨
      (s'.heap n).data = (s.heap n).data ∧ (s'.heap n).given = (s.heap n).given) :
    Handles moved s p (s', q)
  | move (headPtr nextPtr : ℕ) :
    Handles moved s (.dequeue (.moveData headPtr nextPtr))
      (s.moveOut moved nextPtr, .dequeue (.swingHead headPtr nextPtr (s.heap nextPtr).data))

theorem Handles.quiet {q : Point T} (hp : ∀ n, ¬p.Spoils moved n) (hq : q.hand = none) : Handles moved s p (s, q) :=
  .rest hp hq rfl fun _ => .inr ⟨rfl, rfl⟩

theorem Handles.casTail {q : Point T} (hp : ∀ n, ¬p.Spoils moved n) (hq : q.hand = none) (fails : Bool) (t m : ℕ) :
    Handles moved s p (s.casTail fails t m, q) := by
  unfold Shared.casTail
  split
  · exact .rest hp hq rfl fun _ => .inr ⟨rfl, rfl⟩
  · exact .quiet hp hq

theorem Handles.setNext {q : Point T} (hp : ∀ n, ¬p.Spoils moved n) (hq : q.hand = none) (t m : ℕ) :
    Handles moved s p (s.setNext t m, q) := by
  refine .rest hp hq rfl fun n => .inr ?_
  by_cases hn : n = t
  · subst hn
    simp [Shared.setNext]
  · simp [Shared.setNext, hn]

theorem Handles.makeNode {q : Point T} (hp : ∀ n, ¬p.Spoils moved n) (hq : q.hand = none) (v : T) :
    Handles moved s p (s.makeNode v, q) := by
  refine .rest hp hq rfl fun n => ?_
  by_cases hn : n = s.size
  · subst hn
    simp [Shared.makeNode]
  · exact .inr (by simp [Shared.makeNode, hn])

theorem enqueueStep_handles (fails : Bool) (newNode : ℕ) (e : EnqueuePoint) :
    Handles moved s (.enqueue newNode e) (enqueueStep fails newNode s e) := by
  cases e with
  | loadTail => exact .quiet (fun _ => id) rfl
  | loadNext tailPtr => exact .quiet (fun _ => id) rfl
  | checkTail tailPtr nextPtr =>
    simp only [enqueueStep]
    split_ifs
    · cases nextPtr <;> exact .quiet (fun _ => id) rfl
    · exact .quiet (fun _ => id) rfl
  | link tailPtr =>
    simp only [enqueueStep]
    split_ifs
    · exact .setNext (fun _ => id) rfl _ _
    · exact .quiet (fun _ => id) rfl
  | helpTail tailPtr nextPtr => exact .casTail (fun _ => id) rfl _ _ _
  | swingTail tailPtr => exact .casTail (fun _ => id) rfl _ _ _

theorem dequeueStep_handles (fails : Bool) {d : DequeuePoint T}
    (hd : ∀ headPtr nextPtr value, d ≠ .swingHead headPtr nextPtr value) :
    Handles moved s (.dequeue d) (dequeueStep moved fails s d) := by
  cases d with
  | loadHead => exact .quiet (fun _ => id) rfl
  | loadTail headPtr => exact .quiet (fun _ => id) rfl
  | loadNext headPtr tailPtr => exact .quiet (fun _ => id) rfl
  | checkHead headPtr tailPtr nextPtr =>
    simp only [dequeueStep]
    split_ifs
    · cases nextPtr <;> exact .quiet (fun _ => id) rfl
    · cases nextPtr <;> exact .quiet (fun _ => id) rfl
    · exact .quiet (fun _ => id) rfl
  | helpTail tailPtr nextPtr => exact .casTail (fun _ => id) rfl _ _ _
  | moveData headPtr nextPtr => exact .move _ _
  | swingHead headPtr nextPtr value => exact absurd rfl (hd headPtr nextPtr value)

theorem emptyStep_handles (e : EmptyPoint) : Handles moved s (.empty e) (emptyStep s e) := by
  cases e with
  | loadHead => exact .quiet (fun _ => id) rfl
  | loadTail headPtr =>
    simp only [emptyStep]
    split_ifs <;> exact .quiet (fun _ => id) rfl
  | loadNext headPtr => exact .quiet (fun _ => id) rfl

theorem act_handles (a : Action ι T)
    (ha : ∀ i fails, a = .advance i fails → ∀ headPtr nextPtr value,
      p ≠ .dequeue (.swingHead headPtr nextPtr value)) :
    Handles moved s p (act moved s p a) := by
  cases a with
  | call i c =>
    by_cases hidle : p = .idle
    · subst hidle
      cases c with
      | enqueue value => exact .makeNode (fun _ => id) rfl _
      | dequeue => exact .quiet (fun _ => id) rfl
      | empty => exact .quiet (fun _ => id) rfl
    · rw [act_call hidle]
      exact .stay p
  | advance i fails =>
    cases p with
    | idle => exact .stay _
    | enqueue newNode e => exact enqueueStep_handles fails newNode e
    | dequeue d =>
      exact dequeueStep_handles fails fun headPtr nextPtr value hd =>
        ha i fails rfl headPtr nextPtr value (congrArg Point.dequeue hd)
    | empty e => exact emptyStep_handles e
    | returns r => exact .quiet (fun _ => id) rfl

variable [DecidableEq ι]

/-- No exchange of `head` fails after a move that changed the value, and none succeeds while
the move of another `dequeue` has changed the value in the same node. -/
def Undisturbed (moved : T → T) (s : State ι T) (a : Action ι T) : Prop :=
  match a, s.point a.thread with
  | .advance i fails, .dequeue (.swingHead headPtr nextPtr value) =>
    if fails = false ∧ s.shared.head = headPtr then ∀ j ≠ i, ¬(s.point j).Spoils moved nextPtr
    else moved value = value
  | _, _ => True

/-- A payload is in its node, unless the node was taken or a `dequeue` has the payload in its
hands. -/
structure Unspoilt (moved : T → T) (s : State ι T) : Prop where
  data : ∀ n, (s.shared.heap n).data = (s.shared.heap n).given ∨ n ∈ s.shared.taken ∨
    ∃ j, (s.point j).Spoils moved n
  held : ∀ i headPtr n v, s.point i = .dequeue (.swingHead headPtr n v) →
    v = (s.shared.heap n).given ∨ n ∈ s.shared.taken ∨ ∃ j ≠ i, (s.point j).Spoils moved n
  returned : ∀ i n v, s.point i = .returns (.dequeue (some (n, v))) → v = (s.shared.heap n).given

variable {s : State ι T} {i : ι} {r : Shared T × Point T}

/-- A thread that spoils a node is another one than `i`, and stays where it is. -/
theorem Point.Spoils.update {j : ι} {n : ℕ} (hj : (s.point j).Spoils moved n)
    (hi : ∀ n, ¬(s.point i).Spoils moved n) (q : Point T) :
    j ≠ i ∧ (Function.update s.point i q j).Spoils moved n := by
  have hji : j ≠ i := by
    rintro rfl
    exact hi n hj
  exact ⟨hji, by rwa [Function.update_of_ne hji]⟩

theorem Unspoilt.rest (hu : Unspoilt moved s) {s' : Shared T} {q : Point T}
    (hi : ∀ n, ¬(s.point i).Spoils moved n) (hq : q.hand = none) (htaken : s'.taken = s.shared.taken)
    (hheap : ∀ n, (s'.heap n).data = (s'.heap n).given ∨
      (s'.heap n).data = (s.shared.heap n).data ∧ (s'.heap n).given = (s.shared.heap n).given)
    (hkept : ∀ j n v, (s.point j).hand = some (n, v) → (s'.heap n).given = (s.shared.heap n).given) :
    Unspoilt moved ⟨s', Function.update s.point i q⟩ := by
  -- the thread of the step has nothing in its hands
  have hother {j : ι} {p : Point T} (hj : Function.update s.point i q j = p) (hp : p.hand.isSome) :
      s.point j = p := by
    by_cases hji : j = i
    · subst hji
      rw [Function.update_self] at hj
      rw [← hj, hq] at hp
      cases hp
    · rwa [Function.update_of_ne hji] at hj
  refine ⟨fun n => ?_, fun j headPtr n v hj => ?_, fun j n v hj => ?_⟩
  · rcases hheap n with hsame | ⟨hdata, hgiven⟩
    · exact .inl hsame
    · rcases hu.data n with hin | hmem | ⟨j, hj⟩
      · exact .inl (by rw [hdata, hgiven, hin])
      · exact .inr (.inl (by rwa [htaken]))
      · exact .inr (.inr ⟨j, (hj.update hi q).2⟩)
  · have hj := hother hj rfl
    rcases hu.held j headPtr n v hj with hv | hmem | ⟨k, hkj, hk⟩
    · exact .inl (hv.trans (hkept j n v (by rw [hj]; rfl)).symm)
    · exact .inr (.inl (by rwa [htaken]))
    · exact .inr (.inr ⟨k, hkj, (hk.update hi q).2⟩)
  · have hj := hother hj rfl
    exact (hu.returned j n v hj).trans (hkept j n v (by rw [hj]; rfl)).symm

theorem Unspoilt.move (hu : Unspoilt moved s) {headPtr nextPtr : ℕ}
    (hpoint : s.point i = .dequeue (.moveData headPtr nextPtr)) :
    Unspoilt moved ⟨s.shared.moveOut moved nextPtr,
      Function.update s.point i (.dequeue (.swingHead headPtr nextPtr (s.shared.heap nextPtr).data))⟩ := by
  have hi (n : ℕ) : ¬(s.point i).Spoils moved n := by
    rw [hpoint]
    exact id
  have hkept (n : ℕ) : ((s.shared.moveOut moved nextPtr).heap n).given = (s.shared.heap n).given := by
    by_cases hn : n = nextPtr
    · subst hn
      simp [moveOut]
    · simp [moveOut, hn]
  refine ⟨fun n => ?_, fun j headPtr' n v hj => ?_, fun j n v hj => ?_⟩
  · by_cases hn : n = nextPtr ∧ moved (s.shared.heap nextPtr).data ≠ (s.shared.heap nextPtr).data
    · obtain ⟨rfl, hmoved⟩ := hn
      refine .inr (.inr ⟨i, ?_⟩)
      change (Function.update s.point i _ i).Spoils moved n
      rw [Function.update_self]
      exact ⟨rfl, hmoved⟩
    · have hdata : ((s.shared.moveOut moved nextPtr).heap n).data = (s.shared.heap n).data := by
        by_cases hne : n = nextPtr
        · subst hne
          have hmoved := not_and_not_right.1 hn rfl
          simp [moveOut, hmoved]
        · simp [moveOut, hne]
      rcases hu.data n with hin | hmem | ⟨j, hj⟩
      · exact .inl (by rw [hdata, hkept, hin])
      · exact .inr (.inl hmem)
      · exact .inr (.inr ⟨j, (hj.update hi _).2⟩)
  · by_cases hji : j = i
    · subst hji
      cases (Function.update_self j _ s.point).symm.trans hj
      rcases hu.data nextPtr with hin | hmem | ⟨k, hk⟩
      · exact .inl (hin.trans (hkept nextPtr).symm)
      · exact .inr (.inl hmem)
      · exact .inr (.inr ⟨k, hk.update hi _⟩)
    · have hj : s.point j = _ := (Function.update_of_ne hji _ s.point).symm.trans hj
      rcases hu.held j headPtr' n v hj with hv | hmem | ⟨k, hkj, hk⟩
      · exact .inl (hv.trans (hkept n).symm)
      · exact .inr (.inl hmem)
      · exact .inr (.inr ⟨k, hkj, (hk.update hi _).2⟩)
  · by_cases hji : j = i
    · subst hji
      cases (Function.update_self j _ s.point).symm.trans hj
    · have hj : s.point j = _ := (Function.update_of_ne hji _ s.point).symm.trans hj
      exact (hu.returned j n v hj).trans (hkept n).symm

theorem Unspoilt.handles (hu : Unspoilt moved s) (h : Handles moved s.shared (s.point i) r)
    (hkept : ∀ j n v, (s.point j).hand = some (n, v) → (r.1.heap n).given = (s.shared.heap n).given) :
    Unspoilt moved ⟨r.1, Function.update s.point i r.2⟩ := by
  generalize hpoint : s.point i = p at h
  cases h with
  | stay =>
    rw [← hpoint, Function.update_eq_self]
    exact hu
  | rest hp hq htaken hheap => exact hu.rest (by rwa [hpoint]) hq htaken hheap hkept
  | move headPtr nextPtr => exact hu.move hpoint

theorem Unspoilt.takes (hu : Unspoilt moved s) {headPtr n : ℕ} {v : T}
    (hpoint : s.point i = .dequeue (.swingHead headPtr n v)) (hnew : n ∉ s.shared.taken)
    (hothers : ∀ j ≠ i, ¬(s.point j).Spoils moved n) :
    Unspoilt moved ⟨s.shared.setHead n, Function.update s.point i (.returns (.dequeue (some (n, v))))⟩ := by
  have hspoils {j : ι} {m : ℕ} (hm : m ≠ n) (hj : (s.point j).Spoils moved m) :
      (Function.update s.point i (.returns (.dequeue (some (n, v)))) j).Spoils moved m := by
    by_cases hji : j = i
    · subst hji
      rw [hpoint] at hj
      exact absurd hj.1.symm hm
    · rwa [Function.update_of_ne hji]
  have htaken {m : ℕ} (hm : m = n ∨ m ∈ s.shared.taken) : m ∈ (s.shared.setHead n).taken := by
    rcases hm with rfl | hmem
    · exact List.mem_append_right _ (List.mem_singleton_self _)
    · exact List.mem_append_left _ hmem
  refine ⟨fun m => ?_, fun j headPtr' m w hj => ?_, fun j m w hj => ?_⟩
  · by_cases hm : m = n
    · exact .inr (.inl (htaken (.inl hm)))
    · rcases hu.data m with hin | hmem | ⟨j, hj⟩
      · exact .inl hin
      · exact .inr (.inl (htaken (.inr hmem)))
      · exact .inr (.inr ⟨j, hspoils hm hj⟩)
  · by_cases hji : j = i
    · subst hji
      cases (Function.update_self j _ s.point).symm.trans hj
    · have hj : s.point j = _ := (Function.update_of_ne hji _ s.point).symm.trans hj
      by_cases hm : m = n
      · exact .inr (.inl (htaken (.inl hm)))
      · rcases hu.held j headPtr' m w hj with hv | hmem | ⟨k, hkj, hk⟩
        · exact .inl hv
        · exact .inr (.inl (htaken (.inr hmem)))
        · exact .inr (.inr ⟨k, hkj, hspoils hm hk⟩)
  · by_cases hji : j = i
    · subst hji
      cases (Function.update_self j _ s.point).symm.trans hj
      rcases hu.held j headPtr n v hpoint with hv | hmem | ⟨k, hkj, hk⟩
      · exact hv
      · exact absurd hmem hnew
      · exact absurd hk (hothers k hkj)
    · have hj : s.point j = _ := (Function.update_of_ne hji _ s.point).symm.trans hj
      exact hu.returned j m w hj

theorem Shared.Inv.next_head_not_mem {s : Shared T} (hs : s.Inv) {n : ℕ} (hn : s.next s.head = some n) :
    n ∉ s.taken := by
  intro hmem
  have hchain : n ∈ 0 :: s.taken := List.mem_cons_of_mem 0 hmem
  obtain ⟨rest, hlinked⟩ := hs.taken
  have hpos := (hs.of_next hn).2.2
  rw [hs.head_pos, pos, chain, ← hlinked, ← List.cons_append, List.idxOf_append_of_mem hchain] at hpos
  have hlt := List.idxOf_lt_length_iff.2 hchain
  rw [List.length_cons] at hlt
  omega

variable [Inhabited T]

theorem Unspoilt.snoc {acts : List (Action ι T)} {a : Action ι T} (hu : Unspoilt moved (run moved acts))
    (ha : Undisturbed moved (run moved acts) a) : Unspoilt moved (run moved (acts ++ [a])) := by
  have h := sound moved acts
  have hkept (j : ι) (n : ℕ) (v : T) (hj : ((run moved acts).point j).hand = some (n, v)) :=
    ((h.change a).evolves h.inv).given n ((h.ok j).hand_lt h.inv hj)
  rw [run_snoc] at hkept ⊢
  by_cases hswing : ∃ i fails headPtr nextPtr value, a = .advance i fails ∧
      (run moved acts).point i = .dequeue (.swingHead headPtr nextPtr value)
  · obtain ⟨i, fails, headPtr, nextPtr, value, rfl, hpoint⟩ := hswing
    have hact : act moved (run moved acts).shared ((run moved acts).point i) (.advance i fails) =
        dequeueStep moved fails (run moved acts).shared (.swingHead headPtr nextPtr value) := by
      rw [hpoint]
      rfl
    have hok := h.ok i
    rw [hpoint] at hok
    simp only [Undisturbed, Action.thread, hpoint] at ha
    simp only [step, Action.thread, hact, dequeueStep] at hkept ⊢
    split_ifs at ha hkept ⊢ with hcas
    · refine hu.takes hpoint (h.inv.next_head_not_mem ?_) ha
      rw [hcas.2]
      exact hok.1
    · refine hu.handles (.quiet (fun n hspoils => ?_) rfl) hkept
      rw [hpoint] at hspoils
      exact hspoils.2 ha
  · refine hu.handles (act_handles a ?_) hkept
    rintro i fails rfl headPtr nextPtr value hpoint
    exact hswing ⟨i, fails, headPtr, nextPtr, value, rfl, hpoint⟩

theorem run_unspoilt (acts : List (Action ι T))
    (h : ∀ k (hk : k < acts.length), Undisturbed moved (run moved (acts.take k)) acts[k]) :
    Unspoilt moved (run moved acts) := by
  induction acts using List.reverseRecOn with
  | nil =>
    refine ⟨fun _ => .inl rfl, fun i headPtr n v hi => ?_, fun i n v hi => ?_⟩
    · cases hi
    · cases hi
  | append_singleton acts a ih =>
    refine Unspoilt.snoc (ih fun k hk => ?_) ?_
    · have hk' := h k (by simp; omega)
      rwa [List.take_append_of_le_length hk.le, List.getElem_append_left hk] at hk'
    · have ha := h acts.length (by simp)
      rwa [List.take_left, List.getElem_concat_length rfl] at ha

/-- Every value that a `dequeue` returns is the one that its node was made with. -/
def Intact (ι : Type) [DecidableEq ι] (moved : T → T) : Prop :=
  ∀ (acts : List (Action ι T)) (i : ι) (n : ℕ) (v : T),
    (run moved acts).point i = .returns (.dequeue (some (n, v))) →
      v = ((run moved acts).shared.heap n).given

theorem intact_of_moved (hmoved : ∀ v, moved v = v) : Intact ι moved := by
  have hspoils (p : Point T) (n : ℕ) : ¬p.Spoils moved n := by
    unfold Point.Spoils
    split
    · exact fun h => h.2 (hmoved _)
    · exact id
  intro acts i n v hi
  refine (run_unspoilt acts fun k hk => ?_).returned i n v hi
  unfold Undisturbed
  split
  · split_ifs
    · exact fun j _ => hspoils _ _
    · exact hmoved _
  · trivial

/-- A `dequeue` whose exchange of `head` fails once, after an `enqueue` by the same thread. -/
def retried (i : ι) (v : T) : List (Action ι T) :=
  .call i (.enqueue v) :: List.replicate 6 (.advance i false) ++
    .call i .dequeue :: List.replicate 5 (.advance i false) ++
    .advance i true :: List.replicate 6 (.advance i false)

theorem run_retried (moved : T → T) (i : ι) (v : T) :
    (run moved (retried i v)).point i = .returns (.dequeue (some (1, moved v))) ∧
      ((run moved (retried i v)).shared.heap 1).given = v := by
  refine ⟨?_, ?_⟩
  · simp [run, retried, sched, step, act, begin, advance, enqueueStep, dequeueStep, initial, Action.thread,
      makeNode, casTail, setNext, setHead, moveOut, Shared.next]
  · simp [run, retried, sched, step, act, begin, advance, enqueueStep, dequeueStep, initial, Action.thread,
      makeNode, casTail, setNext, setHead, moveOut, Shared.next]

/-- An `enqueue` and a `dequeue` of one thread, none of whose exchanges fails. -/
def unhindered (i : ι) (v : T) : List (Action ι T) :=
  .call i (.enqueue v) :: List.replicate 6 (.advance i false) ++
    .call i .dequeue :: List.replicate 6 (.advance i false)

theorem run_unhindered (moved : T → T) (i : ι) (v : T) :
    (run moved (unhindered i v)).point i = .returns (.dequeue (some (1, v))) := by
  simp [run, unhindered, sched, step, act, begin, advance, enqueueStep, dequeueStep, initial, Action.thread,
    makeNode, casTail, setNext, setHead, moveOut, Shared.next]

theorem not_intact_of_ne (i : ι) {v : T} (hv : moved v ≠ v) : ¬Intact ι moved := by
  intro h
  obtain ⟨hpoint, hgiven⟩ := run_retried moved i v
  exact hv ((h (retried i v) i 1 (moved v) hpoint).trans hgiven)

/-- The queue delivers its payloads unchanged, under every schedule of at least one thread,
exactly when a move leaves the value where it was; for other payloads, in every run in which
no move that changed the value is disturbed. -/
theorem intact_iff [Inhabited ι] (moved : T → T) :
    (Intact ι moved ↔ ∀ v, moved v = v) ∧
      ∀ acts : List (Action ι T),
        (∀ k (hk : k < acts.length), Undisturbed moved (run moved (acts.take k)) acts[k]) →
          ∀ i n v, (run moved acts).point i = .returns (.dequeue (some (n, v))) →
            v = ((run moved acts).shared.heap n).given := by
  refine ⟨⟨fun h v => ?_, intact_of_moved⟩, fun acts h => (run_unspoilt acts h).returned⟩
  by_contra hv
  exact not_intact_of_ne (default : ι) hv h

/-- A thread alone whose exchanges succeed gets its string back, though a move empties it. -/
theorem string_delivered :
    (run (fun _ => "") (unhindered () "payload")).point () = .returns (.dequeue (some (1, "payload"))) ∧
      ((run (fun _ => "") (unhindered () "payload")).shared.heap 1).given = "payload" := by
  have hpoint := run_unhindered (fun _ => "") () "payload"
  refine ⟨hpoint, ((intact_iff fun _ => "").2 (unhindered () "payload") (fun k hk => ?_) () 1 _ hpoint).symm⟩
  rw [show (unhindered () "payload").length = 14 from rfl] at hk
  interval_cases k <;>
    simp [Undisturbed, run, unhindered, sched, step, act, begin, advance, enqueueStep, dequeueStep, initial,
      Action.thread, makeNode, casTail, setNext, setHead, moveOut, Shared.next]

/-- A string that is empty after a move is delivered empty after one failed exchange. -/
theorem string_delivered_empty : ¬Intact Unit (fun _ : String => "") :=
  not_intact_of_ne () (v := "payload") (by decide)

end LockfreeQueue

end LearnSpdk
