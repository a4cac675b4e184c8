import LearnSpdk.Lib.LinkedQueue
import LearnSpdk.Spec.LockfreeQueue
import Mathlib.Data.List.Perm.Subperm

/-! The lock-free queue under every schedule. The nodes that were linked form a chain behind
the dummy node; `head` and `tail` only move along it. What a thread has read stays true
in the form that its next steps need, whatever the others do in between. -/

namespace LearnSpdk

open Lib

namespace LockfreeQueue

variable {ι T : Type} {moved : T → T} {s s' : Shared T} {m n t h : ℕ}

namespace Shared

/-- The dummy node and the nodes behind it. -/
def chain (s : Shared T) : List ℕ := 0 :: s.linked

def pos (s : Shared T) (n : ℕ) : ℕ := s.chain.idxOf n

def AllTaken (s : Shared T) : Prop := ∀ n ∈ s.linked, n ∈ s.taken

/-- What holds of the shared state at all times. -/
structure Inv (s : Shared T) : Prop where
  threaded : Threaded s.next s.chain
  lt : ∀ n ∈ s.chain, n < s.size
  unlinked : ∀ n, n ∉ s.chain → s.next n = none
  taken : s.taken <+: s.linked
  head_mem : s.head ∈ s.chain
  head_pos : s.pos s.head = s.taken.length
  tail_mem : s.tail ∈ s.chain
  head_le : s.pos s.head ≤ s.pos s.tail
  tail_last : s.linked.length ≤ s.pos s.tail + 1

/-- The node was `head` at some time. -/
def PastHead (s : Shared T) (h : ℕ) : Prop := h ∈ s.chain ∧ s.pos h ≤ s.taken.length

/-- The node was `tail` at some time. -/
def PastTail (s : Shared T) (t : ℕ) : Prop := t ∈ s.chain ∧ s.pos t ≤ s.pos s.tail

theorem Inv.pastHead (hs : s.Inv) : s.PastHead s.head := ⟨hs.head_mem, le_of_eq hs.head_pos⟩

theorem Inv.pastTail (hs : s.Inv) : s.PastTail s.tail := ⟨hs.tail_mem, le_refl _⟩

theorem Inv.next_eq_none (hs : s.Inv) (hn : n ∈ s.chain) :
    s.next n = none ↔ s.pos n = s.linked.length := by
  rw [hs.threaded.next_eq_none hn, chain, List.length_cons, Nat.succ_inj]
  rfl

theorem Inv.of_next (hs : s.Inv) (hm : s.next n = some m) :
    n ∈ s.chain ∧ m ∈ s.chain ∧ s.pos m = s.pos n + 1 := by
  have hn : n ∈ s.chain := by
    by_contra hn
    rw [hs.unlinked n hn] at hm
    cases hm
  exact ⟨hn, hs.threaded.of_next hn hm⟩

theorem Inv.mem_linked (hs : s.Inv) (hm : s.next n = some m) : m ∈ s.linked := by
  obtain ⟨-, hmem, hpos⟩ := hs.of_next hm
  rcases List.mem_cons.1 hmem with rfl | hmem
  · rw [pos, chain, List.idxOf_cons_self] at hpos
    cases hpos
  · exact hmem

theorem pos_le (hn : n ∈ s.chain) : s.pos n ≤ s.linked.length :=
  Nat.le_of_lt_succ (List.idxOf_lt_length_of_mem hn)

theorem Inv.nodup_linked (hs : s.Inv) : s.linked.Nodup := (List.nodup_cons.1 hs.threaded.nodup).2

theorem Inv.allTaken_iff (hs : s.Inv) : s.AllTaken ↔ s.linked.length ≤ s.taken.length := by
  refine ⟨?_, ?_⟩
  · intro hall
    exact (List.subperm_of_subset hs.nodup_linked hall).length_le
  · intro hle n hn
    rwa [hs.taken.eq_of_length_le hle]

/-- No node behind one that was `head`: the queue is empty. -/
theorem Inv.allTaken_of_none (hs : s.Inv) (hh : s.PastHead h) (hnone : s.next h = none) :
    s.AllTaken := by
  rw [hs.allTaken_iff, ← (hs.next_eq_none hh.1).1 hnone]
  exact hh.2

end Shared

open Shared

/-! ### What a step changes -/

/-- Everything an action can do to the shared state, with the node that its thread has yet
to link before and after. -/
inductive Change (moved : T → T) (s : Shared T) : Option ℕ → Shared T → Option ℕ → Prop where
  | stay (o : Option ℕ) : Change moved s o s o
  | move (n : ℕ) (o : Option ℕ) : Change moved s o (s.moveOut moved n) o
  | make (v : T) : Change moved s none (s.makeNode v) (some s.size)
  | link {t n : ℕ} (ht : s.PastTail t) (hlast : s.next t = none) :
    Change moved s (some n) (s.setNext t n) none
  | swingTail {m : ℕ} (o : Option ℕ) (hm : s.next s.tail = some m) : Change moved s o { s with tail := m } o
  | swingHead {m : ℕ} (o : Option ℕ) (hm : s.next s.head = some m) (hlt : s.pos s.head < s.pos s.tail) :
    Change moved s o (s.setHead m) o

@[simp] theorem next_moveOut : (s.moveOut moved n).next = s.next := by
  funext k
  by_cases hk : k = n
  · subst hk
    simp [Shared.next, moveOut]
  · simp [Shared.next, moveOut, hk]

theorem next_setNext : (s.setNext t n).next = Function.update s.next t (some n) := by
  funext k
  by_cases hk : k = t
  · subst hk
    simp [Shared.next, setNext]
  · simp [Shared.next, setNext, hk]

theorem next_makeNode {v : T} (hsize : s.next s.size = none) : (s.makeNode v).next = s.next := by
  funext k
  by_cases hk : k = s.size
  · subst hk
    rw [hsize]
    simp [Shared.next, makeNode]
  · simp [Shared.next, makeNode, hk]

theorem pos_setNext (hm : m ∈ s.chain) : (s.setNext t n).pos m = s.pos m :=
  List.idxOf_append_of_mem hm

theorem Shared.Inv.setNext (hs : s.Inv) (ht : s.PastTail t) (hlast : s.next t = none) (hn : n < s.size)
    (hnew : n ∉ s.chain) : (s.setNext t n).Inv := by
  have hchain : (s.setNext t n).chain = s.chain ++ [n] := rfl
  have htail := pos_le hs.tail_mem
  have hpos := (hs.next_eq_none ht.1).1 hlast
  refine ⟨?_, ?_, ?_, ?_, ?_, ?_, ?_, ?_, ?_⟩
  · rw [next_setNext, hchain]
    exact hs.threaded.append ht.1 hlast hnew (hs.unlinked n hnew)
  · intro k hk
    rcases List.mem_append.1 (hchain ▸ hk) with hk | hk
    · exact hs.lt k hk
    · rw [List.mem_singleton.1 hk]
      exact hn
  · intro k hk
    rw [hchain, List.mem_append, not_or] at hk
    rw [next_setNext, Function.update_of_ne]
    · exact hs.unlinked k hk.1
    · rintro rfl
      exact hk.1 ht.1
  · exact hs.taken.trans (List.prefix_append _ _)
  · exact List.mem_append_left _ hs.head_mem
  · exact (pos_setNext hs.head_mem).trans hs.head_pos
  · exact List.mem_append_left _ hs.tail_mem
  · change (s.setNext t n).pos s.head ≤ (s.setNext t n).pos s.tail
    rw [pos_setNext hs.head_mem, pos_setNext hs.tail_mem]
    exact hs.head_le
  · change (s.linked ++ [n]).length ≤ (s.setNext t n).pos s.tail + 1
    have hle := ht.2
    rw [pos_setNext hs.tail_mem, List.length_append, List.length_singleton]
    omega

theorem Shared.Inv.setTail (hs : s.Inv) (hm : s.next s.tail = some m) :
    ({ s with tail := m } : Shared T).Inv := by
  obtain ⟨-, hmem, hpos⟩ := hs.of_next hm
  have hle := pos_le hmem
  have hhead := hs.head_le
  refine ⟨hs.threaded, hs.lt, hs.unlinked, hs.taken, hs.head_mem, hs.head_pos, hmem, ?_, ?_⟩
  · change s.pos s.head ≤ s.pos m
    omega
  · have hlast := hs.tail_last
    change s.linked.length ≤ s.pos m + 1
    omega

theorem Shared.Inv.setHead (hs : s.Inv) (hm : s.next s.head = some m)
    (hlt : s.pos s.head < s.pos s.tail) : (s.setHead m).Inv := by
  obtain ⟨-, hmem, hpos⟩ := hs.of_next hm
  have hnth : s.linked[s.taken.length]? = some m := by
    rw [hs.threaded.next_eq _ hs.head_mem] at hm
    change s.chain[s.pos s.head + 1]? = some m at hm
    rwa [hs.head_pos, chain, List.getElem?_cons_succ] at hm
  refine ⟨hs.threaded, hs.lt, hs.unlinked, ?_, hmem, ?_, hs.tail_mem, ?_, hs.tail_last⟩
  · change s.taken ++ [m] <+: s.linked
    obtain ⟨l, hl⟩ := hs.taken
    cases l with
    | nil =>
      rw [← hl] at hnth
      simp at hnth
    | cons k l =>
      obtain rfl : k = m := by
        rw [← hl] at hnth
        simpa using hnth
      exact ⟨l, by rw [← hl]; simp⟩
  · change s.pos m = (s.taken ++ [m]).length
    rw [hpos, hs.head_pos, List.length_append, List.length_singleton]
  · change s.pos m ≤ s.pos s.tail
    omega

theorem Change.inv {o o' : Option ℕ} (hc : Change moved s o s' o') (hs : s.Inv)
    (hpend : ∀ n, o = some n → n < s.size ∧ n ∉ s.chain) : s'.Inv := by
  cases hc with
  | stay => exact hs
  | move n =>
    refine ⟨?_, hs.lt, ?_, hs.taken, hs.head_mem, hs.head_pos, hs.tail_mem, hs.head_le, hs.tail_last⟩
    · rw [next_moveOut]
      exact hs.threaded
    · rw [next_moveOut]
      exact hs.unlinked
  | make v =>
    have hsize : s.next s.size = none := hs.unlinked _ fun hmem => lt_irrefl _ (hs.lt _ hmem)
    refine ⟨?_, ?_, ?_, hs.taken, hs.head_mem, hs.head_pos, hs.tail_mem, hs.head_le, hs.tail_last⟩
    · rw [next_makeNode hsize]
      exact hs.threaded
    · exact fun n hn => Nat.lt_succ_of_lt (hs.lt n hn)
    · rw [next_makeNode hsize]
      exact hs.unlinked
  | link ht hlast =>
    obtain ⟨hn, hnew⟩ := hpend _ rfl
    exact hs.setNext ht hlast hn hnew
  | swingTail _ hm => exact hs.setTail hm
  | swingHead _ hm hlt => exact hs.setHead hm hlt

/-- What the steps of other threads leave a thread with. -/
structure Evolves (s s' : Shared T) : Prop where
  linked : s.linked <+: s'.linked
  taken : s.taken <+: s'.taken
  one : s'.linked = s.linked ∨ s'.taken = s.taken
  next : ∀ n m, s.next n = some m → s'.next n = some m
  tail : s.pos s.tail ≤ s'.pos s'.tail
  size : s.size ≤ s'.size
  given : ∀ n < s.size, (s'.heap n).given = (s.heap n).given

theorem Evolves.refl (s : Shared T) : Evolves s s :=
  ⟨List.prefix_refl _, List.prefix_refl _, .inl rfl, fun _ _ h => h, le_refl _, le_refl _, fun _ _ => rfl⟩

theorem Evolves.mem (he : Evolves s s') (hn : n ∈ s.chain) : n ∈ s'.chain :=
  (List.cons_prefix_cons.2 ⟨rfl, he.linked⟩).subset hn

theorem Evolves.pos (he : Evolves s s') (hn : n ∈ s.chain) : s'.pos n = s.pos n := by
  obtain ⟨l, hl⟩ := he.linked
  have hchain : s'.chain = s.chain ++ l := by rw [chain, ← hl, chain, List.cons_append]
  rw [Shared.pos, hchain, List.idxOf_append_of_mem hn, Shared.pos]

theorem Evolves.pastHead (he : Evolves s s') (hh : s.PastHead h) : s'.PastHead h :=
  ⟨he.mem hh.1, le_trans (le_of_eq (he.pos hh.1)) (le_trans hh.2 he.taken.length_le)⟩

theorem Evolves.pastTail (he : Evolves s s') (ht : s.PastTail t) : s'.PastTail t :=
  ⟨he.mem ht.1, le_trans (le_of_eq (he.pos ht.1)) (le_trans ht.2 he.tail)⟩

theorem Change.evolves {o o' : Option ℕ} (hc : Change moved s o s' o') (hs : s.Inv)  :
    Evolves s s' := by
  cases hc with
  | stay => exact .refl s
  | move n =>
    refine ⟨List.prefix_refl _, List.prefix_refl _, .inl rfl, ?_, le_refl _, le_refl _, ?_⟩
    · rw [next_moveOut]
      exact fun _ _ h => h
    · intro k _
      by_cases hk : k = n
      · subst hk
        simp [moveOut]
      · simp [moveOut, hk]
  | make v =>
    have hsize : s.next s.size = none := hs.unlinked _ fun hmem => lt_irrefl _ (hs.lt _ hmem)
    refine ⟨List.prefix_refl _, List.prefix_refl _, .inl rfl, ?_, le_refl _, Nat.le_succ _, ?_⟩
    · rw [next_makeNode hsize]
      exact fun _ _ h => h
    · intro k hk
      simp [makeNode, ne_of_lt hk]
  | @link t n ht hlast =>
    refine ⟨List.prefix_append _ _, List.prefix_refl _, .inr rfl, ?_, ?_, le_refl _, ?_⟩
    · intro k m hk
      rw [next_setNext, Function.update_of_ne]
      · exact hk
      · rintro rfl
        rw [hlast] at hk
        cases hk
    · exact le_of_eq (pos_setNext hs.tail_mem).symm
    · intro k _
      by_cases hk : k = t
      · subst hk
        simp [setNext]
      · simp [setNext, hk]
  | @swingTail m _ hm =>
    refine ⟨List.prefix_refl _, List.prefix_refl _, .inl rfl, fun _ _ h => h, ?_, le_refl _, fun _ _ => rfl⟩
    change s.pos s.tail ≤ s.pos m
    rw [(hs.of_next hm).2.2]
    exact Nat.le_succ _
  | swingHead _ hm hlt =>
    exact ⟨List.prefix_refl _, List.prefix_append _ _, .inl rfl, fun _ _ h => h, le_refl _, le_refl _,
      fun _ _ => rfl⟩

/-! ### What a thread knows -/

namespace EnqueuePoint

/-- What `enqueue` knows at its points. -/
def Ok (s : Shared T) (newNode : ℕ) : EnqueuePoint → Prop
  | .loadTail => True
  | .loadNext tailPtr => s.PastTail tailPtr
  | .checkTail tailPtr nextPtr => s.PastTail tailPtr ∧ ∀ m, nextPtr = some m → s.next tailPtr = some m
  | .link tailPtr => s.PastTail tailPtr
  | .helpTail tailPtr nextPtr => s.next tailPtr = some nextPtr
  | .swingTail tailPtr => s.next tailPtr = some newNode

end EnqueuePoint

namespace DequeuePoint

/-- What `dequeue` knows at its points; `E` says that the queue was empty during the call. -/
def Ok (s : Shared T) (E : Prop) : DequeuePoint T → Prop
  | .loadHead => True
  | .loadTail headPtr => s.PastHead headPtr
  | .loadNext headPtr tailPtr => s.PastHead headPtr ∧ s.PastTail tailPtr ∧ s.pos headPtr ≤ s.pos tailPtr
  | .checkHead headPtr tailPtr nextPtr =>
    (s.PastHead headPtr ∧ s.PastTail tailPtr ∧ s.pos headPtr ≤ s.pos tailPtr) ∧
      (nextPtr = none → E) ∧ ∀ m, nextPtr = some m → s.next headPtr = some m
  | .helpTail tailPtr nextPtr => s.next tailPtr = some nextPtr
  | .moveData headPtr nextPtr => s.next headPtr = some nextPtr ∧ s.pos headPtr < s.pos s.tail
  | .swingHead headPtr nextPtr _ => s.next headPtr = some nextPtr ∧ s.pos headPtr < s.pos s.tail

end DequeuePoint

namespace EmptyPoint

/-- What `empty` knows at its points; `N` says that the queue was not empty at some moment of
the call. -/
def Ok (s : Shared T) (N : Prop) : EmptyPoint → Prop
  | .loadHead => True
  | .loadTail headPtr => s.PastHead headPtr ∧ (s.next headPtr ≠ none → N)
  | .loadNext headPtr => s.PastHead headPtr ∧ (s.next headPtr ≠ none → N)

end EmptyPoint

namespace Point

def Ok (s : Shared T) (E N : Prop) : Point T → Prop
  | .idle => True
  | .enqueue newNode p => p.Ok s newNode
  | .dequeue p => p.Ok s E
  | .empty p => p.Ok s N
  | .returns (.enqueue newNode) => newNode ∈ s.linked
  | .returns (.dequeue none) => E
  | .returns (.dequeue (some (n, _))) => n ∈ s.taken
  | .returns (.empty answer) => if answer then E else N

def linking : Point T → Option ℕ
  | .enqueue _ (.swingTail _) => none
  | .enqueue newNode _ => some newNode
  | _ => none

end Point

variable {E E' N N' : Prop}

theorem EnqueuePoint.Ok.stable {p : EnqueuePoint} (hp : p.Ok s n) (he : Evolves s s') : p.Ok s' n := by
  cases p with
  | loadTail => trivial
  | loadNext tailPtr => exact he.pastTail hp
  | checkTail tailPtr nextPtr => exact ⟨he.pastTail hp.1, fun m hm => he.next _ m (hp.2 m hm)⟩
  | link tailPtr => exact he.pastTail hp
  | helpTail tailPtr nextPtr => exact he.next _ _ hp
  | swingTail tailPtr => exact he.next _ _ hp

theorem DequeuePoint.Ok.stable {p : DequeuePoint T} (hp : p.Ok s E) (hs : s.Inv) (he : Evolves s s')
    (hE : E → E') : p.Ok s' E' := by
  have hptrs {headPtr tailPtr : ℕ}
      (hp : s.PastHead headPtr ∧ s.PastTail tailPtr ∧ s.pos headPtr ≤ s.pos tailPtr) :
      s'.PastHead headPtr ∧ s'.PastTail tailPtr ∧ s'.pos headPtr ≤ s'.pos tailPtr := by
    obtain ⟨hh, ht, hle⟩ := hp
    refine ⟨he.pastHead hh, he.pastTail ht, ?_⟩
    rwa [he.pos hh.1, he.pos ht.1]
  have hnext {headPtr nextPtr : ℕ} (hp : s.next headPtr = some nextPtr ∧ s.pos headPtr < s.pos s.tail) :
      s'.next headPtr = some nextPtr ∧ s'.pos headPtr < s'.pos s'.tail := by
    refine ⟨he.next _ _ hp.1, ?_⟩
    rw [he.pos (hs.of_next hp.1).1]
    exact lt_of_lt_of_le hp.2 he.tail
  cases p with
  | loadHead => trivial
  | loadTail headPtr => exact he.pastHead hp
  | loadNext headPtr tailPtr => exact hptrs hp
  | checkHead headPtr tailPtr nextPtr =>
    exact ⟨hptrs hp.1, fun hnone => hE (hp.2.1 hnone), fun m hm => he.next _ m (hp.2.2 m hm)⟩
  | helpTail tailPtr nextPtr => exact he.next _ _ hp
  | moveData headPtr nextPtr => exact hnext hp
  | swingHead headPtr nextPtr value => exact hnext hp

/-- A node comes behind `headPtr` by one step, and after that step it is still to be taken. -/
theorem Evolves.not_allTaken (he : Evolves s s') (hs : s.Inv) (hs' : s'.Inv) (hh : s.PastHead h)
    (hnone : s.next h = none) (hsome : s'.next h ≠ none) : ¬s'.AllTaken := by
  have hlast := (hs.next_eq_none hh.1).1 hnone
  have hne : s'.linked.length ≠ s.linked.length := by
    intro heq
    refine hsome ((hs'.next_eq_none (he.mem hh.1)).2 ?_)
    rw [he.pos hh.1, hlast, heq]
  have htaken : s'.taken = s.taken := by
    rcases he.one with hlinked | htaken
    · exact absurd (congrArg List.length hlinked) hne
    · exact htaken
  have hle := he.linked.length_le
  have hle' := hs.taken.length_le
  rw [hs'.allTaken_iff, htaken]
  omega

theorem EmptyPoint.Ok.stable {p : EmptyPoint} (hp : p.Ok s N) (hs : s.Inv) (hs' : s'.Inv)
    (he : Evolves s s') (hN : N ∨ ¬s'.AllTaken → N') : p.Ok s' N' := by
  have hptr {headPtr : ℕ} (hp : s.PastHead headPtr ∧ (s.next headPtr ≠ none → N)) :
      s'.PastHead headPtr ∧ (s'.next headPtr ≠ none → N') := by
    refine ⟨he.pastHead hp.1, fun hsome => hN ?_⟩
    by_cases hnone : s.next headPtr = none
    · exact .inr (he.not_allTaken hs hs' hp.1 hnone hsome)
    · exact .inl (hp.2 hnone)
  cases p with
  | loadHead => trivial
  | loadTail headPtr => exact hptr hp
  | loadNext headPtr => exact hptr hp

/-- What a thread knows survives the steps of the others. -/
theorem Point.Ok.stable {p : Point T} (hp : p.Ok s E N) (hs : s.Inv) (hs' : s'.Inv)
    (he : Evolves s s') (hE : E → E') (hN : N ∨ ¬s'.AllTaken → N') : p.Ok s' E' N' := by
  cases p with
  | idle => trivial
  | enqueue newNode p => exact EnqueuePoint.Ok.stable hp he
  | dequeue p => exact DequeuePoint.Ok.stable hp hs he hE
  | empty p => exact EmptyPoint.Ok.stable hp hs hs' he hN
  | returns r =>
    match r with
    | .enqueue newNode => exact he.linked.subset hp
    | .dequeue none => exact hE hp
    | .dequeue (some (n, v)) => exact he.taken.subset hp
    | .empty true => exact hE hp
    | .empty false => exact hN (.inl hp)

/-! ### The steps of a thread -/

theorem change_casTail (hm : s.next t = some m) (fails : Bool) (o : Option ℕ) :
    Change moved s o (s.casTail fails t m) o := by
  unfold casTail
  split
  · next hcas =>
    refine .swingTail o ?_
    rw [hcas.2, hm]
  · exact .stay o

theorem linked_casTail (fails : Bool) : (s.casTail fails t m).linked = s.linked := by
  unfold casTail
  split <;> rfl

theorem enqueueStep_ok {p : EnqueuePoint} (hs : s.Inv) (hp : p.Ok s n) (fails : Bool) :
    Change moved s (Point.enqueue (T := T) n p).linking (enqueueStep fails n s p).1
        (enqueueStep fails n s p).2.linking ∧
      (enqueueStep fails n s p).2.Ok (enqueueStep fails n s p).1 E N := by
  cases p with
  | loadTail => exact ⟨.stay _, hs.pastTail⟩
  | loadNext tailPtr => exact ⟨.stay _, hp, fun m hm => hm⟩
  | checkTail tailPtr nextPtr =>
    simp only [enqueueStep]
    split
    · cases nextPtr with
      | none => exact ⟨.stay _, hp.1⟩
      | some nextPtr => exact ⟨.stay _, hp.2 _ rfl⟩
    · exact ⟨.stay _, trivial⟩
  | link tailPtr =>
    simp only [enqueueStep]
    split
    · next hcas =>
      refine ⟨.link hp hcas.2, ?_⟩
      change (s.setNext tailPtr n).next tailPtr = some n
      rw [next_setNext, Function.update_self]
    · exact ⟨.stay _, trivial⟩
  | helpTail tailPtr nextPtr => exact ⟨change_casTail hp fails _, trivial⟩
  | swingTail tailPtr =>
    refine ⟨change_casTail hp fails _, ?_⟩
    change n ∈ (s.casTail fails tailPtr n).linked
    rw [linked_casTail]
    exact hs.mem_linked hp

theorem dequeueStep_ok {p : DequeuePoint T} (hs : s.Inv) (hp : p.Ok s E) (fails : Bool)
    (hE : E ∨ (dequeueStep moved fails s p).1.AllTaken → E') :
    Change moved s none (dequeueStep moved fails s p).1 (dequeueStep moved fails s p).2.linking ∧
      (dequeueStep moved fails s p).2.Ok (dequeueStep moved fails s p).1 E' N := by
  cases p with
  | loadHead => exact ⟨.stay _, hs.pastHead⟩
  | loadTail headPtr =>
    refine ⟨.stay _, hp, hs.pastTail, ?_⟩
    exact le_trans (le_trans hp.2 (le_of_eq hs.head_pos.symm)) hs.head_le
  | loadNext headPtr tailPtr =>
    refine ⟨.stay _, hp, fun hnone => hE (.inr ?_), fun m hm => hm⟩
    exact hs.allTaken_of_none hp.1 hnone
  | checkHead headPtr tailPtr nextPtr =>
    obtain ⟨⟨hh, ht, hle⟩, hnone, hsome⟩ := hp
    simp only [dequeueStep] at hE ⊢
    split_ifs at hE ⊢ with hhead hptr
    · cases nextPtr with
      | none => exact ⟨.stay _, hE (.inl (hnone rfl))⟩
      | some nextPtr =>
        refine ⟨.stay _, ?_⟩
        change s.next tailPtr = some nextPtr
        rw [← hptr]
        exact hsome _ rfl
    · cases nextPtr with
      | none => exact ⟨.stay _, trivial⟩
      | some nextPtr =>
        refine ⟨.stay _, hsome _ rfl, lt_of_lt_of_le (lt_of_le_of_ne hle ?_) ht.2⟩
        exact fun heq => hptr (idxOf_inj hh.1 heq)
    · exact ⟨.stay _, trivial⟩
  | helpTail tailPtr nextPtr => exact ⟨change_casTail hp fails _, trivial⟩
  | moveData headPtr nextPtr =>
    refine ⟨.move _ _, ?_, hp.2⟩
    rw [dequeueStep, next_moveOut]
    exact hp.1
  | swingHead headPtr nextPtr value =>
    simp only [dequeueStep]
    split
    · next hcas =>
      obtain ⟨hm, hlt⟩ := hp
      rw [← hcas.2] at hm hlt
      exact ⟨.swingHead _ hm hlt, List.mem_append_right _ (List.mem_singleton_self _)⟩
    · exact ⟨.stay _, trivial⟩

theorem emptyStep_ok {p : EmptyPoint} (hs : s.Inv) (hp : p.Ok s N)
    (hE : (emptyStep s p).1.AllTaken → E') (hN : N ∨ ¬(emptyStep s p).1.AllTaken → N') :
    Change moved s none (emptyStep s p).1 (emptyStep s p).2.linking ∧
      (emptyStep s p).2.Ok (emptyStep s p).1 E' N' := by
  cases p with
  | loadHead =>
    refine ⟨.stay _, hs.pastHead, fun hsome => hN (.inr ?_)⟩
    change ¬s.AllTaken
    have hlt := (hs.next_eq_none hs.head_mem).not.1 hsome
    have hle := pos_le hs.head_mem
    rw [hs.allTaken_iff, ← hs.head_pos]
    omega
  | loadTail headPtr =>
    obtain ⟨hh, hsome⟩ := hp
    simp only [emptyStep] at hE hN ⊢
    split_ifs at hE hN ⊢ with htail
    · exact ⟨.stay _, hh, fun hne => hN (.inl (hsome hne))⟩
    · -- `tail` is behind the old head, so a node is
      refine ⟨.stay _, hN (.inl (hsome fun hnone => htail ?_))⟩
      have hlast := (hs.next_eq_none hh.1).1 hnone
      have hle := pos_le hs.tail_mem
      refine idxOf_inj hh.1 (le_antisymm ?_ ?_)
      · exact le_trans (le_trans hh.2 (le_of_eq hs.head_pos.symm)) hs.head_le
      · exact le_trans hle (le_of_eq hlast.symm)
  | loadNext headPtr =>
    obtain ⟨hh, hsome⟩ := hp
    refine ⟨.stay _, ?_⟩
    change if (s.next headPtr).isNone = true then E' else N'
    split_ifs with hnone
    · exact hE (hs.allTaken_of_none hh (Option.isNone_iff_eq_none.1 hnone))
    · exact hN (.inl (hsome fun heq => hnone (by rw [heq]; rfl)))

theorem act_call {p : Point T} (hp : p ≠ .idle) (i : ι) (c : Call T) :
    act moved s p (.call i c) = (s, p) := by
  cases p with
  | idle => exact absurd rfl hp
  | enqueue newNode p => rfl
  | dequeue p => rfl
  | empty p => rfl
  | returns r => rfl

/-- An action of a thread that is in order changes the shared state in order, and leaves the
thread in order. -/
theorem act_ok {p : Point T} (hs : s.Inv) (hp : p.Ok s E N) (a : Action ι T)
    (hE : E ∨ (act moved s p a).1.AllTaken → E') (hN : N ∨ ¬(act moved s p a).1.AllTaken → N') :
    Change moved s p.linking (act moved s p a).1 (act moved s p a).2.linking ∧
      (act moved s p a).2.Ok (act moved s p a).1 E' N' := by
  cases a with
  | call i c =>
    by_cases hidle : p = .idle
    · subst hidle
      cases c with
      | enqueue value => exact ⟨.make value, trivial⟩
      | dequeue => exact ⟨.stay _, trivial⟩
      | empty => exact ⟨.stay _, trivial⟩
    · rw [act_call hidle] at hE hN ⊢
      exact ⟨.stay _, hp.stable hs hs (Evolves.refl s)
        (fun h => hE (.inl h)) hN⟩
  | advance i fails =>
    cases p with
    | idle => exact ⟨.stay _, trivial⟩
    | enqueue newNode p => exact enqueueStep_ok hs hp fails
    | dequeue p => exact dequeueStep_ok hs hp fails hE
    | empty p => exact emptyStep_ok hs hp (fun h => hE (.inr h)) hN
    | returns r => exact ⟨.stay _, trivial⟩

/-! ### The queue that the threads see -/

def Shared.queue (s : Shared T) : List ℕ := s.linked.drop s.taken.length

inductive FifoStep : List ℕ → List ℕ → Prop where
  | stay (q : List ℕ) : FifoStep q q
  | push (q : List ℕ) (n : ℕ) : FifoStep q (q ++ [n])
  | pop (n : ℕ) (q : List ℕ) : FifoStep (n :: q) q

theorem Shared.Inv.linked_eq (hs : s.Inv) : s.linked = s.taken ++ s.queue := by
  obtain ⟨l, hl⟩ := hs.taken
  rw [Shared.queue, ← hl, List.drop_left]

theorem Shared.Inv.allTaken_iff_queue (hs : s.Inv) : s.AllTaken ↔ s.queue = [] := by
  rw [hs.allTaken_iff, Shared.queue, List.drop_eq_nil_iff]

theorem Change.fifo {o o' : Option ℕ} (hc : Change moved s o s' o') (hs : s.Inv) :
    FifoStep s.queue s'.queue := by
  cases hc with
  | stay => exact .stay _
  | move n => exact .stay _
  | make v => exact .stay _
  | @link t n ht hlast =>
    have hqueue : (s.setNext t n).queue = s.queue ++ [n] :=
      List.drop_append_of_le_length hs.taken.length_le
    rw [hqueue]
    exact .push _ n
  | swingTail _ hm => exact .stay _
  | @swingHead m _ hm hlt =>
    have hlinked : s.taken ++ s.queue = (s.taken ++ [m]) ++ (s.setHead m).queue := by
      rw [← hs.linked_eq]
      exact (hs.setHead hm hlt).linked_eq
    rw [List.append_assoc, List.append_cancel_left_eq, List.singleton_append] at hlinked
    rw [hlinked]
    exact .pop m _

/-! ### Runs -/

/-- The nodes that were made are linked, or each on hold in one thread. -/
structure Owned (s : Shared T) (linking : ι → Option ℕ) : Prop where
  pending : ∀ i n, linking i = some n → n < s.size ∧ n ∉ s.chain
  unique : ∀ i j n, linking i = some n → linking j = some n → i = j
  made : ∀ n, 0 < n → n < s.size → n ∈ s.linked ∨ ∃ i, linking i = some n

/-- A `dequeue` comes to its return with a node by taking it. -/
theorem act_took {p : Point T} {a : Action ι T} {n : ℕ} {v : T}
    (h : (act moved s p a).2 = .returns (.dequeue (some (n, v)))) :
    p = .returns (.dequeue (some (n, v))) ∨ p ≠ .idle ∧ (act moved s p a).1.taken = s.taken ++ [n] := by
  cases a with
  | call i c =>
    by_cases hidle : p = .idle
    · subst hidle
      cases c <;> cases h
    · rw [act_call hidle] at h
      exact .inl h
  | advance i fails =>
    cases p with
    | idle => cases h
    | returns r => cases h
    | empty e =>
      cases e with
      | loadTail headPtr =>
        simp only [act, advance, emptyStep] at h
        split_ifs at h
        cases h
      | _ => cases h
    | enqueue newNode e =>
      cases e with
      | checkTail tailPtr nextPtr =>
        simp only [act, advance, enqueueStep] at h
        split_ifs at h
        cases nextPtr <;> cases h
      | link tailPtr =>
        simp only [act, advance, enqueueStep] at h
        split_ifs at h
      | _ => cases h
    | dequeue d =>
      cases d with
      | checkHead headPtr tailPtr nextPtr =>
        simp only [act, advance, dequeueStep] at h
        split_ifs at h
        · cases nextPtr <;> cases h
        · cases nextPtr <;> cases h
      | swingHead headPtr nextPtr value =>
        simp only [act, advance, dequeueStep] at h ⊢
        split_ifs at h ⊢
        · cases h
          exact .inr ⟨by simp, rfl⟩
      | _ => cases h

variable [DecidableEq ι] {linking : ι → Option ℕ} {i : ι}

theorem Owned.make (ho : Owned s linking) (hs : s.Inv) (hi : linking i = none) (v : T) :
    Owned (s.makeNode v) (Function.update linking i (some s.size)) := by
  have hother {j : ι} {n : ℕ} (hj : linking j = some n) : j ≠ i ∧ n < s.size := by
    refine ⟨?_, (ho.pending j n hj).1⟩
    rintro rfl
    rw [hi] at hj
    cases hj
  have hcases {j : ι} {n : ℕ} (hj : Function.update linking i (some s.size) j = some n) :
      j = i ∧ n = s.size ∨ j ≠ i ∧ linking j = some n := by
    by_cases hji : j = i
    · subst hji
      rw [Function.update_self, Option.some.injEq] at hj
      exact .inl ⟨rfl, hj.symm⟩
    · rw [Function.update_of_ne hji] at hj
      exact .inr ⟨hji, hj⟩
  refine ⟨?_, ?_, ?_⟩
  · intro j n hj
    rcases hcases hj with ⟨-, rfl⟩ | ⟨-, hj⟩
    · exact ⟨Nat.lt_succ_self _, fun hmem => lt_irrefl _ (hs.lt _ hmem)⟩
    · obtain ⟨hlt, hnew⟩ := ho.pending j n hj
      exact ⟨Nat.lt_succ_of_lt hlt, hnew⟩
  · intro j k n hj hk
    rcases hcases hj with ⟨rfl, rfl⟩ | ⟨-, hj⟩
    · rcases hcases hk with ⟨rfl, -⟩ | ⟨-, hk⟩
      · rfl
      · exact absurd (hother hk).2 (lt_irrefl _)
    · rcases hcases hk with ⟨-, rfl⟩ | ⟨-, hk⟩
      · exact absurd (hother hj).2 (lt_irrefl _)
      · exact ho.unique j k n hj hk
  · intro n hpos hlt
    rcases Nat.lt_succ_iff_lt_or_eq.1 hlt with hlt | rfl
    · rcases ho.made n hpos hlt with hmem | ⟨j, hj⟩
      · exact .inl hmem
      · refine .inr ⟨j, ?_⟩
        rwa [Function.update_of_ne (hother hj).1]
    · exact .inr ⟨i, Function.update_self _ _ _⟩

theorem Owned.link (ho : Owned s linking) (hi : linking i = some n) :
    Owned (s.setNext t n) (Function.update linking i none) := by
  have hcases {j : ι} {m : ℕ} (hj : Function.update linking i none j = some m) :
      j ≠ i ∧ linking j = some m := by
    by_cases hji : j = i
    · subst hji
      rw [Function.update_self] at hj
      cases hj
    · rw [Function.update_of_ne hji] at hj
      exact ⟨hji, hj⟩
  refine ⟨?_, ?_, ?_⟩
  · intro j m hj
    obtain ⟨hji, hj⟩ := hcases hj
    obtain ⟨hlt, hnew⟩ := ho.pending j m hj
    refine ⟨hlt, fun hmem => ?_⟩
    rcases List.mem_append.1 (show m ∈ s.chain ++ [n] from hmem) with hmem | hmem
    · exact hnew hmem
    · obtain rfl := List.mem_singleton.1 hmem
      exact hji (ho.unique j i m hj hi)
  · intro j k m hj hk
    exact ho.unique j k m (hcases hj).2 (hcases hk).2
  · intro m hpos hlt
    rcases ho.made m hpos hlt with hmem | ⟨j, hj⟩
    · exact .inl (List.mem_append_left _ hmem)
    · by_cases hji : j = i
      · subst hji
        obtain rfl := Option.some_inj.1 (hi.symm.trans hj)
        exact .inl (List.mem_append_right _ (List.mem_singleton_self _))
      · refine .inr ⟨j, ?_⟩
        rwa [Function.update_of_ne hji]

theorem Owned.change {o o' : Option ℕ} (ho : Owned s linking) (hs : s.Inv) (hi : linking i = o)
    (hc : Change moved s o s' o') : Owned s' (Function.update linking i o') := by
  cases hc with
  | stay =>
    rw [← hi, Function.update_eq_self]
    exact ho
  | move n =>
    rw [← hi, Function.update_eq_self]
    exact ⟨ho.pending, ho.unique, ho.made⟩
  | make v => exact ho.make hs hi v
  | link ht hlast => exact ho.link hi
  | swingTail _ hm =>
    rw [← hi, Function.update_eq_self]
    exact ⟨ho.pending, ho.unique, ho.made⟩
  | swingHead _ hm hlt =>
    rw [← hi, Function.update_eq_self]
    exact ⟨ho.pending, ho.unique, ho.made⟩

theorem step_shared (a : Action ι T) (s : State ι T) :
    (step moved a s).shared = (act moved s.shared (s.point a.thread) a).1 := rfl

theorem step_point (a : Action ι T) (s : State ι T) :
    (step moved a s).point a.thread = (act moved s.shared (s.point a.thread) a).2 :=
  Function.update_self _ _ _

theorem step_point_of_ne {j : ι} {a : Action ι T} (hj : j ≠ a.thread) (s : State ι T) :
    (step moved a s).point j = s.point j := Function.update_of_ne hj _ _

variable [Inhabited T]

/-- What holds after every schedule. -/
structure Sound (moved : T → T) (acts : List (Action ι T)) : Prop where
  inv : (run moved acts).shared.Inv
  owned : Owned (run moved acts).shared fun i => ((run moved acts).point i).linking
  ok : ∀ i, ((run moved acts).point i).Ok (run moved acts).shared
    (DuringCall moved acts i fun s => s.shared.AllTaken)
    (DuringCall moved acts i fun s => ¬s.shared.AllTaken)

theorem sound_nil : Sound moved ([] : List (Action ι T)) where
  inv := by
    refine ⟨Threaded.singleton rfl, ?_, fun _ _ => rfl, List.prefix_refl _, ?_, rfl, ?_, le_refl _, ?_⟩
    · intro n hn
      rw [List.mem_singleton.1 (show n ∈ [0] from hn)]
      exact Nat.one_pos
    · exact List.mem_singleton_self 0
    · exact List.mem_singleton_self 0
    · exact Nat.zero_le _
  owned := by
    refine ⟨?_, ?_, ?_⟩
    · intro i n hi
      cases hi
    · intro i j n hi
      cases hi
    · intro n hpos hlt
      exact absurd (show n < 1 from hlt) (by omega)
  ok _ := trivial

theorem run_snoc (acts : List (Action ι T)) (a : Action ι T) :
    run moved (acts ++ [a]) = step moved a (run moved acts) := sched_snoc

/-- A moment of the call, or the present one. -/
theorem duringCall_snoc {acts : List (Action ι T)} {a : Action ι T} {i : ι} {P : State ι T → Prop}
    (hbusy : (run moved (acts ++ [a])).point i ≠ .idle)
    (h : DuringCall moved acts i P ∨ P (run moved (acts ++ [a]))) :
    DuringCall moved (acts ++ [a]) i P := by
  rcases h with h | h
  · exact Lately.snoc h hbusy
  · exact Lately.now hbusy h

theorem Sound.change {acts : List (Action ι T)} (h : Sound moved acts) (a : Action ι T) :
    Change moved (run moved acts).shared ((run moved acts).point a.thread).linking
      (run moved (acts ++ [a])).shared ((run moved (acts ++ [a])).point a.thread).linking := by
  rw [run_snoc, step_shared, step_point]
  exact (act_ok h.inv (h.ok a.thread) a (fun _ => True.intro) fun _ => True.intro).1

theorem Sound.snoc {acts : List (Action ι T)} (h : Sound moved acts) (a : Action ι T) :
    Sound moved (acts ++ [a]) := by
  have hc := h.change a
  have hpoint (j : ι) : (run moved (acts ++ [a])).point j = Function.update (run moved acts).point a.thread
      ((run moved (acts ++ [a])).point a.thread) j := by
    rw [run_snoc, step_point]
    rfl
  have hinv := hc.inv h.inv (h.owned.pending a.thread)
  refine ⟨hinv, ?_, ?_⟩
  · have howned := h.owned.change h.inv rfl hc
    have hlinking : (fun i => ((run moved (acts ++ [a])).point i).linking) =
        Function.update (fun i => ((run moved acts).point i).linking) a.thread
          ((run moved (acts ++ [a])).point a.thread).linking := by
      funext j
      rw [hpoint]
      exact Function.apply_update (fun _ => Point.linking) _ _ _ j
    rw [hlinking]
    exact howned
  · intro j
    by_cases hidle : (run moved (acts ++ [a])).point j = .idle
    · rw [hidle]
      trivial
    have hE := duringCall_snoc (P := fun s => s.shared.AllTaken) hidle
    have hN := duringCall_snoc (P := fun s => ¬s.shared.AllTaken) hidle
    by_cases hj : j = a.thread
    · subst hj
      rw [run_snoc, step_shared] at hE hN ⊢
      rw [step_point]
      exact (act_ok h.inv (h.ok a.thread) a hE hN).2
    · rw [hpoint, Function.update_of_ne hj]
      exact (h.ok j).stable h.inv hinv (hc.evolves h.inv) (fun h => hE (.inl h)) hN

theorem sound (moved : T → T) (acts : List (Action ι T)) : Sound moved acts := by
  induction acts using List.reverseRecOn with
  | nil => exact sound_nil
  | append_singleton acts a ih => exact ih.snoc a

/-- Every step of every thread pushes a node, pops one, or leaves the queue alone. -/
theorem run_fifo (moved : T → T) (acts : List (Action ι T)) (a : Action ι T) :
    FifoStep (run moved acts).shared.queue (run moved (acts ++ [a])).shared.queue ∧
      ((run moved acts).shared.AllTaken ↔ (run moved acts).shared.queue = []) := by
  have h := sound moved acts
  exact ⟨(h.change a).fifo h.inv, h.inv.allTaken_iff_queue⟩

theorem TookDuringCall.snoc {acts : List (Action ι T)} {i : ι} {n : ℕ} (h : TookDuringCall moved acts i n)
    {a : Action ι T} (hbusy : (run moved (acts ++ [a])).point i ≠ .idle) :
    TookDuringCall moved (acts ++ [a]) i n := by
  obtain ⟨k, hk, hthread, htook, hsince⟩ := h
  refine ⟨k, by simp; omega, by rwa [List.getElem_append_left hk], ?_, ?_⟩
  · rwa [List.take_append_of_le_length hk, List.take_append_of_le_length hk.le]
  · intro j hj hj'
    rw [List.length_append, List.length_singleton] at hj'
    rcases Nat.lt_or_eq_of_le hj' with hlt | rfl
    · rw [List.take_append_of_le_length (Nat.le_of_lt_succ hlt)]
      exact hsince j hj (Nat.le_of_lt_succ hlt)
    · rwa [List.take_of_length_le (by simp)]

theorem run_took (moved : T → T) (acts : List (Action ι T)) (i : ι) (n : ℕ) (v : T)
    (h : (run moved acts).point i = .returns (.dequeue (some (n, v)))) : TookDuringCall moved acts i n := by
  induction acts using List.reverseRecOn with
  | nil => cases h
  | append_singleton acts a ih =>
    have hbusy : (run moved (acts ++ [a])).point i ≠ .idle := by simp [h]
    by_cases hi : i = a.thread
    · subst hi
      have hact := h
      rw [run_snoc, step_point] at hact
      rcases act_took hact with hbefore | ⟨hcall, htaken⟩
      · exact (ih hbefore).snoc hbusy
      · -- this is the step that took it
        refine ⟨acts.length, by simp, by simp, ?_, ?_⟩
        · rw [List.take_of_length_le (by simp), List.take_left, run_snoc, step_shared, htaken]
        · intro j hj hj'
          rw [List.length_append, List.length_singleton] at hj'
          rcases Nat.lt_or_eq_of_le hj' with hlt | rfl
          · obtain rfl := Nat.le_antisymm (Nat.le_of_lt_succ hlt) hj
            rwa [List.take_left]
          · rwa [List.take_of_length_le (by simp)]
    · rw [run_snoc, step_point_of_ne hi] at h
      exact (ih h).snoc hbusy

/-- After every schedule: a node is linked once it has left its `enqueue`, and once only; the
nodes taken are the first ones linked, each at most once, and the node that a `dequeue`
returns with was taken by this call; and an answer that the queue is empty, or that it is not,
was right at some moment of the call. -/
theorem run_linearizable (moved : T → T) (acts : List (Action ι T)) :
    (∀ i n, (run moved acts).point i = .returns (.enqueue n) →
      (run moved acts).shared.linked.count n = 1) ∧
    (∀ n, 0 < n → n < (run moved acts).shared.size →
      (n ∈ (run moved acts).shared.linked ↔ ∀ i, ((run moved acts).point i).linking ≠ some n)) ∧
    (run moved acts).shared.linked.Nodup ∧
    (run moved acts).shared.taken <+: (run moved acts).shared.linked ∧
    (∀ i n v, (run moved acts).point i = .returns (.dequeue (some (n, v))) →
      TookDuringCall moved acts i n) ∧
    (∀ i, (run moved acts).point i = .returns (.dequeue none) →
      DuringCall moved acts i fun s => s.shared.AllTaken) ∧
    (∀ i, (run moved acts).point i = .returns (.empty true) →
      DuringCall moved acts i fun s => s.shared.AllTaken) ∧
    ∀ i, (run moved acts).point i = .returns (.empty false) →
      DuringCall moved acts i fun s => ¬s.shared.AllTaken := by
  have h := sound moved acts
  have hok {i : ι} {p : Point T} (hi : (run moved acts).point i = p) := hi ▸ h.ok i
  refine ⟨fun i n hi => ?_, fun n hpos hlt => ⟨?_, ?_⟩, h.inv.nodup_linked, h.inv.taken,
    run_took moved acts, fun i hi => hok hi, fun i hi => hok hi, fun i hi => hok hi⟩
  · exact List.count_eq_one_of_mem h.inv.nodup_linked (hok hi)
  · intro hmem i hi
    exact (h.owned.pending i n hi).2 (List.mem_cons_of_mem _ hmem)
  · intro hall
    rcases h.owned.made n hpos hlt with hmem | ⟨i, hi⟩
    · exact hmem
    · exact absurd hi (hall i)

end LockfreeQueue

end LearnSpdk
