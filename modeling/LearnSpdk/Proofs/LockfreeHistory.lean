import LearnSpdk.Lib.Interleaving
import LearnSpdk.Proofs.LockfreePayload
import LearnSpdk.Spec.LockfreeClients

/-! What the threads of the lock-free queue see. The order in which the nodes are linked is
made of the `enqueue` calls of each thread, in their order, and the order in which they are
taken of the `dequeue` calls. -/

namespace LearnSpdk

open Lib

namespace LockfreeQueue

open Shared

variable {ι T : Type} {moved : T → T} {s : Shared T} {p : Point T}

namespace Point

/-- The node that a call has linked and not yet returned. -/
def put : Point T → List ℕ
  | .enqueue newNode (.swingTail _) => [newNode]
  | .returns r => r.put.toList
  | _ => []

/-- What a call has taken and not yet returned. -/
def got : Point T → List (ℕ × T)
  | .returns r => r.got.toList
  | _ => []

end Point

theorem taken_casTail {t m : ℕ} (fails : Bool) : (s.casTail fails t m).taken = s.taken := by
  unfold casTail
  split <;> rfl

/-- What a step adds to the order of the links, `l`, and of what is taken, `m`, it adds for its
thread. -/
structure Adds (s : Shared T) (p : Point T) (r : Shared T × Point T) (l m : List ℕ) : Prop where
  linked : r.1.linked = s.linked ++ l
  put : r.2.put = p.put ++ l
  taken : r.1.taken = s.taken ++ m
  got : r.2.got.map Prod.fst = p.got.map Prod.fst ++ m

theorem adds_nothing {r : Shared T × Point T} (hlinked : r.1.linked = s.linked) (hput : r.2.put = p.put)
    (htaken : r.1.taken = s.taken) (hgot : r.2.got = p.got) : ∃ l m, Adds s p r l m :=
  ⟨[], [], by rw [hlinked, List.append_nil], by rw [hput, List.append_nil], by rw [htaken, List.append_nil],
    by rw [hgot, List.append_nil]⟩

theorem enqueueStep_adds (fails : Bool) (newNode : ℕ) (s : Shared T) (e : EnqueuePoint) :
    ∃ l m, Adds s (.enqueue newNode e) (enqueueStep fails newNode s e) l m := by
  cases e with
  | loadTail => exact adds_nothing rfl rfl rfl rfl
  | loadNext tailPtr => exact adds_nothing rfl rfl rfl rfl
  | checkTail tailPtr nextPtr =>
    simp only [enqueueStep]
    split_ifs
    · cases nextPtr <;> exact adds_nothing rfl rfl rfl rfl
    · exact adds_nothing rfl rfl rfl rfl
  | link tailPtr =>
    simp only [enqueueStep]
    split_ifs
    · exact ⟨[newNode], [], rfl, rfl, (List.append_nil _).symm, rfl⟩
    · exact adds_nothing rfl rfl rfl rfl
  | helpTail tailPtr nextPtr => exact adds_nothing (linked_casTail fails) rfl (taken_casTail fails) rfl
  | swingTail tailPtr => exact adds_nothing (linked_casTail fails) rfl (taken_casTail fails) rfl

theorem dequeueStep_adds (moved : T → T) (fails : Bool) (s : Shared T) (d : DequeuePoint T) :
    ∃ l m, Adds s (.dequeue d) (dequeueStep moved fails s d) l m := by
  cases d with
  | loadHead => exact adds_nothing rfl rfl rfl rfl
  | loadTail headPtr => exact adds_nothing rfl rfl rfl rfl
  | loadNext headPtr tailPtr => exact adds_nothing rfl rfl rfl rfl
  | checkHead headPtr tailPtr nextPtr =>
    simp only [dequeueStep]
    split_ifs
    · cases nextPtr <;> exact adds_nothing rfl rfl rfl rfl
    · cases nextPtr <;> exact adds_nothing rfl rfl rfl rfl
    · exact adds_nothing rfl rfl rfl rfl
  | helpTail tailPtr nextPtr => exact adds_nothing (linked_casTail fails) rfl (taken_casTail fails) rfl
  | moveData headPtr nextPtr => exact adds_nothing rfl rfl rfl rfl
  | swingHead headPtr nextPtr value =>
    simp only [dequeueStep]
    split_ifs
    · exact ⟨[], [nextPtr], (List.append_nil _).symm, rfl, rfl, rfl⟩
    · exact adds_nothing rfl rfl rfl rfl

theorem emptyStep_adds (s : Shared T) (q : EmptyPoint) : ∃ l m, Adds s (.empty q) (emptyStep s q) l m := by
  cases q with
  | loadHead => exact adds_nothing rfl rfl rfl rfl
  | loadTail headPtr =>
    simp only [emptyStep]
    split_ifs
    · exact adds_nothing rfl rfl rfl rfl
    · exact adds_nothing rfl rfl rfl rfl
  | loadNext headPtr => exact adds_nothing rfl rfl rfl rfl

/-- An action that does not end a call. -/
theorem act_adds (moved : T → T) (s : Shared T) {a : Action ι T} (hnone : answered p a = none) :
    ∃ l m, Adds s p (act moved s p a) l m := by
  cases a with
  | call i c =>
    by_cases hidle : p = .idle
    · subst hidle
      cases c <;> exact adds_nothing rfl rfl rfl rfl
    · rw [act_call hidle]
      exact adds_nothing rfl rfl rfl rfl
  | advance i fails =>
    cases p with
    | idle => exact adds_nothing rfl rfl rfl rfl
    | enqueue newNode e => exact enqueueStep_adds fails newNode s e
    | dequeue d => exact dequeueStep_adds moved fails s d
    | empty q => exact emptyStep_adds s q
    | returns r => cases hnone

/-- An action that ends a call leaves the queue as it is. -/
theorem act_answered (moved : T → T) (s : Shared T) {a : Action ι T} {r : Result T}
    (hr : answered p a = some r) : p = .returns r ∧ act moved s p a = (s, .idle) := by
  cases a with
  | call i c => cases hr
  | advance i fails =>
    cases p with
    | returns r' =>
      obtain rfl := Option.some_inj.1 hr
      exact ⟨rfl, rfl⟩
    | _ => cases hr

/-- What an action adds to the links it adds for its thread, in its result or in its point. -/
theorem act_put (moved : T → T) (s : Shared T) (p : Point T) (a : Action ι T) :
    ∃ l, (act moved s p a).1.linked = s.linked ++ l ∧
      (answered p a).toList.filterMap Result.put ++ (act moved s p a).2.put = p.put ++ l := by
  cases hr : answered p a with
  | none =>
    obtain ⟨l, m, hadds⟩ := act_adds moved s hr
    exact ⟨l, hadds.linked, hadds.put⟩
  | some r =>
    obtain ⟨rfl, hact⟩ := act_answered moved s hr
    rw [hact]
    exact ⟨[], (List.append_nil _).symm, by cases r <;> rfl⟩

theorem act_got (moved : T → T) (s : Shared T) (p : Point T) (a : Action ι T) :
    ∃ l, (act moved s p a).1.taken = s.taken ++ l ∧
      ((answered p a).toList.filterMap Result.got).map Prod.fst ++ (act moved s p a).2.got.map Prod.fst =
        p.got.map Prod.fst ++ l := by
  cases hr : answered p a with
  | none =>
    obtain ⟨l, m, hadds⟩ := act_adds moved s hr
    exact ⟨m, hadds.taken, hadds.got⟩
  | some r =>
    obtain ⟨rfl, hact⟩ := act_answered moved s hr
    rw [hact]
    refine ⟨[], (List.append_nil _).symm, ?_⟩
    cases r with
    | dequeue taken => cases taken <;> rfl
    | _ => rfl

/-! ### Histories -/

variable [DecidableEq ι] {acts : List (Action ι T)}

theorem results_step (moved : T → T) (h : History ι T) (a : Action ι T) :
    (h.step moved a).results a.thread = h.results a.thread ++ (answered (h.state.point a.thread) a).toList := by
  simp [History.results, History.step, List.filter_map, Function.comp_def]

theorem results_step_of_ne (moved : T → T) (h : History ι T) {a : Action ι T} {j : ι} (hj : j ≠ a.thread) :
    (h.step moved a).results j = h.results j := by
  simp [History.results, History.step, List.filter_map, Function.comp_def, Ne.symm hj]

def History.linked (h : History ι T) (i : ι) : List ℕ := h.enqueued i ++ (h.state.point i).put

def History.taken (h : History ι T) (i : ι) : List ℕ :=
  (h.dequeued i).map Prod.fst ++ (h.state.point i).got.map Prod.fst

variable [Inhabited T]

theorem history_snoc (acts : List (Action ι T)) (a : Action ι T) :
    history moved (acts ++ [a]) = (history moved acts).step moved a := sched_snoc

theorem history_state (moved : T → T) (acts : List (Action ι T)) :
    (history moved acts).state = run moved acts := by
  induction acts using List.reverseRecOn with
  | nil => rfl
  | append_singleton acts a ih => rw [history_snoc, run_snoc, History.step, ih]

theorem linked_interleaves (moved : T → T) (acts : List (Action ι T)) :
    Interleaves (run moved acts).shared.linked (history moved acts).linked := by
  induction acts using List.reverseRecOn with
  | nil => exact Interleaves.nil
  | append_singleton acts a ih =>
    obtain ⟨l, hl, hput⟩ := act_put moved (run moved acts).shared ((run moved acts).point a.thread) a
    rw [run_snoc, step_shared, hl]
    refine ih.append a.thread l ?_ fun j hj => ?_
    · rw [History.linked, History.linked, history_snoc, History.enqueued, results_step, List.filterMap_append,
        History.step, step_point, history_state, List.append_assoc, hput, ← List.append_assoc]
      rfl
    · rw [History.linked, History.linked, history_snoc, History.enqueued, results_step_of_ne moved _ hj,
        History.step, step_point_of_ne hj]
      rfl

theorem taken_interleaves (moved : T → T) (acts : List (Action ι T)) :
    Interleaves (run moved acts).shared.taken (history moved acts).taken := by
  induction acts using List.reverseRecOn with
  | nil => exact Interleaves.nil
  | append_singleton acts a ih =>
    obtain ⟨l, hl, hgot⟩ := act_got moved (run moved acts).shared ((run moved acts).point a.thread) a
    rw [run_snoc, step_shared, hl]
    refine ih.append a.thread l ?_ fun j hj => ?_
    · rw [History.taken, History.taken, history_snoc, History.dequeued, results_step, List.filterMap_append,
        List.map_append, History.step, step_point, history_state, List.append_assoc, hgot, ← List.append_assoc]
      rfl
    · rw [History.taken, History.taken, history_snoc, History.dequeued, results_step_of_ne moved _ hj,
        History.step, step_point_of_ne hj]
      rfl

theorem mem_taken_of_dequeued {i : ι} {t : ℕ × T} (ht : t ∈ (history moved acts).dequeued i) :
    t.1 ∈ (run moved acts).shared.taken :=
  ((taken_interleaves moved acts).sublist i).subset (List.mem_append_left _ (List.mem_map_of_mem ht))

theorem mem_linked_of_enqueued {i : ι} {n : ℕ} (hn : n ∈ (history moved acts).enqueued i) :
    n ∈ (run moved acts).shared.linked :=
  ((linked_interleaves moved acts).sublist i).subset (List.mem_append_left _ hn)

/-- What the threads do later leaves the order of the links as it is. -/
theorem run_evolves (moved : T → T) (acts later : List (Action ι T)) :
    (run moved acts).shared.linked <+: (run moved (acts ++ later)).shared.linked ∧
      ∀ n < (run moved acts).shared.size,
        ((run moved (acts ++ later)).shared.heap n).given = ((run moved acts).shared.heap n).given ∧
          n < (run moved (acts ++ later)).shared.size := by
  induction later using List.reverseRecOn with
  | nil => rw [List.append_nil]; exact ⟨List.prefix_refl _, fun n hn => ⟨rfl, hn⟩⟩
  | append_singleton later a ih =>
    have h := sound moved (acts ++ later)
    have he := (h.change a).evolves h.inv
    rw [← List.append_assoc]
    refine ⟨ih.1.trans he.linked, fun n hn => ?_⟩
    obtain ⟨hgiven, hlt⟩ := ih.2 n hn
    exact ⟨(he.given n hlt).trans hgiven, hlt.trans_le he.size⟩

theorem dequeued_given (hmoved : ∀ v, moved v = v) (acts : List (Action ι T)) (i : ι) :
    ∀ t ∈ (history moved acts).dequeued i, t.2 = ((run moved acts).shared.heap t.1).given := by
  induction acts using List.reverseRecOn with
  | nil =>
    intro t ht
    cases ht
  | append_singleton acts a ih =>
    intro t ht
    have hinv := (sound moved acts).inv
    have hstable (hmem : t.1 ∈ (run moved acts).shared.taken)
        (hgiven : t.2 = ((run moved acts).shared.heap t.1).given) :
        t.2 = ((run moved (acts ++ [a])).shared.heap t.1).given := by
      have hlt := hinv.lt _ (List.mem_cons_of_mem _ (hinv.taken.subset hmem))
      exact hgiven.trans ((run_evolves moved acts [a]).2 _ hlt).1.symm
    rw [History.dequeued, history_snoc] at ht
    by_cases hi : i = a.thread
    · subst hi
      rw [results_step, List.filterMap_append, List.mem_append, history_state] at ht
      rcases ht with ht | ht
      · exact hstable (mem_taken_of_dequeued ht) (ih t ht)
      · -- the call of the thread returns with `t`
        obtain ⟨r, hr, hgot⟩ := List.mem_filterMap.1 ht
        obtain rfl : r = .dequeue (some t) := by
          cases r with
          | dequeue taken => exact congrArg Result.dequeue hgot
          | _ => cases hgot
        have hpoint := (act_answered moved (run moved acts).shared (Option.mem_toList.1 hr)).1
        have hok := (sound moved acts).ok a.thread
        rw [hpoint] at hok
        exact hstable hok (intact_of_moved hmoved acts a.thread t.1 t.2 hpoint)
    · rw [results_step_of_ne moved _ hi] at ht
      exact hstable (mem_taken_of_dequeued ht) (ih t ht)

/-- What the clients of the queue can rely on after the actions `acts`, with those before
them in `earlier`. -/
structure Delivers (moved : T → T) (acts earlier : List (Action ι T)) : Prop where
  /-- No node is given out twice. -/
  nodup : ∀ i, (((history moved acts).dequeued i).map Prod.fst).Nodup
  unique : ∀ i j n v w, (n, v) ∈ (history moved acts).dequeued i → (n, w) ∈ (history moved acts).dequeued j → i = j
  /-- A thread gets what another one put in the order in which that one put it. -/
  order : ∀ i j, ((((history moved acts).dequeued j).map Prod.fst).filter
    (· ∈ (history moved acts).enqueued i)).Sublist ((history moved acts).enqueued i)
  /-- A call of `enqueue` that returned before another one began is served before it. -/
  precedes : ∀ i n, n ∈ (history moved earlier).enqueued i → ∀ j m v, (m, v) ∈ (history moved acts).dequeued j →
    (run moved earlier).shared.size ≤ m → [n, m].Sublist (run moved acts).shared.taken
  /-- What was put is in the queue until it is given out. -/
  kept : (∀ i, (run moved acts).point i = .idle) → ∀ i, ∀ n ∈ (history moved acts).enqueued i,
    n ∈ (run moved acts).shared.queue ∨ ∃ j v, (n, v) ∈ (history moved acts).dequeued j
  /-- With its value. -/
  given : (∀ v, moved v = v) → ∀ j n v, (n, v) ∈ (history moved acts).dequeued j →
    v = ((run moved acts).shared.heap n).given

/-- Whatever the schedule. -/
theorem run_delivers (moved : T → T) (earlier later : List (Action ι T)) :
    Delivers moved (earlier ++ later) earlier := by
  have hinv := (sound moved (earlier ++ later)).inv
  have hlinked := linked_interleaves moved (earlier ++ later)
  have htaken := taken_interleaves moved (earlier ++ later)
  have hnodup := hinv.nodup_linked.sublist hinv.taken.sublist
  have hdequeued (j : ι) : (((history moved (earlier ++ later)).dequeued j).map Prod.fst).Sublist
      (run moved (earlier ++ later)).shared.taken := (List.sublist_append_left _ _).trans (htaken.sublist j)
  refine ⟨fun i => hnodup.sublist (hdequeued i), ?_, ?_, ?_, ?_, ?_⟩
  · intro i j n v w hi hj
    have htook {k : ι} {x : T} (hk : (n, x) ∈ (history moved (earlier ++ later)).dequeued k) :
        n ∈ (history moved (earlier ++ later)).taken k :=
      List.mem_append_left _ (List.mem_map.2 ⟨(n, x), hk, rfl⟩)
    exact htaken.eq_of_mem hnodup (htook hi) (htook hj)
  · intro i j
    exact filter_sublist_of_sublist hinv.nodup_linked ((hdequeued j).trans hinv.taken.sublist)
      ((List.sublist_append_left _ _).trans (hlinked.sublist i))
  · intro i n hn j m v hm hsize
    have hold := (sound moved earlier).inv
    have hlater : m ∉ (run moved earlier).shared.linked := fun hmem =>
      absurd (hold.lt m (List.mem_cons_of_mem _ hmem)) (Nat.not_lt.2 hsize)
    have hmem : m ∈ (run moved (earlier ++ later)).shared.taken := mem_taken_of_dequeued hm
    have hbefore := (run_evolves moved earlier later).1
    -- the links made by then are in front of those taken by now
    rcases List.prefix_or_prefix_of_prefix hbefore hinv.taken with ⟨l, hl⟩ | hle
    · rw [← hl] at hmem ⊢
      have hml : m ∈ l := (List.mem_append.1 hmem).resolve_left hlater
      exact (List.singleton_sublist.2 (mem_linked_of_enqueued hn)).append (List.singleton_sublist.2 hml)
    · exact absurd (hle.subset hmem) hlater
  · intro hidle i n hn
    have hmem := mem_linked_of_enqueued hn
    rw [hinv.linked_eq, List.mem_append] at hmem
    rcases hmem with hmem | hmem
    · obtain ⟨j, hj⟩ := htaken.exists_of_mem hmem
      rw [History.taken, history_state, hidle j] at hj
      obtain ⟨t, ht, rfl⟩ := List.mem_map.1 ((List.mem_append.1 hj).resolve_right (by simp [Point.got]))
      exact .inr ⟨j, t.2, ht⟩
    · exact .inl hmem
  · intro hmoved j n v hv
    exact dequeued_given hmoved _ j (n, v) hv

end LockfreeQueue

end LearnSpdk
