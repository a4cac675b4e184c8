import LearnSpdk.Proofs.LockfreeTest
import Mathlib.Tactic.IntervalCases

/-! What `test_queue` prints, and what its threads end with. -/

namespace LearnSpdk

open Lib

namespace LockfreeQueue

open Shared

/-- What the main thread sees of a result. -/
inductive Answer where
  | enqueued
  | dequeued (value : Option ℤ)
  | empty (answer : Bool)
deriving DecidableEq

def Result.answer : Result ℤ → Answer
  | .enqueue _ => .enqueued
  | .dequeue taken => .dequeued (taken.map Prod.snd)
  | .empty answer => .empty answer

def Answer.value : Answer → Option ℤ
  | .dequeued value => value
  | _ => none

/-- The four tests pass, the assertion holds, and the queue is empty at the end if nothing was
left over when the values were shared out. -/
def expected (z : Sizes) : List Answer :=
  [.enqueued, .enqueued, .enqueued, .dequeued (some 1), .dequeued (some 2), .dequeued (some 3), .dequeued none,
    .empty true, .empty (decide (z.numConsumers * z.share = z.itemsPerProducer * z.numProducers))]

theorem map_snd_got (rs : List (Result ℤ)) :
    (rs.filterMap Result.got).map Prod.snd = (rs.map Result.answer).filterMap Answer.value := by
  rw [List.map_filterMap, List.filterMap_map]
  congr 1
  funext r
  cases r <;> rfl

namespace Program

variable {z : Sizes} {S : Program z} {t u : Thread z} {r : Result ℤ}

structure Sane (S : Program z) : Prop where
  calls : Calls S
  phases : Phases S
  puts : Puts S
  takes : Takes S
  counts : Counts S

theorem sane_initial (z : Sizes) : Sane (initial z) where
  calls := calls_initial z
  phases := phases_initial z
  puts t := by cases t <;> rfl
  takes := ⟨fun _ => rfl, fun _ => rfl⟩
  counts := ⟨by simp [initial], by simp [initial]⟩

theorem Sane.turn {fails : Bool} {S' : Program z} (h : Sane S) (hturn : Turn S t fails S') : Sane S' where
  calls := h.calls.turn hturn
  phases := h.phases.turn h.calls hturn
  puts := h.puts.turn h.calls hturn
  takes := h.takes.turn h.calls hturn
  counts := h.counts.turn h.calls hturn

/-! ### Nodes and values -/

theorem Reached.linked_interleaves (h : Reached S) : Interleaves S.shared.linked S.history.linked := by
  obtain ⟨acts, hacts, hstate⟩ := h.state
  rw [shared, hstate, hacts]
  exact LockfreeQueue.linked_interleaves id acts

theorem Reached.taken_interleaves (h : Reached S) : Interleaves S.shared.taken S.history.taken := by
  obtain ⟨acts, hacts, hstate⟩ := h.state
  rw [shared, hstate, hacts]
  exact LockfreeQueue.taken_interleaves id acts

theorem Reached.givens_dequeued (h : Reached S) (t : Thread z) :
    S.givens ((S.history.dequeued t).map Prod.fst) = (S.history.dequeued t).map Prod.snd := by
  obtain ⟨acts, hacts, hstate⟩ := h.state
  rw [givens, List.map_map]
  refine List.map_congr_left fun taken htaken => ?_
  rw [hacts] at htaken
  rw [Function.comp, shared, hstate]
  exact (dequeued_given (fun _ => rfl) acts t taken htaken).symm

theorem Reached.givens_got (h : Reached S) (hr : S.point t = .returns r) :
    S.givens (r.got.toList.map Prod.fst) = r.got.toList.map Prod.snd := by
  obtain ⟨acts, hacts, hstate⟩ := h.state
  have hintact := intact_of_moved (fun v : ℤ => (rfl : id v = v)) acts t
  rw [← hstate] at hintact
  match r with
  | .dequeue (some (n, value)) =>
    have hvalue : value = (S.shared.heap n).given := hintact n value hr
    simp [givens, Result.got, hvalue]
  | .dequeue none => rfl
  | .enqueue _ => rfl
  | .empty _ => rfl

theorem Reached.givens_taken (h : Reached S) : S.givens S.shared.taken <+: S.givens S.shared.linked :=
  h.inv.taken.map _

theorem Reached.allTaken_iff (h : Reached S) :
    S.shared.AllTaken ↔ (S.givens S.shared.linked).length ≤ (S.givens S.shared.taken).length := by
  rw [h.inv.allTaken_iff, givens, givens, List.length_map, List.length_map]

/-- Until the others are started, the queue holds what the main thread put there. -/
theorem Sane.before_start (h : Sane S) (hlt : S.turn .main < prelude.length) :
    S.shared.linked = S.history.linked .main ∧ S.shared.taken = S.history.taken .main := by
  have hfresh (t : Thread z) (ht : t ≠ .main) : S.history.linked t = [] ∧ S.history.taken t = [] := by
    obtain ⟨hidle, hturn, hadding⟩ := h.phases.fresh hlt t ht
    have hpoint : S.history.state.point t = .idle := hidle
    have henqueued : S.history.enqueued t = [] := by
      have hputs := h.puts t
      have hfinished : S.finished t = 0 := by cases t <;> simp [finished, hturn, hadding]
      rw [hfinished] at hputs
      exact List.map_eq_nil_iff.1 hputs
    have hdequeued : S.history.dequeued t = [] := by
      cases t with
      | main => exact absurd rfl ht
      | consumer i => exact List.eq_nil_of_length_eq_zero ((h.takes.consumer i).trans hturn)
      | producer i => exact h.takes.producer i
    exact ⟨by rw [History.linked, henqueued, hpoint]; rfl, by rw [History.taken, hdequeued, hpoint]; rfl⟩
  exact ⟨h.calls.reached.linked_interleaves.eq_of_alone fun t ht => (hfresh t ht).1,
    h.calls.reached.taken_interleaves.eq_of_alone fun t ht => (hfresh t ht).2⟩

/-- What the main thread has been told so far. -/
structure Answers (S : Program z) : Prop where
  answers : (S.history.results .main).map Result.answer = (expected z).take (S.turn .main)
  running : S.aborted = false
  drained : prelude.length ≤ S.turn .main →
    (S.history.dequeued .main).map Prod.fst = S.history.enqueued .main

theorem Answers.before_start (ha : Answers S) (h : Sane S) (hlt : S.turn .main < prelude.length)
    (hr : S.point .main = .returns r) :
    S.givens S.shared.linked = Thread.main.values (z := z) (S.turn .main) ++ S.givens r.put.toList ∧
      S.givens S.shared.taken =
        ((expected z).take (S.turn .main)).filterMap Answer.value ++ r.got.toList.map Prod.snd := by
  obtain ⟨hlinked, htaken⟩ := h.before_start hlt
  have hpoint : S.history.state.point .main = .returns r := hr
  refine ⟨?_, ?_⟩
  · have hputs := h.puts .main
    rw [hlinked, History.linked, hpoint, givens, List.map_append, ← givens, hputs]
    rfl
  · rw [htaken, History.taken, hpoint, givens, List.map_append, ← givens, ← givens,
      h.calls.reached.givens_dequeued, ← ha.answers, ← map_snd_got, ← h.calls.reached.givens_got hr]
    rfl

/-- Whether the queue is empty, as `empty` and a `dequeue` without result tell the main thread. -/
theorem Sane.told (h : Sane S) (hr : S.point .main = .returns r) :
    (r = .dequeue none → S.shared.AllTaken) ∧
      ∀ answer, r = .empty answer → (answer = true ↔ S.shared.AllTaken) := by
  have halone := h.phases.alone
  rw [hr] at halone
  refine ⟨?_, ?_⟩
  · rintro rfl
    exact halone
  · rintro answer rfl
    cases answer with
    | true => exact ⟨fun _ => halone, fun _ => rfl⟩
    | false => exact ⟨nofun, fun hall => absurd hall halone⟩

theorem dequeue_answer (vs : List ℤ) (v : ℤ) (rest : List ℤ) {taken : Option (ℕ × ℤ)}
    (hnone : taken = none → (vs ++ v :: rest).length ≤ (vs ++ taken.toList.map Prod.snd).length)
    (hfront : vs ++ taken.toList.map Prod.snd <+: vs ++ v :: rest) : taken.map Prod.snd = some v := by
  cases taken with
  | none =>
    have hle := hnone rfl
    simp at hle
  | some taken =>
    rw [List.prefix_append_right_inj] at hfront
    exact congrArg some (List.cons_prefix_cons.1 hfront).1

theorem Answers.answer_before_start (ha : Answers S) (h : Sane S) (hlt : S.turn .main < prelude.length)
    (hr : S.point .main = .returns r) : (expected z)[S.turn .main]? = some r.answer := by
  obtain ⟨hlinked, htaken⟩ := ha.before_start h hlt hr
  obtain ⟨-, c, hcall, hruns⟩ := h.calls.returns hr
  obtain ⟨hnone, hempty⟩ := h.told hr
  have hfront := h.calls.reached.givens_taken
  rw [h.calls.reached.allTaken_iff] at hnone
  simp only [h.calls.reached.allTaken_iff] at hempty
  rw [hlinked, htaken] at hfront hnone
  simp only [hlinked, htaken] at hempty
  clear hlinked htaken
  have hk : S.turn .main < 8 := hlt
  generalize S.turn .main = k at *
  have hcall' (c' : Call ℤ) (h : Thread.main.call (z := z) k = some c') : c = c' := by
    rw [hcall] at h
    exact Option.some.inj h
  interval_cases k
  · obtain rfl := hcall' (.enqueue 1) rfl
    obtain ⟨n, rfl⟩ := hruns.of_enqueue
    rfl
  · obtain rfl := hcall' (.enqueue 2) rfl
    obtain ⟨n, rfl⟩ := hruns.of_enqueue
    rfl
  · obtain rfl := hcall' (.enqueue 3) rfl
    obtain ⟨n, rfl⟩ := hruns.of_enqueue
    rfl
  · obtain rfl := hcall' .dequeue rfl
    obtain ⟨taken, rfl⟩ := hruns.of_dequeue
    have hvalue : taken.map Prod.snd = some 1 :=
      dequeue_answer [] 1 [2, 3] (fun h => hnone (congrArg Result.dequeue h)) hfront
    rw [Result.answer, hvalue]
    rfl
  · obtain rfl := hcall' .dequeue rfl
    obtain ⟨taken, rfl⟩ := hruns.of_dequeue
    have hvalue : taken.map Prod.snd = some 2 :=
      dequeue_answer [1] 2 [3] (fun h => hnone (congrArg Result.dequeue h)) hfront
    rw [Result.answer, hvalue]
    rfl
  · obtain rfl := hcall' .dequeue rfl
    obtain ⟨taken, rfl⟩ := hruns.of_dequeue
    have hvalue : taken.map Prod.snd = some 3 :=
      dequeue_answer [1, 2] 3 [] (fun h => hnone (congrArg Result.dequeue h)) hfront
    rw [Result.answer, hvalue]
    rfl
  · obtain rfl := hcall' .dequeue rfl
    obtain ⟨taken, rfl⟩ := hruns.of_dequeue
    cases taken with
    | none => rfl
    | some taken =>
      have hle : 4 ≤ 3 := hfront.length_le
      omega
  · obtain rfl := hcall' .empty rfl
    obtain ⟨answer, rfl⟩ := hruns.of_empty
    rw [(hempty answer rfl).2 (le_refl 3)]
    rfl

/-! ### The end -/

def threads (z : Sizes) : List (Thread z) :=
  .main :: ((List.finRange z.numConsumers).map .consumer ++ (List.finRange z.numProducers).map .producer)

theorem nodup_threads (z : Sizes) : (threads z).Nodup := by
  refine List.nodup_cons.2 ⟨by simp, List.Nodup.append ?_ ?_ ?_⟩
  · exact (List.nodup_finRange _).map fun _ _ => Thread.consumer.inj
  · exact (List.nodup_finRange _).map fun _ _ => Thread.producer.inj
  · intro t hconsumer hproducer
    obtain ⟨i, -, rfl⟩ := List.mem_map.1 hconsumer
    obtain ⟨j, -, hj⟩ := List.mem_map.1 hproducer
    cases hj

theorem mem_threads (t : Thread z) : t ∈ threads z := by
  cases t <;> simp [threads]

def sent (z : Sizes) (i : Fin z.numProducers) : List ℤ :=
  (List.range z.itemsPerProducer).map fun j => ((i.val * z.itemsPerProducer + j : ℕ) : ℤ)

theorem values_producer (i : Fin z.numProducers) : (Thread.producer i).values z.itemsPerProducer = sent z i := by
  rw [Thread.values, sent, ← List.filterMap_eq_map']
  refine List.filterMap_congr fun j hj => ?_
  rw [Thread.call, if_pos (List.mem_range.1 hj)]
  rfl

theorem values_main {k : ℕ} (h : 3 ≤ k) : (Thread.main : Thread z).values k = [1, 2, 3] := by
  obtain ⟨m, rfl⟩ := Nat.exists_eq_add_of_le h
  have hnone (j : ℕ) : ((Thread.main : Thread z).call (3 + j)).bind Call.value = none := by
    rw [Nat.add_comm]
    change ([.dequeue, .dequeue, .dequeue, .dequeue, .empty, .empty] : List (Call ℤ))[j]?.bind Call.value = none
    match j with
    | 0 | 1 | 2 | 3 | 4 | 5 => rfl
    | j + 6 => rfl
  induction m with
  | zero => rfl
  | succ m ih => rw [← Nat.add_assoc, values_succ, ih (Nat.le_add_right 3 m), hnone]; rfl

def received (S : Program z) (i : Fin z.numConsumers) : List ℤ := (S.history.dequeued (.consumer i)).map Prod.snd

/-- No call is about to return with a node. -/
def Settled (S : Program z) : Prop := ∀ t, (S.point t).put = [] ∧ (S.point t).got = []

theorem Sane.turns_of_joined (h : Sane S) (hjoined : S.joined = true) :
    (∀ i, S.turn (.consumer i) = z.share ∧ S.adding (.consumer i) = false) ∧
      ∀ i, S.turn (.producer i) = z.itemsPerProducer ∧ S.adding (.producer i) = false := by
  simp only [joined, Bool.and_eq_true, decide_eq_true_iff] at hjoined
  refine ⟨fun i => ?_, fun i => ?_⟩
  · obtain ⟨-, hadding, hcall⟩ := ended_iff.1 (hjoined.1 i)
    have hle := h.calls.consumer i
    simp only [Thread.call, ite_eq_right_iff, reduceCtorEq, imp_false, not_lt] at hcall
    exact ⟨le_antisymm hle hcall, hadding⟩
  · obtain ⟨-, hadding, hcall⟩ := ended_iff.1 (hjoined.2 i)
    have hle := h.calls.producer i
    simp only [Thread.call, ite_eq_right_iff, reduceCtorEq, imp_false, not_lt] at hcall
    exact ⟨le_antisymm (le_trans (Nat.le_add_right _ _) hle) hcall, hadding⟩

theorem Sane.givens_linked (h : Sane S) (hsettled : Settled S) (hjoined : S.joined = true)
    (hmain : prelude.length ≤ S.turn .main) :
    (S.givens S.shared.linked).Perm ([1, 2, 3] ++ (List.finRange z.numProducers).flatMap (sent z)) := by
  have hperm := h.calls.reached.linked_interleaves.perm (nodup_threads z) fun t _ => mem_threads t
  refine (hperm.map _).trans (List.Perm.of_eq ?_)
  have hvalues (t : Thread z) : S.givens (S.history.linked t) = t.values (S.finished t) := by
    rw [← h.puts t, History.linked, show (S.history.state.point t).put = [] from (hsettled t).1, List.append_nil]
  have hproducer (i : Fin z.numProducers) : S.givens (S.history.linked (.producer i)) = sent z i := by
    obtain ⟨hturn, hadding⟩ := (h.turns_of_joined hjoined).2 i
    rw [hvalues, finished, hturn, hadding, ← values_producer]
    rfl
  have hconsumer (i : Fin z.numConsumers) : S.givens (S.history.linked (.consumer i)) = [] := by
    rw [hvalues, values_consumer]
  have hmain' : S.givens (S.history.linked .main) = [1, 2, 3] := by
    rw [hvalues]
    exact values_main (le_trans (by decide) hmain)
  rw [List.map_flatMap, threads, List.flatMap_cons, List.flatMap_append, List.flatMap_map, List.flatMap_map]
  change S.givens _ ++ ((List.finRange z.numConsumers).flatMap (fun i => S.givens _) ++
    (List.finRange z.numProducers).flatMap fun i => S.givens _) = _
  rw [hmain', List.flatMap_congr fun i _ => hconsumer i, List.flatMap_congr fun i _ => hproducer i]
  simp

theorem Sane.givens_taken (h : Sane S) (hsettled : Settled S)
    (hmain : (S.history.dequeued .main).map Prod.snd = [1, 2, 3]) :
    (S.givens S.shared.taken).Perm ([1, 2, 3] ++ (List.finRange z.numConsumers).flatMap S.received) := by
  have hperm := h.calls.reached.taken_interleaves.perm (nodup_threads z) fun t _ => mem_threads t
  refine (hperm.map _).trans (List.Perm.of_eq ?_)
  have hvalues (t : Thread z) : S.givens (S.history.taken t) = (S.history.dequeued t).map Prod.snd := by
    rw [← h.calls.reached.givens_dequeued, History.taken,
      show (S.history.state.point t).got = [] from (hsettled t).2, List.map_nil, List.append_nil]
  have hproducer (i : Fin z.numProducers) : S.givens (S.history.taken (.producer i)) = [] := by
    rw [hvalues, h.takes.producer]
    rfl
  rw [List.map_flatMap, threads, List.flatMap_cons, List.flatMap_append, List.flatMap_map, List.flatMap_map]
  change S.givens _ ++ ((List.finRange z.numConsumers).flatMap (fun i => S.givens _) ++
    (List.finRange z.numProducers).flatMap fun i => S.givens _) = _
  rw [hvalues, hmain, List.flatMap_congr fun i _ => hvalues (.consumer i),
    List.flatMap_congr fun i _ => hproducer i]
  have hreceived : S.received = fun i => (S.history.dequeued (.consumer i)).map Prod.snd := rfl
  rw [hreceived]
  simp

theorem Answers.dequeued_main (ha : Answers S) (hmain : prelude.length ≤ S.turn .main) :
    (S.history.dequeued .main).map Prod.snd = [1, 2, 3] := by
  obtain ⟨m, hm⟩ := Nat.exists_eq_add_of_le hmain
  rw [History.dequeued, map_snd_got, ha.answers, hm]
  cases m with
  | zero => rfl
  | succ m =>
    have hlength : (expected z).length ≤ prelude.length + (m + 1) := Nat.add_le_add_left (Nat.le_add_left 1 m) 8
    rw [List.take_of_length_le hlength]
    rfl

theorem length_flatMap_of_length {n k : ℕ} {f : Fin n → List ℤ} (h : ∀ i, (f i).length = k) :
    ((List.finRange n).flatMap f).length = n * k := by
  rw [List.length_flatMap]
  simp [h]

theorem Answers.allTaken_iff (ha : Answers S) (h : Sane S) (hsettled : Settled S) (hjoined : S.joined = true)
    (hmain : prelude.length ≤ S.turn .main) :
    S.shared.AllTaken ↔ z.numConsumers * z.share = z.itemsPerProducer * z.numProducers := by
  have hlinked := (h.givens_linked hsettled hjoined hmain).length_eq
  have htaken := (h.givens_taken hsettled (ha.dequeued_main hmain)).length_eq
  have hsent (i : Fin z.numProducers) : (sent z i).length = z.itemsPerProducer := by simp [sent]
  have hreceived (i : Fin z.numConsumers) : (S.received i).length = z.share := by
    rw [received, List.length_map, h.takes.consumer i]
    exact ((h.turns_of_joined hjoined).1 i).1
  have hshare : z.numConsumers * z.share ≤ z.itemsPerProducer * z.numProducers := Nat.mul_div_le _ _
  have hcomm := Nat.mul_comm z.itemsPerProducer z.numProducers
  rw [List.length_append, length_flatMap_of_length hsent] at hlinked
  rw [List.length_append, length_flatMap_of_length hreceived] at htaken
  rw [h.calls.reached.allTaken_iff, hlinked, htaken]
  omega

theorem settled_of_joined (hjoined : S.joined = true) (hput : (S.point .main).put = [])
    (hgot : (S.point .main).got = []) : Settled S := by
  intro t
  by_cases ht : t = .main
  · subst ht
    exact ⟨hput, hgot⟩
  · obtain ⟨hidle, -⟩ := ended_iff.1 (joined_iff.1 hjoined t ht)
    rw [hidle]
    exact ⟨rfl, rfl⟩

theorem call_main_of_le {k : ℕ} {c : Call ℤ} (hk : prelude.length ≤ k)
    (h : (Thread.main : Thread z).call k = some c) : k = prelude.length ∧ c = .empty := by
  obtain ⟨m, rfl⟩ := Nat.exists_eq_add_of_le hk
  cases m with
  | zero => exact ⟨rfl, (Option.some.inj h).symm⟩
  | succ m =>
    rw [Thread.call, List.getElem?_eq_none (by simp)] at h
    cases h

theorem Answers.answer (ha : Answers S) (h : Sane S) (hr : S.point .main = .returns r) :
    (expected z)[S.turn .main]? = some r.answer := by
  rcases Nat.lt_or_ge (S.turn .main) prelude.length with hlt | hle
  · exact ha.answer_before_start h hlt hr
  obtain ⟨-, c, hcall, hruns⟩ := h.calls.returns hr
  obtain ⟨hturn, rfl⟩ := call_main_of_le hle hcall
  obtain ⟨answer, rfl⟩ := hruns.of_empty
  have hjoined := (h.phases.waits (ne_idle_of_returns hr)).resolve_left (Nat.not_lt.2 hle)
  have hiff := ha.allTaken_iff h (settled_of_joined hjoined (by rw [hr]; rfl) (by rw [hr]; rfl)) hjoined hle
  rw [← (h.told hr).2 answer rfl] at hiff
  rw [hturn, Result.answer]
  change some (Answer.empty (decide _)) = _
  cases answer with
  | true => rw [decide_eq_true (hiff.1 rfl)]
  | false => rw [decide_eq_false fun heq => Bool.false_ne_true (hiff.2 heq)]

theorem Turn.aborted_eq {fails : Bool} {S' : Program z} (hturn : Turn S t fails S')
    (h : t ≠ .main ∨ ∀ r, S.point t ≠ .returns r) : S'.aborted = S.aborted := by
  cases hturn with
  | add hidle hadding => cases t <;> rfl
  | receive r hr =>
    match t, r with
    | .main, _ => exact absurd hr (h.resolve_left (fun hne => hne rfl) _)
    | .consumer _, .dequeue (some _) => rfl
    | .consumer _, .dequeue none => rfl
    | .consumer _, .enqueue _ => rfl
    | .consumer _, .empty _ => rfl
    | .producer _, _ => rfl
  | _ => rfl

theorem Sane.drained (h : Sane S) (hlt : S.turn .main < prelude.length)
    {answer : Bool} (hr : S.point .main = .returns (.empty answer)) (hanswer : answer = true) :
    (S.history.dequeued .main).map Prod.fst = S.history.enqueued .main := by
  obtain ⟨hlinked, htaken⟩ := h.before_start hlt
  have hpoint : S.history.state.point .main = .returns (.empty answer) := hr
  rw [History.linked, hpoint] at hlinked
  rw [History.taken, hpoint] at htaken
  have hall := ((h.told hr).2 answer rfl).1 hanswer
  have hinv := h.calls.reached.inv
  rw [hinv.allTaken_iff] at hall
  have heq := hinv.taken.eq_of_length (le_antisymm hinv.taken.length_le hall)
  rw [hlinked, htaken] at heq
  simpa [Point.put, Point.got, Result.put, Result.got] using heq

theorem Turn.turn_main_eq {fails : Bool} {S' : Program z} (hturn : Turn S t fails S')
    (h : Thread.main ≠ t ∨ ∀ r, S.point t ≠ .returns r) : S'.turn .main = S.turn .main := by
  rcases h with hne | hquiet
  · exact (hturn.of_ne hne).2.1
  · cases hturn with
    | add hidle hadding => cases t <;> rfl
    | receive r hr => exact absurd hr (hquiet r)
    | _ => rfl

/-- From the end of its prelude on, the main thread looks whether the queue is empty, and at the end
it is. -/
theorem Answers.looks (ha : Answers S) (h : Sane S) (hr : S.point .main = .returns r)
    (hle : prelude.length ≤ S.turn .main + 1) :
    ∃ answer, r = .empty answer ∧ (S.turn .main < prelude.length → answer = true) := by
  have hanswer := ha.answer h hr
  obtain ⟨-, c, hcall, hruns⟩ := h.calls.returns hr
  rcases Nat.lt_or_ge (S.turn .main) prelude.length with hlt | hge
  · have hseven : S.turn .main = 7 := by
      rw [show prelude.length = 8 from rfl] at hle hlt
      omega
    rw [hseven] at hcall hanswer
    obtain rfl : Call.empty = c := Option.some.inj hcall
    obtain ⟨answer, rfl⟩ := hruns.of_empty
    have heq : Answer.empty true = Answer.empty answer := Option.some.inj hanswer
    exact ⟨answer, rfl, fun _ => (Answer.empty.inj heq).symm⟩
  · obtain ⟨-, rfl⟩ := call_main_of_le hge hcall
    obtain ⟨answer, rfl⟩ := hruns.of_empty
    exact ⟨answer, rfl, fun hlt => absurd hge (Nat.not_le.2 hlt)⟩

theorem Answers.receive {fails : Bool} (ha : Answers S) (h : Sane S) (hr : S.point .main = .returns r) :
    Answers ((S.queue (.advance .main fails)).receive .main r) := by
  have hturn' := turn_receive_main S fails r
  refine ⟨?_, ?_, ?_⟩
  · rw [results_receive hr, List.map_append, ha.answers, hturn', List.take_add_one, ha.answer h hr]
    rfl
  · cases r with
    | empty answer =>
      change (decide (S.turn .main + 1 = prelude.length) && !answer) = false
      rw [Bool.and_eq_false_iff, decide_eq_false_iff_not, Bool.not_eq_false']
      by_cases hlast : S.turn .main + 1 = prelude.length
      · right
        obtain ⟨answer', heq, htrue⟩ := ha.looks h hr hlast.ge
        obtain rfl : answer = answer' := Result.empty.inj heq
        exact htrue (hlast ▸ Nat.lt_succ_self _)
      · exact .inl hlast
    | _ => rfl
  · intro hle
    rw [hturn'] at hle
    obtain ⟨answer, rfl, htrue⟩ := ha.looks h hr hle
    have hsame : (S.history.dequeued .main).map Prod.fst = S.history.enqueued .main := by
      rcases Nat.lt_or_ge (S.turn .main) prelude.length with hlt | hge
      · exact h.drained hlt hr (htrue hlt)
      · exact ha.drained hge
    rw [History.dequeued, History.enqueued, results_receive hr, List.filterMap_append, List.filterMap_append,
      List.map_append, ← History.dequeued, ← History.enqueued, hsame]
    rfl

theorem Answers.turn {fails : Bool} {S' : Program z} (ha : Answers S) (h : Sane S) (hturn : Turn S t fails S') :
    Answers S' := by
  by_cases hreturns : t = .main ∧ ∃ r, S.point .main = .returns r
  · obtain ⟨rfl, r, hr⟩ := hreturns
    rcases hturn.of_returns hr with rfl | rfl
    · exact ha
    · exact ha.receive h hr
  · -- nothing is said to the main thread
    have hquiet : Thread.main ≠ t ∨ ∀ r, S.point t ≠ .returns r := by
      by_cases ht : t = .main
      · subst ht
        exact .inr fun r hr => hreturns ⟨rfl, r, hr⟩
      · exact .inl (Ne.symm ht)
    have hresults := hturn.results_eq hquiet
    have hturn' := hturn.turn_main_eq hquiet
    refine ⟨?_, ?_, ?_⟩
    · rw [hresults, hturn']
      exact ha.answers
    · rw [hturn.aborted_eq (hquiet.imp Ne.symm id)]
      exact ha.running
    · rw [hturn', History.dequeued, History.enqueued, hresults]
      exact ha.drained

theorem answers_initial (z : Sizes) : Answers (initial z) := ⟨rfl, rfl, fun _ => rfl⟩

theorem run_answers (z : Sizes) (choices : List (Thread z × Bool)) :
    Sane (run z choices) ∧ Answers (run z choices) := by
  have hinit : Sane (initial z) ∧ Answers (initial z) := ⟨sane_initial z, answers_initial z⟩
  refine run_induct (I := fun S => Sane S ∧ Answers S) hinit ?_ choices
  intro S t fails S' h hturn
  exact ⟨h.1.turn hturn, h.2.turn h.1 hturn⟩

/-! ### The outcome -/

def left (S : Program z) : List ℤ := S.givens S.shared.queue

theorem eq_of_mem_sent {i j : Fin z.numProducers} {v : ℤ} (hi : v ∈ sent z i) (hj : v ∈ sent z j) : i = j := by
  obtain ⟨a, ha, rfl⟩ := List.mem_map.1 hi
  obtain ⟨b, hb, heq⟩ := List.mem_map.1 hj
  rw [List.mem_range] at ha hb
  have hpos : 0 < z.itemsPerProducer := Nat.zero_lt_of_lt ha
  have hquot {x y : ℕ} (hy : y < z.itemsPerProducer) : (x * z.itemsPerProducer + y) / z.itemsPerProducer = x := by
    rw [Nat.mul_comm, Nat.mul_add_div hpos, Nat.div_eq_of_lt hy, Nat.add_zero]
  have heq' : j.val * z.itemsPerProducer + b = i.val * z.itemsPerProducer + a := Int.ofNat.inj heq
  have hval := congrArg (· / z.itemsPerProducer) heq'
  simp only [hquot ha, hquot hb] at hval
  exact Fin.ext hval.symm

/-- What the threads of `test_queue` end with. -/
structure Outcome (S : Program z) : Prop where
  produced : S.produced = z.numProducers * z.itemsPerProducer
  consumed : S.consumed = z.numConsumers * z.share
  values : ((List.finRange z.numConsumers).flatMap S.received ++ S.left).Perm
    ((List.finRange z.numProducers).flatMap (sent z))
  order : ∀ i j, ((S.received i).filter (· ∈ sent z j)).Sublist (sent z j)

theorem Sane.givens_producer (h : Sane S) (hjoined : S.joined = true) (j : Fin z.numProducers) :
    S.givens (S.history.enqueued (.producer j)) = sent z j := by
  obtain ⟨hturn, hadding⟩ := (h.turns_of_joined hjoined).2 j
  rw [h.puts, finished, hturn, hadding, ← values_producer]
  rfl

/-- A consumer gets the values of the producers, and those of one producer in its nodes. -/
theorem Answers.mem_sent_iff (ha : Answers S) (h : Sane S) (hsettled : Settled S) (hjoined : S.joined = true)
    (hturn : prelude.length ≤ S.turn .main) {i : Fin z.numConsumers} {j : Fin z.numProducers} {n : ℕ}
    (hn : n ∈ (S.history.dequeued (.consumer i)).map Prod.fst) :
    (S.shared.heap n).given ∈ sent z j ↔ n ∈ S.history.enqueued (.producer j) := by
  have hreached := h.calls.reached
  have hsent (k : Fin z.numProducers) (hk : n ∈ S.history.enqueued (.producer k)) :
      (S.shared.heap n).given ∈ sent z k := by
    rw [← h.givens_producer hjoined k]
    exact List.mem_map_of_mem hk
  refine ⟨?_, hsent j⟩
  intro hmem
  have htaken : n ∈ S.history.taken (.consumer i) := List.mem_append_left _ hn
  have hlinked := hreached.inv.taken.subset ((hreached.taken_interleaves.sublist _).subset htaken)
  obtain ⟨t, ht⟩ := hreached.linked_interleaves.exists_of_mem hlinked
  rw [History.linked, show (S.history.state.point t).put = [] from (hsettled t).1, List.append_nil] at ht
  cases t with
  | main =>
    -- what the main thread put it took itself
    rw [← ha.drained hturn] at ht
    have hnodup := hreached.inv.nodup_linked.sublist hreached.inv.taken.sublist
    cases hreached.taken_interleaves.eq_of_mem hnodup (List.mem_append_left _ ht) htaken
  | consumer k =>
    have hnil := h.puts (.consumer k)
    rw [values_consumer] at hnil
    rw [List.map_eq_nil_iff.1 hnil] at ht
    cases ht
  | producer k =>
    rw [eq_of_mem_sent hmem (hsent k ht)]
    exact ht

theorem Answers.outcome (ha : Answers S) (h : Sane S) (hmain : S.ended .main = true) (hjoined : S.joined = true)
    (hturn : prelude.length ≤ S.turn .main) : Outcome S := by
  obtain ⟨hidle, -, -⟩ := ended_iff.1 hmain
  have hsettled := settled_of_joined hjoined (by rw [hidle]; rfl) (by rw [hidle]; rfl)
  obtain ⟨hconsumers, hproducers⟩ := h.turns_of_joined hjoined
  have hreached := h.calls.reached
  refine ⟨?_, ?_, ?_, ?_⟩
  · rw [h.counts.produced, Finset.sum_congr rfl fun i _ => (hproducers i).1]
    simp
  · have hconsumed := h.counts.consumed
    rw [Finset.sum_congr rfl fun i _ => (hconsumers i).1,
      Finset.sum_congr rfl fun i _ => congrArg Bool.toNat (hconsumers i).2] at hconsumed
    simpa using hconsumed
  · have hlinked := h.givens_linked hsettled hjoined hturn
    have htaken := h.givens_taken hsettled (ha.dequeued_main hturn)
    rw [hreached.inv.linked_eq, givens, List.map_append, ← givens, ← givens] at hlinked
    have hall := (htaken.append_right S.left).symm.trans hlinked
    rw [List.append_assoc, List.perm_append_left_iff] at hall
    exact hall
  · intro i j
    -- the nodes that the consumer took from the producer, in the order of both
    have hnodes := filter_sublist_of_sublist hreached.inv.nodup_linked
      ((List.sublist_append_left _ _).trans ((hreached.taken_interleaves.sublist (.consumer i)).trans
        hreached.inv.taken.sublist))
      ((List.sublist_append_left _ _).trans (hreached.linked_interleaves.sublist (.producer j)))
    have hsent : S.givens (S.history.enqueued (.producer j)) = sent z j := h.givens_producer hjoined j
    rw [← hsent, received, ← hreached.givens_dequeued, givens, givens, List.filter_map]
    refine List.Sublist.map _ ?_
    rwa [List.filter_congr fun n hn => ?_]
    rw [Function.comp, decide_eq_decide, ← givens, hsent]
    exact ha.mem_sent_iff h hsettled hjoined hturn hn

/-- The whole of `test_queue`, for any numbers of producers, consumers and values, under every
schedule and with any exchanges failing without reason. -/
theorem test_queue_passes (z : Sizes) (choices : List (Thread z × Bool)) :
    (run z choices).aborted = false ∧
      ((run z choices).history.results .main).map Result.answer <+: expected z ∧
      ((run z choices).ended .main = true →
        ((run z choices).history.results .main).map Result.answer = expected z ∧ Outcome (run z choices)) := by
  obtain ⟨h, ha⟩ := run_answers z choices
  refine ⟨ha.running, ?_, ?_⟩
  · rw [ha.answers]
    exact List.take_prefix _ _
  · intro hmain
    obtain ⟨-, -, hcall⟩ := ended_iff.1 hmain
    have hturn : prelude.length < (run z choices).turn .main := by
      by_contra hle
      have hlt : (run z choices).turn .main < (prelude ++ [Call.empty]).length := by
        rw [List.length_append, List.length_singleton]
        omega
      rw [Thread.call, List.getElem?_eq_getElem hlt] at hcall
      cases hcall
    refine ⟨?_, ha.outcome h hmain (h.phases.past hturn) hturn.le⟩
    rw [ha.answers, List.take_of_length_le]
    exact hturn

end Program

end LockfreeQueue

end LearnSpdk
