import LearnSpdk.Proofs.LRUCache
import Mathlib.Order.Lattice

/-! The capacity given to the constructor may be any `int`. A positive one is never exceeded,
whatever the clock reads; with another one already the first `put` goes wrong. -/

namespace LearnSpdk

open Lib

namespace LRUCache

variable {c : Cache} {capacity : Int32} {ttl : ℤ} {ops : List Op} {op : Op}

def Op.IsPut : Op → Prop
  | .get _ _ _ => False
  | .put _ _ _ _ => True

/-- The call is a `put` that takes the last node of an empty list. -/
def Cache.PopsEmpty (c : Cache) : Op → Prop
  | .get _ _ _ => False
  | .put key _ now _ =>
    (c.cleanExpire now).keyMap key = none ∧ (c.cleanExpire now).isFull = true ∧ (c.cleanExpire now).cache = []

/-- In every state that a run reaches there are `capacity` nodes at most, and none if it is
negative; and no `put` takes a node from an empty list. -/
def CapacityKept (capacity : Int32) (ttl : ℤ) (ops : List Op) : Prop :=
  (∀ k ≤ ops.length, ∀ c ∈ run (ops.take k) (init capacity ttl),
    (c.cache.length : ℤ) ≤ max capacity.toInt 0) ∧
  ∀ k (hk : k < ops.length), ∀ c ∈ run (ops.take k) (init capacity ttl), ¬c.PopsEmpty ops[k]

theorem InOrder.of_step {c' : Cache} (h : InOrder c) (hcap : 1 ≤ c.capacity.toInt)
    (hstep : LRUCache.step op c = some c') : InOrder c' ∧ c'.capacity = c.capacity := by
  obtain ⟨hkeeps, hstops⟩ := h.step hcap op
  by_cases hexp : c.Expires op
  · cases hstep.symm.trans (hstops hexp)
  · obtain ⟨c₁, hc₁, hresult⟩ := hkeeps hexp
    obtain rfl := Option.some.inj (hstep.symm.trans hc₁)
    exact hresult

/-- The size never steps over a positive capacity, so the test for equality is enough. -/
theorem run_inOrder (hcap : 1 ≤ capacity.toInt) (h : run ops (init capacity ttl) = some c) :
    InOrder c ∧ c.capacity = capacity := by
  rw [run_eq_attempt] at h
  refine attempt_induct (I := fun c => InOrder c ∧ c.capacity = capacity)
    ⟨⟨coherent_init capacity ttl, ?_⟩, rfl⟩ ?_ h
  · simpa [init] using le_trans (by decide) hcap
  · rintro c op c' ⟨hc, rfl⟩ hstep
    exact hc.of_step hcap hstep

theorem not_popsEmpty (hcap : 1 ≤ c.capacity.toInt) (op : Op) : ¬c.PopsEmpty op := by
  cases op with
  | get key now now' => exact id
  | put key value now now' =>
    rintro ⟨-, hfull, hempty⟩
    have hcap' : 1 ≤ (c.cleanExpire now).capacity.toInt := hcap
    have hlen := (isFull_iff hcap').1 hfull
    rw [length_nodes, hempty, List.length_nil] at hlen
    omega

theorem capacityKept_of_pos (hcap : 1 ≤ capacity.toInt) : CapacityKept capacity ttl ops := by
  refine ⟨fun k hk c hc => ?_, fun k hk c hc => ?_⟩
  · obtain ⟨h, rfl⟩ := run_inOrder hcap hc
    exact le_trans h.size (le_max_left _ _)
  · obtain ⟨h, rfl⟩ := run_inOrder hcap hc
    exact not_popsEmpty hcap _

theorem step_get_init (key now now' : ℤ) :
    step (.get key now now') (init capacity ttl) = some (init capacity ttl) := rfl

theorem run_gets (h : ∀ op ∈ ops, ¬op.IsPut) : run ops (init capacity ttl) = some (init capacity ttl) := by
  rw [run_eq_attempt]
  induction ops using List.reverseRecOn with
  | nil => rfl
  | append_singleton ops op ih =>
    rw [attempt_snoc, ih fun o ho => h o (by simp [ho]), Option.bind_some]
    cases op with
    | get key now now' => exact step_get_init key now now'
    | put key value now now' =>
      have hnot : ¬(Op.put key value now now').IsPut := h _ (by simp)
      exact absurd trivial hnot

theorem capacityKept_of_gets (h : ∀ op ∈ ops, ¬op.IsPut) : CapacityKept capacity ttl ops := by
  have hrun (k : ℕ) : run (ops.take k) (init capacity ttl) = some (init capacity ttl) :=
    run_gets fun op hop => h op (List.mem_of_mem_take hop)
  refine ⟨fun k hk c hc => ?_, fun k hk c hc => ?_⟩
  · obtain rfl := Option.some.inj ((hrun k).symm.trans hc)
    exact le_max_right _ _
  · have hget := h ops[k] (List.getElem_mem hk)
    cases hop : ops[k] with
    | get key now now' => exact id
    | put key value now now' =>
      rw [hop] at hget
      exact absurd trivial hget

/-- The first `put` takes a node from the empty list, or it makes the list longer than a negative
capacity, which as a `size_t` is large. -/
theorem put_init (hcap : ¬1 ≤ capacity.toInt) (ttl key value now now' : ℤ) :
    (init capacity ttl).PopsEmpty (.put key value now now') ∨
      ∃ c, step (.put key value now now') (init capacity ttl) = some c ∧
        ¬(c.cache.length : ℤ) ≤ max capacity.toInt 0 := by
  have hle := Int32.le_toInt capacity
  by_cases hzero : capacity.toInt = 0
  · refine .inl ⟨rfl, ?_, rfl⟩
    simp [Cache.isFull, Cache.cleanExpire, init, cleanLoop, hzero]
  · have hfull : ((init capacity ttl).cleanExpire now).isFull = false := by
      simp only [Cache.isFull, Cache.cleanExpire, init, cleanLoop, List.length_nil, decide_eq_false_iff_not]
      omega
    let one : Cache :=
      { init capacity ttl with
        cache := [(0, ⟨key, value, now' + ttl⟩)]
        keyMap := Function.update (fun _ => none) key (some 0)
        fresh := 1 }
    refine .inr ⟨one, ?_, ?_⟩
    · simp only [step, Cache.put, hfull]
      rfl
    · have hmax : max capacity.toInt 0 = 0 := max_eq_right (by omega)
      simp [hmax, one]

theorem not_capacityKept_of_put {gets : List Op} (hcap : ¬1 ≤ capacity.toInt)
    (hgets : ∀ op ∈ gets, ¬op.IsPut) (rest : List Op) (key value now now' : ℤ) :
    ¬CapacityKept capacity ttl (gets ++ .put key value now now' :: rest) := by
  rintro ⟨hsize, hpops⟩
  have hbefore : run ((gets ++ Op.put key value now now' :: rest).take gets.length) (init capacity ttl) =
      some (init capacity ttl) := by
    rw [List.take_left]
    exact run_gets hgets
  rcases put_init hcap ttl key value now now' with hempty | ⟨c, hput, hlong⟩
  · have hk : gets.length < (gets ++ Op.put key value now now' :: rest).length := by simp
    refine hpops gets.length hk _ hbefore ?_
    simpa using hempty
  · refine hlong (hsize (gets.length + 1) (by simp) c ?_)
    have htake : (gets ++ Op.put key value now now' :: rest).take (gets.length + 1) =
        gets ++ [.put key value now now'] := by
      rw [List.take_append]
      simp
    rw [htake, run_eq_attempt, attempt_snoc, ← run_eq_attempt, run_gets hgets]
    exact hput

theorem exists_first_put (h : ∃ op ∈ ops, op.IsPut) :
    ∃ gets rest key value now now', ops = gets ++ .put key value now now' :: rest ∧ ∀ op ∈ gets, ¬op.IsPut := by
  induction ops with
  | nil => simp at h
  | cons op ops ih =>
    cases op with
    | put key value now now' => exact ⟨[], ops, key, value, now, now', rfl, by simp⟩
    | get key now now' =>
      obtain ⟨op, hop, hput⟩ := h
      have hop : op ∈ ops := by
        rcases List.mem_cons.1 hop with rfl | hop
        · exact hput.elim
        · exact hop
      obtain ⟨gets, rest, k, v, n, n', rfl, hgets⟩ := ih ⟨op, hop, hput⟩
      refine ⟨.get key now now' :: gets, rest, k, v, n, n', rfl, ?_⟩
      intro o ho
      rcases List.mem_cons.1 ho with rfl | ho
      · exact id
      · exact hgets o ho

/-- The capacity is kept in a run if and only if it is positive, or the run has no `put`. -/
theorem capacityKept_iff (capacity : Int32) (ttl : ℤ) (ops : List Op) :
    CapacityKept capacity ttl ops ↔ 1 ≤ capacity.toInt ∨ ∀ op ∈ ops, ¬op.IsPut := by
  refine ⟨?_, ?_⟩
  · intro h
    by_contra hnot
    rw [not_or, not_forall] at hnot
    obtain ⟨hcap, op, hop⟩ := hnot
    rw [Classical.not_imp, not_not] at hop
    obtain ⟨gets, rest, key, value, now, now', rfl, hgets⟩ := exists_first_put ⟨op, hop⟩
    exact not_capacityKept_of_put hcap hgets rest key value now now' h
  · rintro (hcap | hgets)
    · exact capacityKept_of_pos hcap
    · exact capacityKept_of_gets hgets

theorem put_pops_empty : ¬CapacityKept 0 10 [.put 1 1 0 0] := by
  have hgets : ∀ op ∈ ([] : List Op), ¬op.IsPut := by simp
  exact not_capacityKept_of_put (by decide) hgets [] 1 1 0 0

end LRUCache

end LearnSpdk
