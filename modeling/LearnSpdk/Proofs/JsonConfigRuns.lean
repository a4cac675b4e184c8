import LearnSpdk.Lib.Headway
import LearnSpdk.Proofs.JsonConfig

/-! Runs of the loader: whatever the libraries answer and in whatever order the callbacks
come, the loader goes through its agenda one callback after the other. -/

namespace LearnSpdk

namespace JsonConfig

variable {V : Type} {libs : Libs V} {total todo : List (Task V)} {stopOnError : Bool} {n : ℕ}
  {w w' : World V} {c : Ctx V} {k : Waiting} {a : Answers} {e : Event} {rc : ℤ} {error : Bool}

def moves (w : World V) : Event → Bool
  | .poll rc _ _ =>
    match w.ctx with
    | none => false
    | some c =>
      match c.clientConnPoller with
      | none => false
      | some .rpcClientConnectPoller => rc ≠ -ENOTCONN
      | some .rpcClientPoller => 0 < rc
  | .message _ => w.messages ≠ []
  | .initDone _ _ => w.initializing

/-- Nothing fails in the callback: no call of it, no connection and no initialization, and a
response comes only to a request and holds no error on which the loader has to stop. -/
def Faultless (w : World V) : Event → Prop
  | .poll rc error a =>
    a.Succeed ∧ ∀ c, w.ctx = some c →
      (c.clientConnPoller = some .rpcClientConnectPoller → rc = -ENOTCONN → ¬c.timeout < a.checkTicks) ∧
      (c.clientConnPoller = some .rpcClientPoller →
        0 ≤ rc ∧ (0 < rc → w.answered < w.sent.length ∧ ¬(error = true ∧ c.stopOnError = true)))
  | .message a => a.Succeed
  | .initDone rc a => rc = 0 ∧ a.Succeed

/-- The poller of the requests ends the load only while no message and no initialization is
under way, and it finds a response only if it has the callback for it. -/
def Safe (w : World V) : Event → Prop
  | .poll rc error _ => ∀ c, w.ctx = some c → c.clientConnPoller = some .rpcClientPoller →
      (rc < 0 → Quiet w) ∧
      (0 < rc → if error = true ∧ c.stopOnError = true then Quiet w else c.clientRespCb = true)
  | _ => True

/-- What a callback can do to a loader that waits: take it on, leave it where it is, or end
the load, for which there is a reason, with the messages and the initialization as they are. -/
inductive Stepped (libs : Libs V) (total : List (Task V)) (stopOnError : Bool) (n : ℕ) (w : World V)
    (k : Waiting) (e : Event) (w' : World V) : Prop
  | onward (hmoves : moves w e = true) (hsafe : Safe w e)
      (h : Outcome libs total stopOnError (n - 1) (Faultless w e ∧ ∀ t ∈ total, t.WellFormed libs) w')
  | idle (hmoves : moves w e = false) (hsafe : Safe w e) (c' : Ctx V)
      (h : Alive libs total stopOnError n w' c' k)
  | broken (hfault : ¬Faultless w e) (hsafe : Safe w e ↔ Quiet w) (hquiet : Quiet w' ↔ Quiet w)
      (h : Ended libs total w')

theorem Alive.left_pos (h : Alive libs total stopOnError n w c k) : 0 < n := by
  rw [h.left]
  cases k <;> simp [todoOf, walks, Waiting.midTask, List.length_pos_iff, walk_ne_nil]

theorem Alive.fail (h : Alive libs total stopOnError n w c k) (hrc : rc ≠ 0) (m : ℕ) :
    Ended libs total ({ w with answered := m }.loadDone rc) :=
  ⟨rfl, .inr ⟨rc, _, hrc, by simp [World.loadDone, h.results], h.begun⟩⟩

theorem Alive.setTimeout (h : Alive libs total stopOnError n w c k) (timeout : UInt64) :
    Alive libs total stopOnError n { w with ctx := some { c with timeout := timeout } }
      { c with timeout := timeout } k := by
  cases k <;> exact ⟨rfl, h.stopOnError, h.waits, h.id, h.begun, h.left, h.answered, h.results⟩

theorem Alive.connect (h : Alive libs total stopOnError n w c .connection) :
    Stepped libs total stopOnError n w .connection (.poll rc error a) (rpcClientConnectPoller libs rc a c w) := by
  have hpoller := h.waits.2.1
  have hsafe : Safe w (.poll rc error a) := by
    intro c' hc' hpoller'
    rw [h.ctx] at hc'
    obtain rfl := Option.some.inj hc'
    simp [hpoller] at hpoller'
  rw [rpcClientConnectPoller]
  by_cases hrc : rc = -ENOTCONN
  · have hmoves : moves w (.poll rc error a) = false := by simp [moves, h.ctx, hpoller, hrc]
    rw [if_neg (not_not.2 hrc)]
    split_ifs with hlate
    · refine .broken ?_ (iff_of_true hsafe h.waits.1) Iff.rfl (h.fail hlate w.answered)
      intro hf
      have := (hf.2 c h.ctx).1 hpoller hrc
      rw [rpcClientCheckTimeout, if_neg this] at hlate
      exact hlate rfl
    · exact .idle hmoves hsafe c h
  · have hmoves : moves w (.poll rc error a) = true := by simp [moves, h.ctx, hpoller, hrc]
    rw [if_pos hrc]
    refine .onward hmoves hsafe (loadSubsystem_outcome ?_ ?_ fun hp => ⟨hp.1.1, hp.2⟩)
    · exact ⟨h.waits.1, h.stopOnError, rfl, h.waits.2.2, h.id, h.begun, h.answered, h.results⟩
    · have hpos := h.left_pos
      have hleft : n = (walks libs w c c.subsystemsIt).length := h.left
      change n - 1 + 1 = (walks libs w c c.subsystemsIt).length
      omega

theorem Alive.safe_poll_iff (h : Alive libs total stopOnError n w c k)
    (hpoller : c.clientConnPoller = some .rpcClientPoller) :
    Safe w (.poll rc error a) ↔ (rc < 0 → Quiet w) ∧
      (0 < rc → if error = true ∧ c.stopOnError = true then Quiet w else c.clientRespCb = true) := by
  simp [Safe, h.ctx, hpoller]

theorem Alive.poll (h : Alive libs total stopOnError n w c k)
    (hpoller : c.clientConnPoller = some .rpcClientPoller)
    (hs : rpcClientPoller libs rc error a c w = some w') :
    Stepped libs total stopOnError n w k (.poll rc error a) w' := by
  have hsafe : Safe w (.poll rc error a) ↔ _ := h.safe_poll_iff hpoller
  rw [rpcClientPoller] at hs
  rcases lt_trichotomy rc 0 with hrc | rfl | hrc
  · rw [if_neg hrc.ne, if_pos hrc] at hs
    obtain rfl := Option.some.inj hs
    refine .broken ?_ (by simp [hsafe, hrc, hrc.le]) Iff.rfl (h.fail hrc.ne w.answered)
    intro hf
    have := ((hf.2 c h.ctx).2 hpoller).1
    omega
  · have hmoves : moves w (.poll 0 error a) = false := by simp [moves, h.ctx, hpoller]
    rw [if_pos rfl] at hs
    split_ifs at hs with hlate
    · obtain rfl := Option.some.inj hs
      exact .idle hmoves (by simp [hsafe]) _ (h.setTimeout _)
    · obtain rfl := Option.some.inj hs
      exact .idle hmoves (by simp [hsafe]) c h
  · have hmoves : moves w (.poll rc error a) = true := by simp [moves, h.ctx, hpoller, hrc]
    rw [if_neg hrc.ne', if_neg (not_lt.2 hrc.le)] at hs
    split_ifs at hs with herror hcb
    · obtain rfl := Option.some.inj hs
      refine .broken ?_ (by rw [hsafe]; simp [hrc, hrc.le, herror]) Iff.rfl (h.fail (by decide) _)
      intro hf
      exact (((hf.2 c h.ctx).2 hpoller).2 hrc).2 herror
    · obtain rfl := Option.some.inj hs
      cases k with
      | connection => exact absurd h.waits.2.2 hcb
      | subsystem => exact absurd h.waits.2.2 hcb
      | entry => exact absurd h.waits.2.2 hcb
      | initialization => exact absurd h.waits.2.2.1 hcb
      | response =>
        have hresp : Safe w (.poll rc error a) := by simp [hsafe, hrc.le, herror, h.waits.2.2]
        refine .onward hmoves hresp (loadSubsystemConfigEntry_outcome ?_ ?_ fun hp => ⟨hp.1.1, hp.2⟩)
        · exact ⟨h.waits.1, h.stopOnError, hpoller, rfl, h.id, h.begun, h.answered, h.results⟩
        · have hleft := h.left
          simp only [todoOf, List.length_append, List.length_map, Waiting.midTask, Bool.toNat_true] at hleft
          rw [hleft]
          rfl

theorem Alive.message (h : Alive libs total stopOnError n w c k) (hs : step libs (.message a) w = some w') :
    Stepped libs total stopOnError n w k (.message a) w' := by
  have hquiet (hm : w.messages = []) : Stepped libs total stopOnError n w k (.message a) w' := by
    simp only [step, hm, Option.some.injEq] at hs
    subst hs
    exact .idle (by simp [moves, hm]) trivial c h
  cases k with
  | connection => exact hquiet h.waits.1.1
  | response => exact hquiet h.waits.1.1
  | initialization => exact hquiet h.waits.1.1
  | subsystem =>
    have hm := h.waits.1.1
    simp only [step, hm, h.ctx, Option.map_some, Option.some.injEq] at hs
    subst hs
    refine .onward (by simp [moves, hm]) trivial (loadSubsystem_outcome ?_ ?_ fun hp => ⟨hp.1, hp.2⟩)
    · exact ⟨⟨rfl, h.waits.1.2⟩, h.stopOnError, h.waits.2.1, h.waits.2.2, h.id, h.begun, h.answered, h.results⟩
    · have hpos := h.left_pos
      have hleft : n = (walks libs w c c.subsystemsIt).length := h.left
      change n - 1 + 1 = (walks libs w c c.subsystemsIt).length
      omega
  | entry =>
    have hm := h.waits.1.1
    simp only [step, hm, h.ctx, Option.map_some, Option.some.injEq] at hs
    subst hs
    refine .onward (by simp [moves, hm]) trivial (loadSubsystemConfigEntry_outcome ?_ ?_ fun hp => ⟨hp.1, hp.2⟩)
    · exact ⟨⟨rfl, h.waits.1.2⟩, h.stopOnError, h.waits.2.1, h.waits.2.2, h.id, h.begun, h.answered, h.results⟩
    · have hleft := h.left
      simp only [todoOf, List.length_append, List.length_map, Waiting.midTask, Bool.toNat_true] at hleft
      rw [hleft]
      rfl

theorem Alive.initDone (h : Alive libs total stopOnError n w c k) (hs : step libs (.initDone rc a) w = some w') :
    Stepped libs total stopOnError n w k (.initDone rc a) w' := by
  have hquiet (hi : w.initializing = false) : Stepped libs total stopOnError n w k (.initDone rc a) w' := by
    simp only [step, hi, Bool.false_eq_true, if_false, Option.some.injEq] at hs
    subst hs
    exact .idle (by simp [moves, hi]) trivial c h
  cases k with
  | connection => exact hquiet h.waits.1.2
  | subsystem => exact hquiet h.waits.1.2
  | entry => exact hquiet h.waits.1.2
  | response => exact hquiet h.waits.1.2
  | initialization =>
    have hi := h.waits.1.2
    simp only [step, hi, if_true, h.ctx, Option.map_some, Option.some.injEq] at hs
    subst hs
    have hquiet : Quiet { w with initializing := false } := ⟨h.waits.1.1, rfl⟩
    refine .onward (by simp [moves, hi]) trivial ?_
    rw [subsystemInitDone]
    split_ifs with hrc
    · refine .failed hquiet ⟨rfl, .inr ⟨rc, _, hrc, ?_, h.begun⟩⟩ fun hp => hrc hp.1.1
      simp [World.loadDone, h.results]
    · have hsecond (vs : List V) : secondWalk libs SPDK_RPC_RUNTIME vs = [] := if_neg (by decide)
      have hwalks : walk libs SPDK_RPC_RUNTIME (c.subsystems.getD c.subsystemsIt) ++
          secondWalk libs SPDK_RPC_RUNTIME (c.subsystems.getD []) = todoOf libs w c .initialization := by
        rw [hsecond, List.append_nil, h.waits.2.2.2, todoOf]
      refine loadSubsystem_outcome ?_ ?_ fun hp => ⟨hp.1.2, hp.2⟩
      · dsimp only [walks]
        rw [hwalks]
        exact ⟨hquiet, h.stopOnError, h.waits.2.1, h.waits.2.2.1, h.id, h.begun, h.answered, h.results⟩
      · have hpos := h.left_pos
        have hleft : n = (todoOf libs w c .initialization).length := h.left
        dsimp only [walks]
        rw [hwalks]
        omega

theorem Alive.step (h : Alive libs total stopOnError n w c k) (hs : step libs e w = some w') :
    Stepped libs total stopOnError n w k e w' := by
  cases e with
  | message a => exact h.message hs
  | initDone rc a => exact h.initDone hs
  | poll rc error a =>
    have hclient (hpoller : c.clientConnPoller = some .rpcClientPoller) :
        Stepped libs total stopOnError n w k (.poll rc error a) w' := by
      simp only [JsonConfig.step, h.ctx, hpoller] at hs
      exact h.poll hpoller hs
    cases k with
    | connection =>
      simp only [JsonConfig.step, h.ctx, h.waits.2.1, Option.some.injEq] at hs
      subst hs
      exact h.connect
    | subsystem => exact hclient h.waits.2.1
    | entry => exact hclient h.waits.2.1
    | response => exact hclient h.waits.2.1
    | initialization => exact hclient h.waits.2.1

theorem Ended.step (h : Ended libs total w) (hs : step libs e w = some w') :
    w' = w ∧ moves w e = false ∧ Safe w e := by
  cases e with
  | poll rc error a =>
    simp only [JsonConfig.step, h.ctx, Option.some.injEq] at hs
    exact ⟨hs.symm, by simp [moves, h.ctx], by simp [Safe, h.ctx]⟩
  | message a =>
    cases hm : w.messages with
    | nil =>
      simp only [JsonConfig.step, hm, Option.some.injEq] at hs
      exact ⟨hs.symm, by simp [moves, hm], trivial⟩
    | cons m ms => simp [JsonConfig.step, hm, h.ctx] at hs
  | initDone rc a =>
    cases hi : w.initializing with
    | false =>
      simp only [JsonConfig.step, hi, Bool.false_eq_true, if_false, Option.some.injEq] at hs
      exact ⟨hs.symm, by simp [moves, hi], trivial⟩
    | true => simp [JsonConfig.step, hi, h.ctx] at hs

section Runs
variable {u : Setup V} {events : List Event}

variable (libs) in
def subsystemsOf (u : Setup V) : List V := (foundSubsystems libs u).getD []

variable (libs) in
def agendaOf (u : Setup V) : List (Task V) := agenda libs u.rpcState (subsystemsOf libs u)

/-- The loader waits, with at most `n` callbacks to the end, or the load has ended. -/
def Inv (libs : Libs V) (total : List (Task V)) (stopOnError : Bool) (n : ℕ) (w : World V) : Prop :=
  (∃ m ≤ n, ∃ c k, Alive libs total stopOnError m w c k) ∨ Ended libs total w

theorem start_alive_or_ended (libs : Libs V) (stopOnError : Bool) (u : Setup V) :
    Alive libs (agendaOf libs u) stopOnError (agendaOf libs u).length
        (spdkSubsystemInitFromJsonConfig libs stopOnError u) (newCtx libs stopOnError u) .connection ∨
      Ended libs (agendaOf libs u) (spdkSubsystemInitFromJsonConfig libs stopOnError u) ∧
        (spdkSubsystemInitFromJsonConfig libs stopOnError u).ctx = none ∧
        Quiet (spdkSubsystemInitFromJsonConfig libs stopOnError u) := by
  have hbegun : Begun libs (agendaOf libs u) [] (agendaOf libs u) := ⟨[], rfl, rfl, by simp⟩
  rw [spdkSubsystemInitFromJsonConfig]
  split_ifs
  · exact .inr ⟨⟨rfl, .inr ⟨-ENOMEM, _, by decide, rfl, hbegun⟩⟩, rfl, rfl, rfl⟩
  · exact .inr ⟨⟨rfl, .inr ⟨-EINVAL, _, by decide, rfl, hbegun⟩⟩, rfl, rfl, rfl⟩
  · exact .inr ⟨⟨rfl, .inr ⟨-EINVAL, _, by decide, rfl, hbegun⟩⟩, rfl, rfl, rfl⟩
  · exact .inr ⟨⟨rfl, .inr ⟨-EINVAL, _, by decide, rfl, hbegun⟩⟩, rfl, rfl, rfl⟩
  · exact .inr ⟨⟨rfl, .inr ⟨-EINVAL, _, by decide, rfl, hbegun⟩⟩, rfl, rfl, rfl⟩
  · exact .inr ⟨⟨rfl, .inr ⟨-EINVAL, _, by decide, rfl, hbegun⟩⟩, rfl, rfl, rfl⟩
  · exact .inl ⟨rfl, rfl, ⟨⟨rfl, rfl⟩, rfl, rfl⟩, rfl, hbegun, rfl, rfl, rfl⟩

theorem start_inv (libs : Libs V) (stopOnError : Bool) (u : Setup V) :
    Inv libs (agendaOf libs u) stopOnError (agendaOf libs u).length
      (spdkSubsystemInitFromJsonConfig libs stopOnError u) := by
  rcases start_alive_or_ended libs stopOnError u with h | h
  · exact .inl ⟨_, le_refl _, _, _, h⟩
  · exact .inr h.1

theorem Outcome.inv {P : Prop} (h : Outcome libs total stopOnError n P w) : Inv libs total stopOnError n w := by
  cases h with
  | alive c k h => exact .inl ⟨n, le_refl n, c, k, h⟩
  | done _ _ h _ => exact .inr h
  | failed _ h _ => exact .inr h

theorem Inv.step (h : Inv libs total stopOnError n w) (hs : step libs e w = some w') :
    ∃ m, Inv libs total stopOnError m w' ∧ m + (moves w e).toNat = n := by
  rcases h with ⟨m, hm, c, k, h⟩ | h
  · have hpos := h.left_pos
    have hle : (moves w e).toNat ≤ n := le_trans (Bool.toNat_le _) (by omega)
    cases h.step hs with
    | onward hmoves _ hout =>
      refine ⟨n - 1, ?_, by simp [hmoves]; omega⟩
      rcases hout.inv with ⟨m', hm', h'⟩ | h'
      · exact .inl ⟨m', by omega, h'⟩
      · exact .inr h'
    | idle hmoves _ c' h' => exact ⟨n, .inl ⟨m, hm, c', k, h'⟩, by simp [hmoves]⟩
    | broken _ _ _ h' => exact ⟨n - (moves w e).toNat, .inr h', by omega⟩
  · obtain ⟨rfl, hmoves, -⟩ := h.step hs
    exact ⟨n, .inr h, by simp [hmoves]⟩

/-- The invariant in every state that a run reaches, with the headway made. -/
theorem run_inv (h : run libs stopOnError u events = some w) :
    ∃ m, Inv libs (agendaOf libs u) stopOnError m w ∧
      Lib.headway (step libs) moves (spdkSubsystemInitFromJsonConfig libs stopOnError u) events + m =
        (agendaOf libs u).length :=
  Lib.Meets.headway (C := fun _ _ => True) (fun _ _ _ _ => trivial) (start_inv libs stopOnError u)
    (fun _ _ _ _ hI hs _ => hI.step hs) h

end Runs

end JsonConfig

end LearnSpdk
