import LearnSpdk.Spec.JsonConfig

/-! What the loader is for is an agenda: to walk through the subsystems and their entries in
order, in the state in which the RPC server starts and, if that is `SPDK_RPC_STARTUP`, once
more in `SPDK_RPC_RUNTIME`. At every moment the loader has begun a part of its agenda, has
sent the requests of just that part, and waits for one thing only. Each callback is shown to
keep this. -/

namespace LearnSpdk

namespace JsonConfig

variable {V : Type} (libs : Libs V)

/-- A step of the agenda: a subsystem, an entry in a state of the server, or the end of the
subsystems. -/
inductive Task (V : Type) where
  | subsystem (v : V)
  | entry (s : UInt32) (v : V)
  | finish

/-- A method with the mask `m` is called in the state `s`. -/
def RunsIn (s m : UInt32) : Prop :=
  m &&& s = s ∧ ¬(m &&& (SPDK_RPC_STARTUP ||| SPDK_RPC_RUNTIME) = SPDK_RPC_STARTUP ||| SPDK_RPC_RUNTIME ∧
    s = SPDK_RPC_RUNTIME)

instance (s m : UInt32) : Decidable (RunsIn s m) := by
  unfold RunsIn
  infer_instance

/-- The request for an entry, if its method satisfies `p`. -/
def entryRequest (p : UInt32 → Prop) [DecidablePred p] (v : V) : Option Request :=
  match decodeConfigEntry libs v with
  | none => none
  | some cfg =>
    match libs.methodStateMask cfg.method with
    | none => none
    | some m => if p m then some ⟨0, cfg.method, cfg.params.map libs.text⟩ else none

def Task.request : Task V → Option Request
  | .entry s v => entryRequest libs (RunsIn s) v
  | _ => none

/-- The task can be decoded, and its method is known. -/
def Task.WellFormed : Task V → Prop
  | .subsystem v => decodeSubsystem libs v ≠ none
  | .entry _ v => ∃ cfg, decodeConfigEntry libs v = some cfg ∧ libs.methodStateMask cfg.method ≠ none
  | .finish => True

def config (v : V) : List V := (decodeSubsystem libs v).getD []

/-- One walk through the subsystems. -/
def walk (s : UInt32) : List V → List (Task V)
  | [] => [.finish]
  | v :: vs => .subsystem v :: ((config libs v).map (.entry s) ++ walk s vs)

/-- The walk that follows one in the state `s`. -/
def secondWalk (s : UInt32) (vs : List V) : List (Task V) :=
  if s = SPDK_RPC_STARTUP then walk libs SPDK_RPC_RUNTIME vs else []

def agenda (s : UInt32) (vs : List V) : List (Task V) := walk libs s vs ++ secondWalk libs s vs

/-- Of the agenda `total`, what comes before `todo` was begun: it was well formed, and `sent`
are its requests. -/
def Begun (total : List (Task V)) (sent : List Request) (todo : List (Task V)) : Prop :=
  ∃ begun, total = begun ++ todo ∧ sent = begun.filterMap (Task.request libs) ∧
    ∀ t ∈ begun, t.WellFormed libs

variable {libs} {total todo : List (Task V)} {sent : List Request} {t : Task V}

theorem Begun.task (h : Begun libs total sent (t :: todo)) (ht : t.WellFormed libs) :
    Begun libs total (sent ++ (t.request libs).toList) todo := by
  obtain ⟨begun, rfl, rfl, hbegun⟩ := h
  refine ⟨begun ++ [t], by simp, ?_, ?_⟩
  · rw [List.filterMap_append, List.filterMap_cons, List.filterMap_nil]
    cases t.request libs <;> rfl
  · intro t' ht'
    rw [List.mem_append, List.mem_singleton] at ht'
    rcases ht' with ht' | rfl
    · exact hbegun t' ht'
    · exact ht

theorem Begun.skip (h : Begun libs total sent (t :: todo)) (ht : t.WellFormed libs)
    (hnone : t.request libs = none) : Begun libs total sent todo := by
  have := h.task ht
  rwa [hnone, Option.toList_none, List.append_nil] at this

theorem Begun.not_wellFormed (h : Begun libs total sent (t :: todo)) (ht : ¬t.WellFormed libs) :
    ¬∀ t ∈ total, t.WellFormed libs := by
  obtain ⟨begun, rfl, -, -⟩ := h
  intro hall
  exact ht (hall t (by simp))

/-- What the loader waits for. -/
inductive Waiting where
  | connection
  | subsystem
  | entry
  | response
  | initialization
deriving DecidableEq

/-- No message is under way, and no initialization. -/
def Quiet (w : World V) : Prop := w.messages = [] ∧ w.initializing = false

def Waits (w : World V) (c : Ctx V) : Waiting → Prop
  | .connection => Quiet w ∧ c.clientConnPoller = some .rpcClientConnectPoller ∧ c.clientRespCb = false
  | .subsystem => (w.messages = [.loadSubsystem] ∧ w.initializing = false) ∧
      c.clientConnPoller = some .rpcClientPoller ∧ c.clientRespCb = false
  | .entry => (w.messages = [.loadSubsystemConfigEntry] ∧ w.initializing = false) ∧
      c.clientConnPoller = some .rpcClientPoller ∧ c.clientRespCb = false
  | .response => Quiet w ∧ c.clientConnPoller = some .rpcClientPoller ∧ c.clientRespCb = true
  | .initialization => (w.messages = [] ∧ w.initializing = true) ∧
      c.clientConnPoller = some .rpcClientPoller ∧ c.clientRespCb = false ∧ c.subsystemsIt = []

variable (libs) in
/-- The walk from the subsystems `vs` on, and the walk after it. -/
def walks (w : World V) (c : Ctx V) (vs : List V) : List (Task V) :=
  walk libs w.rpcState vs ++ secondWalk libs w.rpcState (c.subsystems.getD [])

variable (libs) in
def todoOf (w : World V) (c : Ctx V) : Waiting → List (Task V)
  | .connection => walks libs w c c.subsystemsIt
  | .subsystem => walks libs w c c.subsystemsIt
  | .entry => c.configIt.map (.entry w.rpcState) ++ walks libs w c c.subsystemsIt.tail
  | .response => c.configIt.tail.map (.entry w.rpcState) ++ walks libs w c c.subsystemsIt.tail
  | .initialization => walk libs SPDK_RPC_RUNTIME (c.subsystems.getD [])

def Waiting.midTask : Waiting → Bool
  | .entry => true
  | .response => true
  | _ => false

variable (libs) in
/-- The loader waits for `k` and for nothing else, and `n` more callbacks take it to the end. -/
structure Alive (total : List (Task V)) (stopOnError : Bool) (n : ℕ) (w : World V) (c : Ctx V)
    (k : Waiting) : Prop where
  ctx : w.ctx = some c
  stopOnError : c.stopOnError = stopOnError
  waits : Waits w c k
  id : c.rpcRequestId = 0
  begun : Begun libs total w.sent (todoOf libs w c k)
  left : n = (todoOf libs w c k).length + k.midTask.toNat
  answered : w.sent.length = w.answered + if k = .response then 1 else 0
  results : w.results = []

variable (libs) in
/-- The same in the middle of a callback, which waits for nothing. -/
structure Ready (total : List (Task V)) (stopOnError : Bool) (w : World V) (c : Ctx V)
    (todo : List (Task V)) : Prop where
  quiet : Quiet w
  stopOnError : c.stopOnError = stopOnError
  poller : c.clientConnPoller = some .rpcClientPoller
  resp : c.clientRespCb = false
  id : c.rpcRequestId = 0
  begun : Begun libs total w.sent todo
  answered : w.sent.length = w.answered
  results : w.results = []

variable (libs) in
/-- The load has ended: with 0 if the whole agenda is done, and else with another result. -/
structure Ended (total : List (Task V)) (w : World V) : Prop where
  ctx : w.ctx = none
  results : w.results = [0] ∧ Begun libs total w.sent [] ∨
    ∃ rc todo, rc ≠ 0 ∧ w.results = [rc] ∧ Begun libs total w.sent todo

variable (libs) in
/-- What a callback that takes the loader on can leave: the loader waits, with `n` more
callbacks to the end, it has done its agenda, or it has failed, for which there is a reason. -/
inductive Outcome (total : List (Task V)) (stopOnError : Bool) (n : ℕ) (faultless : Prop) (w : World V) : Prop
  | alive (c : Ctx V) (k : Waiting) (h : Alive libs total stopOnError n w c k)
  | done (hquiet : Quiet w) (hn : n = 0) (h : Ended libs total w) (hrc : w.results = [0])
  | failed (hquiet : Quiet w) (h : Ended libs total w) (hfault : ¬faultless)

theorem walk_ne_nil (s : UInt32) (vs : List V) : walk libs s vs ≠ [] := by
  cases vs <;> simp [walk]

section Callbacks
variable {stopOnError : Bool} {w : World V} {c : Ctx V} {a : Answers} {P : Prop}

def Answers.Succeed (a : Answers) : Prop :=
  a.createRequest = none ∧ a.beginRequest = true ∧ a.sendRequest = 0

theorem Ready.fail (h : Ready libs total stopOnError w c todo) {rc : ℤ} (hrc : rc ≠ 0) (hP : ¬P) {n : ℕ} :
    Outcome libs total stopOnError n P (w.loadDone rc) := by
  refine .failed h.quiet ⟨rfl, .inr ⟨rc, todo, hrc, ?_, h.begun⟩⟩ hP
  simp [World.loadDone, h.results]

theorem Ready.skip {v : V} {vs : List V} (hc : c.configIt = v :: vs)
    (h : Ready libs total stopOnError w c
      ((v :: vs).map (.entry w.rpcState) ++ walks libs w c c.subsystemsIt.tail))
    (hv : (Task.entry w.rpcState v).WellFormed libs)
    (hnone : (Task.entry w.rpcState v).request libs = none) :
    Outcome libs total stopOnError ((v :: vs).length + (walks libs w c c.subsystemsIt.tail).length) P
      (skipConfigEntry c w) := by
  apply Outcome.alive { c with configIt := c.configIt.tail } .entry
  have hbegun := h.begun
  rw [List.map_cons, List.cons_append] at hbegun
  constructor
  · rfl
  · exact h.stopOnError
  · exact ⟨⟨by simp [skipConfigEntry, World.sendMsg, h.quiet.1], h.quiet.2⟩, h.poller, h.resp⟩
  · exact h.id
  · simpa [todoOf, walks, skipConfigEntry, World.sendMsg, hc] using hbegun.skip hv hnone
  · simp only [todoOf, walks, skipConfigEntry, World.sendMsg, hc, Waiting.midTask, List.tail_cons,
      List.length_append, List.length_map, List.length_cons, Bool.toNat_true]
    omega
  · simpa [skipConfigEntry, World.sendMsg] using h.answered
  · exact h.results

theorem Ready.send {v : V} {vs : List V} {q : Request} (hc : c.configIt = v :: vs)
    (h : Ready libs total stopOnError w c
      ((v :: vs).map (.entry w.rpcState) ++ walks libs w c c.subsystemsIt.tail))
    (hv : (Task.entry w.rpcState v).WellFormed libs)
    (hq : (Task.entry w.rpcState v).request libs = some q) (hP : P → a.Succeed) :
    Outcome libs total stopOnError ((v :: vs).length + (walks libs w c c.subsystemsIt.tail).length) P
      (clientSendRequest libs q a c w) := by
  rw [clientSendRequest]
  split_ifs with hrc
  · refine .failed h.quiet ⟨rfl, .inr ⟨-a.sendRequest, _, by omega, ?_, h.begun⟩⟩ fun hp => hrc (hP hp).2.2
    simp [World.loadDone, h.results]
  · have hbegun := h.begun
    rw [List.map_cons, List.cons_append] at hbegun
    refine .alive _ .response ⟨rfl, h.stopOnError, ⟨h.quiet, h.poller, rfl⟩, h.id, ?_, ?_, ?_, h.results⟩
    · simpa [todoOf, walks, rpcClientSetTimeout, hc, hq] using hbegun.task hv
    · simp only [todoOf, walks, rpcClientSetTimeout, hc, Waiting.midTask, List.tail_cons,
        List.length_append, List.length_map, List.length_cons, Bool.toNat_true]
      omega
    · simp [h.answered]

theorem loadSubsystemConfigEntry_outcome {m : ℕ}
    (h : Ready libs total stopOnError w c
      (c.configIt.map (.entry w.rpcState) ++ walks libs w c c.subsystemsIt.tail))
    (hm : m = c.configIt.length + (walks libs w c c.subsystemsIt.tail).length)
    (hP : P → a.Succeed ∧ ∀ t ∈ total, t.WellFormed libs) :
    Outcome libs total stopOnError m P (loadSubsystemConfigEntry libs a c w) := by
  subst hm
  rw [loadSubsystemConfigEntry]
  cases hc : c.configIt with
  | nil =>
    dsimp only
    refine .alive { c with subsystemsIt := c.subsystemsIt.tail, configIt := [] } .subsystem
      ⟨rfl, h.stopOnError, ⟨⟨?_, h.quiet.2⟩, h.poller, h.resp⟩, h.id, ?_, ?_, ?_, h.results⟩
    · simp [World.sendMsg, h.quiet.1]
    · simpa [hc, todoOf, walks, World.sendMsg] using h.begun
    · simp [todoOf, walks, World.sendMsg, Waiting.midTask]
    · simpa [World.sendMsg] using h.answered
  | cons v vs =>
    rw [hc] at h
    have hbegun := h.begun
    rw [List.map_cons, List.cons_append] at hbegun
    dsimp only
    cases hcfg : decodeConfigEntry libs v with
    | none =>
      exact h.fail (by decide) fun hp => hbegun.not_wellFormed (by simp [Task.WellFormed, hcfg]) (hP hp).2
    | some cfg =>
      dsimp only
      cases hmask : libs.methodStateMask cfg.method with
      | none =>
        exact h.fail (by decide) fun hp =>
          hbegun.not_wellFormed (by simp [Task.WellFormed, hcfg, hmask]) (hP hp).2
      | some m =>
        have hv : (Task.entry w.rpcState v).WellFormed libs := ⟨cfg, hcfg, by simp [hmask]⟩
        dsimp only
        by_cases hskip : m &&& w.rpcState ≠ w.rpcState
        · rw [if_pos hskip]
          exact h.skip hc hv (by simp [Task.request, entryRequest, hcfg, hmask, RunsIn, hskip])
        rw [if_neg hskip]
        by_cases htwice : m &&& (SPDK_RPC_STARTUP ||| SPDK_RPC_RUNTIME) =
            SPDK_RPC_STARTUP ||| SPDK_RPC_RUNTIME ∧ w.rpcState = SPDK_RPC_RUNTIME
        · rw [if_pos htwice]
          exact h.skip hc hv (by simp [Task.request, entryRequest, hcfg, hmask, RunsIn, htwice])
        rw [if_neg htwice]
        have hq : (Task.entry w.rpcState v).request libs =
            some ⟨c.rpcRequestId, cfg.method, cfg.params.map libs.text⟩ := by
          rw [Task.request, entryRequest, hcfg]
          simp only [hmask, h.id]
          rw [if_pos ⟨not_not.1 hskip, htwice⟩]
        cases hcreate : a.createRequest with
        | some errno =>
          exact h.fail (by have := errno.pos; omega) fun hp => by simp [(hP hp).1.1] at hcreate
        | none =>
          dsimp only
          split_ifs with hbegin
          · exact h.fail (by decide) fun hp => by simp [(hP hp).1.2.1] at hbegin
          · exact h.send hc hv hq fun hp => (hP hp).1

theorem loadSubsystem_outcome {m : ℕ} (h : Ready libs total stopOnError w c (walks libs w c c.subsystemsIt))
    (hm : m + 1 = (walks libs w c c.subsystemsIt).length)
    (hP : P → a.Succeed ∧ ∀ t ∈ total, t.WellFormed libs) :
    Outcome libs total stopOnError m P (loadSubsystem libs a c w) := by
  have hbegun := h.begun
  rw [loadSubsystem]
  cases hc : c.subsystemsIt with
  | nil =>
    rw [hc] at hbegun hm
    rw [walks, walk, List.cons_append, List.nil_append] at hbegun hm
    have hfinish := hbegun.skip trivial rfl
    rw [List.length_cons] at hm
    dsimp only
    split_ifs with hs
    · rw [secondWalk, if_pos hs] at hfinish hm
      refine .alive c .initialization
        ⟨rfl, h.stopOnError, ⟨⟨h.quiet.1, rfl⟩, h.poller, h.resp, hc⟩, h.id, hfinish, ?_, ?_, h.results⟩
      · simp only [todoOf, Waiting.midTask, Bool.toNat_false]
        omega
      · simpa using h.answered
    · rw [secondWalk, if_neg hs] at hfinish hm
      have hres : (w.loadDone 0).results = [0] := by simp [World.loadDone, h.results]
      exact .done h.quiet (by simpa using hm) ⟨rfl, .inl ⟨hres, hfinish⟩⟩ hres
  | cons v vs =>
    rw [hc] at hbegun hm
    rw [walks, walk, List.cons_append] at hbegun hm
    rw [List.length_cons, List.append_assoc, List.length_append, List.length_map] at hm
    dsimp only
    cases hv : decodeSubsystem libs v with
    | none =>
      exact h.fail (by decide) fun hp => hbegun.not_wellFormed (by simp [Task.WellFormed, hv]) (hP hp).2
    | some cfg =>
      dsimp only
      have hcfg : config libs v = cfg := by simp [config, hv]
      have hnext := hbegun.skip (by simp [Task.WellFormed, hv]) rfl
      rw [List.append_assoc, hcfg] at hnext
      rw [hcfg] at hm
      refine loadSubsystemConfigEntry_outcome ?_ (Nat.succ.inj hm) hP
      exact ⟨h.quiet, h.stopOnError, h.poller, h.resp, h.id, hnext, h.answered, h.results⟩

end Callbacks

end JsonConfig

end LearnSpdk
