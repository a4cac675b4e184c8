import LearnSpdk.Proofs.JsonConfigRuns
import Mathlib.Tactic.IntervalCases

/-! What a load does: which requests it sends and how often, when it ends and with which
result, and when a callback is left with a context that was freed. -/

namespace LearnSpdk

namespace JsonConfig

variable {V : Type} {libs : Libs V} {stopOnError : Bool} {u : Setup V} {events : List Event} {w : World V}

section Requests

variable (libs) in
def entries (vs : List V) : List V := vs.flatMap (config libs)

variable (libs) in
def requestsIn (s : UInt32) (vs : List V) : List Request :=
  (entries libs vs).filterMap (entryRequest libs (RunsIn s))

variable (libs) in
def requestsOf (u : Setup V) : List Request :=
  requestsIn libs u.rpcState (subsystemsOf libs u) ++
    if u.rpcState = SPDK_RPC_STARTUP then requestsIn libs SPDK_RPC_RUNTIME (subsystemsOf libs u) else []

theorem filterMap_entry (s : UInt32) (vs : List V) :
    (vs.map (Task.entry s)).filterMap (Task.request libs) = vs.filterMap (entryRequest libs (RunsIn s)) := by
  rw [List.filterMap_map]
  rfl

theorem filterMap_walk (s : UInt32) (vs : List V) :
    (walk libs s vs).filterMap (Task.request libs) = requestsIn libs s vs := by
  induction vs with
  | nil => rfl
  | cons v vs ih =>
    rw [requestsIn] at ih
    rw [walk, List.filterMap_cons_none rfl, List.filterMap_append, ih, filterMap_entry, requestsIn, entries,
      entries, List.flatMap_cons, List.filterMap_append]

theorem filterMap_agendaOf (u : Setup V) :
    (agendaOf libs u).filterMap (Task.request libs) = requestsOf libs u := by
  rw [agendaOf, agenda, List.filterMap_append, filterMap_walk, requestsOf, secondWalk]
  split_ifs
  · rw [filterMap_walk]
  · rfl

theorem length_walk (s : UInt32) (vs : List V) :
    (walk libs s vs).length = vs.length + (entries libs vs).length + 1 := by
  induction vs with
  | nil => rfl
  | cons v vs ih =>
    rw [walk, List.length_cons, List.length_append, List.length_map, ih, entries, entries, List.flatMap_cons,
      List.length_append, List.length_cons]
    omega

theorem length_agendaOf (u : Setup V) :
    (agendaOf libs u).length =
      (if u.rpcState = SPDK_RPC_STARTUP then 2 else 1) *
        ((subsystemsOf libs u).length + (entries libs (subsystemsOf libs u)).length + 1) := by
  rw [agendaOf, agenda, List.length_append, length_walk, secondWalk]
  split_ifs
  · rw [length_walk]
    omega
  · simp

theorem filterMap_append_perm {α β : Type} {f g : α → Option β} (l : List α)
    (h : ∀ x, f x = none ∨ g x = none) :
    (l.filterMap f ++ l.filterMap g).Perm (l.filterMap fun x => (f x).or (g x)) := by
  induction l with
  | nil => exact .refl _
  | cons x l ih =>
    rcases h x with hx | hx
    · cases hg : g x with
      | none => simpa [List.filterMap_cons, hx, hg] using ih
      | some y =>
        rw [List.filterMap_cons_none hx, List.filterMap_cons_some hg,
          List.filterMap_cons_some (b := y) (by simp [hx, hg])]
        exact List.perm_middle.trans (ih.cons y)
    · cases hf : f x with
      | none => simpa [List.filterMap_cons, hx, hf] using ih
      | some y =>
        rw [List.filterMap_cons_none hx, List.filterMap_cons_some hf,
          List.filterMap_cons_some (b := y) (by simp [hf]), List.cons_append]
        exact ih.cons y

theorem and_startup_runtime_iff (m : UInt32) :
    m &&& (SPDK_RPC_STARTUP ||| SPDK_RPC_RUNTIME) = SPDK_RPC_STARTUP ||| SPDK_RPC_RUNTIME ↔
      m &&& SPDK_RPC_STARTUP = SPDK_RPC_STARTUP ∧ m &&& SPDK_RPC_RUNTIME = SPDK_RPC_RUNTIME := by
  refine ⟨?_, ?_⟩
  · intro h
    have hpart (b : UInt32) (hb : (SPDK_RPC_STARTUP ||| SPDK_RPC_RUNTIME) &&& b = b) : m &&& b = b := by
      rw [← hb, ← UInt32.and_assoc, h]
    exact ⟨hpart _ (by decide), hpart _ (by decide)⟩
  · rintro ⟨hs, hr⟩
    have hor : m &&& (SPDK_RPC_STARTUP ||| SPDK_RPC_RUNTIME) =
        m &&& SPDK_RPC_STARTUP ||| m &&& SPDK_RPC_RUNTIME := UInt32.toBitVec_inj.1 BitVec.and_or_distrib_left
    rw [hor, hs, hr]

/-- A method is called in one of the two states at most: in the first one that allows it. -/
theorem runsIn_startup_iff (m : UInt32) :
    RunsIn SPDK_RPC_STARTUP m ↔ m &&& SPDK_RPC_STARTUP = SPDK_RPC_STARTUP := by
  have hne : SPDK_RPC_STARTUP ≠ SPDK_RPC_RUNTIME := by decide
  simp [RunsIn, hne]

theorem runsIn_runtime_iff (m : UInt32) :
    RunsIn SPDK_RPC_RUNTIME m ↔
      m &&& SPDK_RPC_RUNTIME = SPDK_RPC_RUNTIME ∧ ¬m &&& SPDK_RPC_STARTUP = SPDK_RPC_STARTUP := by
  rw [RunsIn, and_startup_runtime_iff]
  tauto

theorem entryRequest_or (v : V) :
    (entryRequest libs (RunsIn SPDK_RPC_STARTUP) v).or (entryRequest libs (RunsIn SPDK_RPC_RUNTIME) v) =
      entryRequest libs (fun m => m &&& SPDK_RPC_STARTUP = SPDK_RPC_STARTUP ∨
        m &&& SPDK_RPC_RUNTIME = SPDK_RPC_RUNTIME) v := by
  simp only [entryRequest, runsIn_startup_iff, runsIn_runtime_iff]
  cases decodeConfigEntry libs v with
  | none => rfl
  | some cfg =>
    dsimp only
    cases libs.methodStateMask cfg.method with
    | none => rfl
    | some m => by_cases hm : m &&& SPDK_RPC_STARTUP = SPDK_RPC_STARTUP <;> simp [hm]

theorem entryRequest_once (v : V) :
    entryRequest libs (RunsIn SPDK_RPC_STARTUP) v = none ∨
      entryRequest libs (RunsIn SPDK_RPC_RUNTIME) v = none := by
  simp only [entryRequest, runsIn_startup_iff, runsIn_runtime_iff]
  cases decodeConfigEntry libs v with
  | none => exact .inl rfl
  | some cfg =>
    dsimp only
    cases libs.methodStateMask cfg.method with
    | none => exact .inl rfl
    | some m => by_cases hm : m &&& SPDK_RPC_STARTUP = SPDK_RPC_STARTUP <;> simp [hm]

theorem requestsOf_perm (hs : u.rpcState = SPDK_RPC_STARTUP) :
    (requestsOf libs u).Perm ((entries libs (subsystemsOf libs u)).filterMap
      (entryRequest libs fun m => m &&& SPDK_RPC_STARTUP = SPDK_RPC_STARTUP ∨
        m &&& SPDK_RPC_RUNTIME = SPDK_RPC_RUNTIME)) := by
  rw [requestsOf, if_pos hs, hs, ← funext entryRequest_or]
  exact filterMap_append_perm _ entryRequest_once

theorem Begun.sent_initial {todo : List (Task V)} (h : Begun libs (agendaOf libs u) w.sent todo) :
    w.sent <+: requestsOf libs u := by
  obtain ⟨begun, htotal, hsent, -⟩ := h
  rw [← filterMap_agendaOf, htotal, List.filterMap_append, hsent]
  exact List.prefix_append _ _

theorem Ended.succeeded (h : Ended libs (agendaOf libs u) w) (hres : w.results = [0]) :
    w.sent = requestsOf libs u ∧ ∀ t ∈ agendaOf libs u, t.WellFormed libs := by
  rcases h.results with ⟨-, begun, htotal, hsent, hwell⟩ | ⟨rc, todo, hrc, hres', -⟩
  · rw [List.append_nil] at htotal
    rw [← htotal, filterMap_agendaOf] at hsent
    rw [← htotal] at hwell
    exact ⟨hsent, hwell⟩
  · rw [hres'] at hres
    exact absurd (List.singleton_inj.1 hres) hrc

end Requests

/-! A configuration with one subsystem, a method of which belongs to either state, and the
callbacks that load it. -/
section Example

inductive Json where
  | null
  | string (s : String)
  | array (vs : List Json)
  | object (members : List (String × Json))

def Json.type : Json → ValType
  | .null => .null
  | .string _ => .string
  | .array _ => .arrayBegin
  | .object _ => .objectBegin

def Json.decodeString : Json → Option String
  | .string s => some s
  | _ => none

def Json.elements : Json → List Json
  | .array vs => vs
  | _ => []

def Json.decodeObject : Json → List (Decoder Json) → Option (List (Option Json))
  | .object members, ds =>
    if members.all fun m => ds.any fun d => d.name == m.1 then
      ds.mapM fun d =>
        match members.lookup d.name with
        | some v => if d.decode v then some (some v) else none
        | none => if d.optional then some none else none
    else none
  | _, _ => none

def exampleLibs : Libs Json where
  type := Json.type
  decodeString := Json.decodeString
  decodeObject := Json.decodeObject
  elements := Json.elements
  text := fun _ => "\x7b\x7d"
  methodStateMask := fun method =>
    if method = "bdev_set_options" then some SPDK_RPC_STARTUP
    else if method = "bdev_malloc_create" then some SPDK_RPC_RUNTIME
    else none
  ticksHz := 1000

def exampleSubsystem : Json :=
  .object [("subsystem", .string "bdev"), ("config", .array
    [.object [("method", .string "bdev_set_options")],
      .object [("method", .string "bdev_malloc_create"), ("params", .object [])]])]

def exampleSetup : Setup Json :=
  ⟨true, none, 9, true, 9, 0, .array [exampleSubsystem], none, 7, 0, SPDK_RPC_STARTUP, true, 0⟩

def exampleAnswers : Answers := ⟨0, 0, none, true, 0⟩

def exampleEvents : List Event :=
  [.poll 0 false exampleAnswers, .poll 1 false exampleAnswers, .message exampleAnswers,
    .message exampleAnswers, .initDone 0 exampleAnswers, .message exampleAnswers,
    .poll 1 false exampleAnswers, .message exampleAnswers]

theorem exampleEvents_run :
    ∃ w, run exampleLibs true exampleSetup exampleEvents = some w ∧ w.results = [0] :=
  ⟨_, rfl, rfl⟩

end Example

section Callbacks
variable {total : List (Task V)} {n : ℕ} {c : Ctx V} {k : Waiting} {e : Event}

theorem Alive.step_some (h : Alive libs total stopOnError n w c k) (hsafe : Safe w e) :
    ∃ w', JsonConfig.step libs e w = some w' := by
  cases e with
  | message a => cases hm : w.messages <;> simp [JsonConfig.step, hm, h.ctx]
  | initDone rc a => cases hi : w.initializing <;> simp [JsonConfig.step, hi, h.ctx]
  | poll rc error a =>
    cases hpoller : c.clientConnPoller with
    | none => simp [JsonConfig.step, h.ctx, hpoller]
    | some p =>
      cases p with
      | rpcClientConnectPoller => simp [JsonConfig.step, h.ctx, hpoller]
      | rpcClientPoller =>
        have hresp := (hsafe c h.ctx hpoller).2
        simp only [JsonConfig.step, h.ctx, hpoller, rpcClientPoller]
        split_ifs with hzero _ hneg herror hcb
        · exact ⟨_, rfl⟩
        · exact ⟨_, rfl⟩
        · exact ⟨_, rfl⟩
        · exact ⟨_, rfl⟩
        · have hcb' := hresp (by omega)
          rw [if_neg herror, hcb] at hcb'
          cases hcb'
        · exact ⟨_, rfl⟩

/-- A context that was freed is held by no message and by no initialization. -/
def NotHeld (w : World V) : Prop := w.ctx = none → Quiet w

theorem Outcome.notHeld {P : Prop} (h : Outcome libs total stopOnError n P w) : NotHeld w := by
  cases h with
  | alive c k h => intro hctx; simp [h.ctx] at hctx
  | done hquiet _ _ _ => exact fun _ => hquiet
  | failed hquiet _ _ => exact fun _ => hquiet

theorem Alive.step_notHeld_iff (h : Alive libs total stopOnError n w c k) :
    (∃ w', JsonConfig.step libs e w = some w' ∧ NotHeld w') ↔ Safe w e := by
  refine ⟨?_, ?_⟩
  · rintro ⟨w', hs, hnot⟩
    cases h.step hs with
    | onward _ hsafe _ => exact hsafe
    | idle _ hsafe _ _ => exact hsafe
    | broken _ hsafe hquiet h' => exact hsafe.2 (hquiet.1 (hnot h'.ctx))
  · intro hsafe
    obtain ⟨w', hs⟩ := h.step_some hsafe
    refine ⟨w', hs, ?_⟩
    cases h.step hs with
    | onward _ _ hout => exact hout.notHeld
    | idle _ _ c' h' => intro hctx; simp [h'.ctx] at hctx
    | broken _ hsafe' hquiet _ => exact fun _ => hquiet.2 (hsafe'.1 hsafe)

theorem Ended.step_eq (h : Ended libs total w) (hquiet : Quiet w) : JsonConfig.step libs e w = some w := by
  cases e with
  | poll rc error a => simp [JsonConfig.step, h.ctx]
  | message a => simp [JsonConfig.step, hquiet.1]
  | initDone rc a => simp [JsonConfig.step, hquiet.2]

end Callbacks

/-- Along a run every callback finds the context that it is given, and none is left with one
that was freed, if and only if the poller of the requests ends the load only while no
message and no initialization is under way, and finds responses only to requests. -/
theorem freed_context_held_by_none_iff (libs : Libs V) (stopOnError : Bool) (u : Setup V) (events : List Event) :
    Lib.Along (step libs) (spdkSubsystemInitFromJsonConfig libs stopOnError u) NotHeld events ↔
      Lib.Meets (step libs) (spdkSubsystemInitFromJsonConfig libs stopOnError u) Safe events := by
  refine Lib.along_iff (I := fun w => ∃ n, Inv libs (agendaOf libs u) stopOnError n w) ?_
    ⟨_, start_inv libs stopOnError u⟩ ?_ ?_
  · rcases start_alive_or_ended libs stopOnError u with h | h
    · intro hctx
      simp [h.ctx] at hctx
    · exact fun _ => h.2.2
  · rintro w e w' ⟨n, hinv⟩ hs
    obtain ⟨m, hm, -⟩ := hinv.step hs
    exact ⟨m, hm⟩
  · rintro w e ⟨n, ⟨m, -, c, k, h⟩ | h⟩ hnot
    · exact h.step_notHeld_iff
    · have hs := h.step_eq (e := e) (hnot h.ctx)
      exact iff_of_true ⟨w, hs, hnot⟩ (h.step hs).2.2

-- The connection breaks while the next entry is a message on the thread.
example : run exampleLibs true exampleSetup
    [.poll 0 false exampleAnswers, .poll 1 false exampleAnswers, .poll (-5) false exampleAnswers,
      .message exampleAnswers] = none := by
  rfl

section Faultless
variable {total : List (Task V)} {n : ℕ} {c : Ctx V} {k : Waiting} {e : Event}

theorem Alive.safe_of_faultless (h : Alive libs total stopOnError n w c k) (hf : Faultless w e) : Safe w e := by
  cases e with
  | message a => exact trivial
  | initDone rc a => exact trivial
  | poll rc error a =>
    intro c' hc' hpoller
    rw [h.ctx] at hc'
    obtain rfl := Option.some.inj hc'
    obtain ⟨hrc, hresp⟩ := (hf.2 c h.ctx).2 hpoller
    refine ⟨by omega, ?_⟩
    intro hpos
    obtain ⟨hlt, herror⟩ := hresp hpos
    rw [if_neg herror]
    have hk : k = .response := by
      by_contra hk
      have := h.answered
      rw [if_neg hk] at this
      omega
    subst hk
    exact h.waits.2.2

/-- The load is under way, with `n` callbacks to the end, or it has ended with 0. -/
def Going (libs : Libs V) (total : List (Task V)) (stopOnError : Bool) (n : ℕ) (w : World V) : Prop :=
  (∃ c k, Alive libs total stopOnError n w c k) ∨ Ended libs total w ∧ Quiet w ∧ w.results = [0] ∧ n = 0

theorem Going.step (h : Going libs total stopOnError n w) (hwell : ∀ t ∈ total, t.WellFormed libs)
    (hf : Faultless w e) :
    ∃ w', JsonConfig.step libs e w = some w' ∧
      ∃ m, Going libs total stopOnError m w' ∧ m + (moves w e).toNat = n := by
  rcases h with ⟨c, k, h⟩ | ⟨h, hquiet, hres, hn⟩
  · obtain ⟨w', hs⟩ := h.step_some (h.safe_of_faultless hf)
    refine ⟨w', hs, ?_⟩
    have hpos := h.left_pos
    cases h.step hs with
    | onward hmoves _ hout =>
      refine ⟨n - 1, ?_, by simp [hmoves]; omega⟩
      cases hout with
      | alive c' k' h' => exact .inl ⟨c', k', h'⟩
      | done hquiet hn h' hres => exact .inr ⟨h', hquiet, hres, hn⟩
      | failed _ _ hfault => exact absurd ⟨hf, hwell⟩ hfault
    | idle hmoves _ c' h' => exact ⟨n, .inl ⟨c', k, h'⟩, by simp [hmoves]⟩
    | broken hfault _ _ _ => exact absurd hf hfault
  · have hs := h.step_eq (e := e) hquiet
    exact ⟨w, hs, n, .inr ⟨h, hquiet, hres, hn⟩, by simp [(h.step hs).2.1]⟩

end Faultless

theorem exampleEvents_faultless :
    Lib.Meets (step exampleLibs) (spdkSubsystemInitFromJsonConfig exampleLibs true exampleSetup) Faultless
      exampleEvents := by
  have hsucceed : exampleAnswers.Succeed := ⟨rfl, rfl, rfl⟩
  have hconnect (w : World Json) : Faultless w (.poll 0 false exampleAnswers) := by
    refine ⟨hsucceed, fun c _ => ⟨fun _ h => ?_, by simp⟩⟩
    simp [ENOTCONN] at h
  have hresponse (w : World Json) (h : w.answered < w.sent.length) :
      Faultless w (.poll 1 false exampleAnswers) := by
    refine ⟨hsucceed, fun c _ => ⟨fun _ h => ?_, by simp [h]⟩⟩
    simp [ENOTCONN] at h
  intro k hk w hw
  have hcount := congrArg (Option.map fun w => decide (w.answered < w.sent.length)) hw
  change k < 8 at hk
  interval_cases k
  · exact hconnect w
  · exact hresponse w (of_decide_eq_true (Option.some.inj hcount).symm)
  · exact hsucceed
  · exact hsucceed
  · exact ⟨rfl, hsucceed⟩
  · exact hsucceed
  · exact hresponse w (of_decide_eq_true (Option.some.inj hcount).symm)
  · exact hsucceed

end JsonConfig

end LearnSpdk
