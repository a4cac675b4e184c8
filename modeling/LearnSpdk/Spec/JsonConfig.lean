import LearnSpdk.Lib.Attempt
import Mathlib.Data.PNat.Basic

/-! The loader of `spdk_filesystem/json_config.c`, which sends the entries of a
configuration to the RPC server of its own process, one request at a time. Its thread runs
one callback after the other: the poller that the loader has registered, a message that it
sent to its own thread, or the end of the initialization that it started. The JSON and RPC
libraries are not in the repository: `Libs` is what the loader takes from them, and a
callback is given the answers of the calls that it makes. An array is the list of its
elements, an iterator the elements from its position on, and `[]` is its `NULL`. -/

namespace LearnSpdk

namespace JsonConfig

def ENOENT : ℤ := 2
def ENOMEM : ℤ := 12
def EINVAL : ℤ := 22
def ENOTCONN : ℤ := 107
def ETIMEDOUT : ℤ := 110

def SPDK_RPC_STARTUP : UInt32 := 1
def SPDK_RPC_RUNTIME : UInt32 := 2

def SPDK_DEFAULT_RPC_ADDR : String := "/var/tmp/spdk.sock"

/-- The size of `sun_path`. -/
def RPC_SOCKET_PATH_MAX : ℕ := 108

def RPC_CLIENT_CONNECT_TIMEOUT_US : UInt64 := 1000 * 1000
def RPC_CLIENT_REQUEST_TIMEOUT_US : UInt64 := 10 * 1000 * 1000

/-- `enum spdk_json_val_type`, with one constructor for the types that no decoder asks for. -/
inductive ValType where
  | null
  | string
  | arrayBegin
  | objectBegin
  | other
deriving DecidableEq

/-- `struct spdk_json_object_decoder`: whether its function accepts a value. -/
structure Decoder (V : Type) where
  name : String
  decode : V → Bool
  optional : Bool

/-- The JSON and RPC libraries. `decodeObject` captures one value for each decoder, none for
an optional member that is missing, and fails as `spdk_json_decode_object` does; `elements`
are the elements that `spdk_json_array_first` and `spdk_json_next` walk through; `text` is
the text of a value. -/
structure Libs (V : Type) where
  type : V → ValType
  decodeString : V → Option String
  decodeObject : V → List (Decoder V) → Option (List (Option V))
  elements : V → List V
  text : V → String
  methodStateMask : String → Option UInt32
  ticksHz : UInt64

/-- The answers of the libraries to the calls of one callback: the clock, read once to check
a timeout and once to set one, the `errno` of a request that could not be created, whether
it could be begun, and the result of sending it. -/
structure Answers where
  checkTicks : UInt64
  setTicks : UInt64
  createRequest : Option ℕ+
  beginRequest : Bool
  sendRequest : ℤ

inductive Poller where
  | rpcClientConnectPoller
  | rpcClientPoller
deriving DecidableEq

inductive Message where
  | loadSubsystem
  | loadSubsystemConfigEntry
deriving DecidableEq

/-- A request as `spdk_jsonrpc_end_request` leaves it. -/
structure Request where
  id : UInt32
  method : String
  params : Option String
deriving DecidableEq

/-- `struct load_json_config_ctx`. The only handler that `client_resp_cb` ever points to is
`app_json_config_load_subsystem_config_entry_next`. -/
structure Ctx (V : Type) where
  stopOnError : Bool
  subsystems : Option (List V)
  subsystemsIt : List V
  configIt : List V
  rpcRequestId : UInt32
  clientConnPoller : Option Poller
  clientRespCb : Bool
  timeout : UInt64

/-- The context, which is freed at the end, what is waiting on the thread and in
`spdk_subsystem_init`, and the state of the RPC server. `sent`, `answered` and `results`
record the requests sent, the number of responses taken and the results passed to `cb_fn`;
no step reads them. -/
structure World (V : Type) where
  ctx : Option (Ctx V)
  messages : List Message
  initializing : Bool
  rpcState : UInt32
  sent : List Request
  answered : ℕ
  results : List ℤ

variable {V : Type} (libs : Libs V)

def capString (v : V) : Bool := libs.type v = .string

def capObject (v : V) : Bool := libs.type v = .objectBegin

def capArrayOrNull (v : V) : Bool := libs.type v = .arrayBegin ∨ libs.type v = .null

/-- `struct config_entry`. -/
structure ConfigEntry (V : Type) where
  method : String
  params : Option V

def jsonrpcCmdDecoders : List (Decoder V) :=
  [⟨"method", fun v => (libs.decodeString v).isSome, false⟩, ⟨"params", capObject libs, true⟩]

def subsystemDecoders : List (Decoder V) :=
  [⟨"subsystem", capString libs, false⟩, ⟨"config", capArrayOrNull libs, false⟩]

def decodeConfigEntry (v : V) : Option (ConfigEntry V) :=
  match libs.decodeObject v (jsonrpcCmdDecoders libs) with
  | some [some method, params] => (libs.decodeString method).map fun method => ⟨method, params⟩
  | _ => none

/-- The `config` array of a subsystem. -/
def decodeSubsystem (v : V) : Option (List V) :=
  match libs.decodeObject v (subsystemDecoders libs) with
  | some [_, some config] => some (libs.elements config)
  | _ => none

namespace World

/-- `app_json_config_load_done`: the poller is unregistered, the callback is called and the
context is freed. -/
def loadDone (rc : ℤ) (w : World V) : World V := { w with ctx := none, results := w.results ++ [rc] }

def sendMsg (m : Message) (w : World V) : World V := { w with messages := w.messages ++ [m] }

end World

def rpcClientSetTimeout (timeoutUs : UInt64) (a : Answers) (c : Ctx V) : Ctx V :=
  { c with timeout := a.setTicks + timeoutUs * libs.ticksHz / (1000 * 1000) }

def rpcClientCheckTimeout (a : Answers) (c : Ctx V) : ℤ := if c.timeout < a.checkTicks then -ETIMEDOUT else 0

/-- `client_send_request`; the caller ends the load if the request could not be sent. -/
def clientSendRequest (q : Request) (a : Answers) (c : Ctx V) (w : World V) : World V :=
  let c := rpcClientSetTimeout libs RPC_CLIENT_REQUEST_TIMEOUT_US a { c with clientRespCb := true }
  if a.sendRequest ≠ 0 then { w with ctx := some c }.loadDone (-a.sendRequest)
  else { w with ctx := some c, sent := w.sent ++ [q] }

/-- The next entry later, to avoid recurrence. -/
def skipConfigEntry (c : Ctx V) (w : World V) : World V :=
  { w with ctx := some { c with configIt := c.configIt.tail } }.sendMsg .loadSubsystemConfigEntry

def loadSubsystemConfigEntry (a : Answers) (c : Ctx V) (w : World V) : World V :=
  match c.configIt with
  | [] => { w with ctx := some { c with subsystemsIt := c.subsystemsIt.tail } }.sendMsg .loadSubsystem
  | entry :: _ =>
    match decodeConfigEntry libs entry with
    | none => w.loadDone (-EINVAL)
    | some cfg =>
      match libs.methodStateMask cfg.method with
      | none => w.loadDone (-ENOENT)
      | some stateMask =>
        if stateMask &&& w.rpcState ≠ w.rpcState then skipConfigEntry c w
        else if stateMask &&& (SPDK_RPC_STARTUP ||| SPDK_RPC_RUNTIME) = SPDK_RPC_STARTUP ||| SPDK_RPC_RUNTIME ∧
            w.rpcState = SPDK_RPC_RUNTIME then
          -- it has already been run in the state `SPDK_RPC_STARTUP`
          skipConfigEntry c w
        else
          match a.createRequest with
          | some errno => w.loadDone (-(errno : ℕ))
          | none =>
            if a.beginRequest = false then w.loadDone (-ENOMEM)
            else clientSendRequest libs ⟨c.rpcRequestId, cfg.method, cfg.params.map libs.text⟩ a c w

def loadSubsystemConfigEntryNext (a : Answers) (c : Ctx V) (w : World V) : World V :=
  loadSubsystemConfigEntry libs a { c with configIt := c.configIt.tail } w

def loadSubsystem (a : Answers) (c : Ctx V) (w : World V) : World V :=
  match c.subsystemsIt with
  | [] =>
    if w.rpcState = SPDK_RPC_STARTUP then { w with ctx := some c, initializing := true }
    else w.loadDone 0
  | subsystem :: _ =>
    match decodeSubsystem libs subsystem with
    | none => w.loadDone (-EINVAL)
    | some config => loadSubsystemConfigEntry libs a { c with configIt := config } w

def subsystemInitDone (rc : ℤ) (a : Answers) (c : Ctx V) (w : World V) : World V :=
  if rc ≠ 0 then w.loadDone rc
  else loadSubsystem libs a { c with subsystemsIt := c.subsystems.getD c.subsystemsIt }
    { w with rpcState := SPDK_RPC_RUNTIME }

def rpcClientConnectPoller (rc : ℤ) (a : Answers) (c : Ctx V) (w : World V) : World V :=
  if rc ≠ -ENOTCONN then loadSubsystem libs a { c with clientConnPoller := some .rpcClientPoller } w
  else if rpcClientCheckTimeout a c ≠ 0 then w.loadDone (rpcClientCheckTimeout a c)
  else w

/-- `rpc_client_poller`; `none` if it finds no callback for a response. -/
def rpcClientPoller (rc : ℤ) (error : Bool) (a : Answers) (c : Ctx V) (w : World V) : Option (World V) :=
  if rc = 0 then
    if rpcClientCheckTimeout a c = -ETIMEDOUT then
      some { w with ctx := some (rpcClientSetTimeout libs RPC_CLIENT_REQUEST_TIMEOUT_US a c) }
    else some w
  else if rc < 0 then some (w.loadDone rc)
  else if error = true ∧ c.stopOnError = true then
    some ({ w with answered := w.answered + 1 }.loadDone (-EINVAL))
  else if c.clientRespCb = false then none
  else
    some (loadSubsystemConfigEntryNext libs a { c with clientRespCb := false }
      { w with answered := w.answered + 1 })

/-- What the thread runs next: the poller, with what `spdk_jsonrpc_client_poll` returns and
whether a response holds an error, a message, or the end of the initialization. -/
inductive Event where
  | poll (rc : ℤ) (error : Bool) (a : Answers)
  | message (a : Answers)
  | initDone (rc : ℤ) (a : Answers)

/-- One callback; `none` if it is given a context that was freed, or if an assertion fails. -/
def step : Event → World V → Option (World V)
  | .poll rc error a, w =>
    match w.ctx with
    | none => some w
    | some c =>
      match c.clientConnPoller with
      | none => some w
      | some .rpcClientConnectPoller => some (rpcClientConnectPoller libs rc a c w)
      | some .rpcClientPoller => rpcClientPoller libs rc error a c w
  | .message a, w =>
    match w.messages with
    | [] => some w
    | m :: ms =>
      w.ctx.map fun c =>
        match m with
        | .loadSubsystem => loadSubsystem libs a c { w with messages := ms }
        | .loadSubsystemConfigEntry => loadSubsystemConfigEntry libs a c { w with messages := ms }
  | .initDone rc a, w =>
    if w.initializing = true then
      w.ctx.map fun c => subsystemInitDone libs rc a c { w with initializing := false }
    else some w

/-- The answers of the libraries while the loader is set up: reading the file, the two parses
and the arrays between them, the search for `subsystems` with the value that it finds, and
the RPC server and the client, with the state in which the server starts. -/
structure Setup (V : Type) where
  ctxAllocated : Bool
  readErrno : Option ℕ+
  countRc : ℤ
  valuesAllocated : Bool
  parseRc : ℤ
  findArray : ℤ
  subsystems : V
  rpcAddr : Option String
  pid : ℕ
  rpcInitialize : ℤ
  rpcState : UInt32
  connected : Bool
  ticks : UInt64

def appJsonConfigRead (u : Setup V) : ℤ :=
  match u.readErrno with
  | some errno => -(errno : ℕ)
  | none =>
    if u.countRc < 0 then u.countRc
    else if u.valuesAllocated = false then u.countRc
    else if u.parseRc ≠ u.countRc then u.parseRc
    else 0

/-- The name of the socket is too long for its buffer. -/
def socketNameOverflows (u : Setup V) : Bool :=
  let addr :=
    match u.rpcAddr with
    | none => SPDK_DEFAULT_RPC_ADDR
    | some addr => if addr.toList.head? ≠ some '/' then SPDK_DEFAULT_RPC_ADDR else addr
  RPC_SOCKET_PATH_MAX + 1 ≤ (addr ++ "." ++ toString u.pid ++ "_config").utf8ByteSize

/-- The array of subsystems, `NULL` if there is no such key. -/
def foundSubsystems (u : Setup V) : Option (List V) :=
  if u.findArray = 0 then some (libs.elements u.subsystems) else none

/-- The context as `calloc` leaves it, with the fields that are set before the poller runs. -/
def newCtx (stopOnError : Bool) (u : Setup V) : Ctx V where
  stopOnError := stopOnError
  subsystems := foundSubsystems libs u
  subsystemsIt := (foundSubsystems libs u).getD []
  configIt := []
  rpcRequestId := 0
  clientConnPoller := some .rpcClientConnectPoller
  clientRespCb := false
  timeout := u.ticks + RPC_CLIENT_CONNECT_TIMEOUT_US * libs.ticksHz / (1000 * 1000)

/-- `spdk_subsystem_init_from_json_config_temp`. -/
def spdkSubsystemInitFromJsonConfig (stopOnError : Bool) (u : Setup V) : World V :=
  let w : World V := ⟨none, [], false, u.rpcState, [], 0, []⟩
  if u.ctxAllocated = false then { w with results := [-ENOMEM] }
  else if appJsonConfigRead u ≠ 0 then w.loadDone (-EINVAL)
  else if u.findArray ≠ 0 ∧ u.findArray ≠ -ENOENT then w.loadDone (-EINVAL)
  else if socketNameOverflows u then w.loadDone (-EINVAL)
  else if u.rpcInitialize ≠ 0 then w.loadDone (-EINVAL)
  else if u.connected = false then w.loadDone (-EINVAL)
  else { w with ctx := some (newCtx libs stopOnError u) }

/-- The callbacks `events` one after the other. -/
def run (stopOnError : Bool) (u : Setup V) (events : List Event) : Option (World V) :=
  Lib.attempt (step libs) (spdkSubsystemInitFromJsonConfig libs stopOnError u) events

end JsonConfig

end LearnSpdk
