import Mathlib.Data.Fin.Basic
import Mathlib.Data.List.TakeWhile
import Mathlib.Data.Int.Notation
import Mathlib.Order.Nat

/-! The receive callbacks of `spdk_echo_server/spdk_server.c` and `KV_Store/spdk_server.c`,
and the request tokenizer of the second. A connection carries the bytes that came in and
those that the socket took, beside the counters of the server. The result `none` is a use of
memory outside the buffer or the token table. -/

namespace LearnSpdk

namespace Server

def bufferSize : ℕ := 1024

def maxTokens : ℕ := 16

/-- The delimiter of `kvs_split_tokens`. -/
def space : UInt8 := 32

/-- A byte that `strtok` takes into a token. -/
def inToken (b : UInt8) : Bool := b ≠ space ∧ b ≠ 0

/-- `strtok(msg, " ")` on the bytes to the end of the buffer from `msg`, or from where the
call before stopped: the token if there is one, the bytes up to where the next call starts
and those from there on. The delimiter after the token is overwritten. -/
def strtok (msg : List UInt8) : Option (Option (List UInt8) × List UInt8 × List UInt8) :=
  let blanks := msg.takeWhile (· = space)
  match msg.dropWhile (· = space) with
  | [] => none
  | b :: rest =>
    if b = 0 then some (none, blanks, b :: rest)
    else
      let token := (b :: rest).takeWhile inToken
      match (b :: rest).dropWhile inToken with
      | [] => none
      | c :: rest =>
        if c = 0 then some (some token, blanks ++ token, c :: rest)
        else some (some token, blanks ++ token ++ [0], rest)

theorem strtok_cases (msg : List UInt8) :
    (strtok msg = none ∧ 0 ∉ msg) ∨
      ∃ blanks, (∀ b ∈ blanks, b = space) ∧
        ((∃ rest, msg = blanks ++ 0 :: rest ∧ strtok msg = some (none, blanks, 0 :: rest)) ∨
          ∃ token rest, token ≠ [] ∧ (∀ b ∈ token, inToken b = true) ∧
            ((msg = blanks ++ token ++ 0 :: rest ∧
                strtok msg = some (some token, blanks ++ token, 0 :: rest)) ∨
              msg = blanks ++ token ++ space :: rest ∧
                strtok msg = some (some token, blanks ++ token ++ [0], rest))) := by
  have hblanks : ∀ b ∈ msg.takeWhile (· = space), b = space :=
    fun b hb => by simpa using List.mem_takeWhile_imp hb
  have hmsg := (msg.takeWhile_append_dropWhile (p := (· = space))).symm
  have hstop := List.head?_dropWhile_not (· = space) msg
  unfold strtok
  cases hdrop : msg.dropWhile (· = space) with
  | nil =>
    refine .inl ⟨rfl, fun hzero => ?_⟩
    have := List.dropWhile_eq_nil_iff.1 hdrop 0 hzero
    simp [space] at this
  | cons b rest =>
    rw [hdrop] at hmsg hstop
    have hb : b ≠ space := by simpa using hstop
    by_cases hzero : b = 0
    · subst hzero
      exact .inr ⟨_, hblanks, .inl ⟨rest, hmsg, by simp⟩⟩
    have hrest := ((b :: rest).takeWhile_append_dropWhile (p := inToken)).symm
    have hstop' := List.head?_dropWhile_not inToken (b :: rest)
    have htoken : ∀ c ∈ (b :: rest).takeWhile inToken, inToken c = true := fun c hc => List.mem_takeWhile_imp hc
    have hne : (b :: rest).takeWhile inToken ≠ [] := by simp [inToken, hb, hzero]
    cases hdrop' : (b :: rest).dropWhile inToken with
    | nil =>
      refine .inl ⟨by simp [hzero, hdrop'], fun hmem => ?_⟩
      rw [hmsg, List.mem_append] at hmem
      rcases hmem with hmem | hmem
      · have := hblanks 0 hmem
        simp [space] at this
      · have := List.dropWhile_eq_nil_iff.1 hdrop' 0 hmem
        simp [inToken] at this
    | cons c rest' =>
      rw [hdrop'] at hrest hstop'
      refine .inr ⟨_, hblanks, .inr ⟨_, rest', hne, htoken, ?_⟩⟩
      by_cases hc : c = 0
      · subst hc
        exact .inl ⟨by rw [List.append_assoc, ← hrest]; exact hmsg, by simp [hzero, hdrop']⟩
      · obtain rfl : c = space := by simpa [inToken, hc] using hstop'
        exact .inr ⟨by rw [List.append_assoc, ← hrest]; exact hmsg, by simp [hzero, hdrop', hc]⟩

theorem length_strtok {msg token passed rest : List UInt8}
    (h : strtok msg = some (some token, passed, rest)) : rest.length < msg.length := by
  obtain ⟨hnone, -⟩ | ⟨blanks, -, ⟨rest', -, heq⟩ | ⟨token', rest', hne, -, ⟨hmsg, heq⟩ | ⟨hmsg, heq⟩⟩⟩ :=
    strtok_cases msg
  · simp [hnone] at h
  · simp [heq] at h
  · obtain ⟨-, -, rfl⟩ : token' = token ∧ _ = passed ∧ 0 :: rest' = rest := by simpa [heq] using h
    have := List.length_pos_iff.2 hne
    rw [hmsg]
    simp only [List.length_append]
    omega
  · obtain ⟨-, -, rfl⟩ : token' = token ∧ _ = passed ∧ rest' = rest := by simpa [heq] using h
    rw [hmsg]
    simp only [List.length_append, List.length_cons]
    omega

/-- The loop of `kvs_split_tokens` after `tokens` were stored: the token table and the bytes
of the buffer from `msg` on as the calls of `strtok` leave them. -/
def kvsSplitTokens (tokens : List (List UInt8)) (msg : List UInt8) :
    Option (List (List UInt8) × List UInt8) :=
  match _h : strtok msg with
  | none => none
  | some (none, passed, rest) => some (tokens, passed ++ rest)
  | some (some token, passed, rest) =>
    if tokens.length < maxTokens then do
      let (tokens, msg) ← kvsSplitTokens (tokens ++ [token]) rest
      return (tokens, passed ++ msg)
    else none
termination_by msg.length
decreasing_by exact length_strtok _h

/-- `kvs_proto_parser`. No command does anything yet, and the search for the command of the
first token leaves no trace. -/
def kvsProtoParser (tokens : List (List UInt8)) : ℤ := if tokens.length ≤ 0 then -1 else 0

/-- `kvs_proto_process`: its result, and the buffer. The tokens it prints end in the buffer. -/
def kvsProtoProcess (msg : List UInt8) : Option (ℤ × List UInt8) := do
  let (tokens, msg) ← kvsSplitTokens [] msg
  return (kvsProtoParser tokens, msg)

/-- What one `spdk_sock_recv` puts into the buffer. -/
structure Chunk where
  bytes : List UInt8
  bytes_ne_nil : bytes ≠ []
  length_le : bytes.length ≤ bufferSize

/-- A callback: what the two calls on the socket return. After a chunk this is the error of
`spdk_sock_writev`, or how many of the bytes the socket took. -/
inductive Event where
  | failed
  | closed
  | chunk (c : Chunk) (written : Option (Fin (c.bytes.length + 1)))

/-- A connection: the bytes received and those that the socket took so far, and the counters
of the server. -/
structure Connection where
  received : List UInt8
  accepted : List UInt8
  bytesIn : ℤ
  bytesOut : ℤ
  isOpen : Bool

def Connection.fresh : Connection := ⟨[], [], 0, 0, true⟩

/-- The `spdk_server_callback` of a server that turns a chunk into the bytes it sends back by
`process`. There are no more callbacks for a socket that was taken out of the group. -/
def serverCallback (process : Chunk → Option (List UInt8)) (event : Event) (c : Connection) :
    Option Connection :=
  if c.isOpen then
    match event with
    | .failed => some c
    | .closed => some { c with isOpen := false }
    | .chunk chunk written => do
      let buf ← process chunk
      let n := written.elim 0 Fin.val
      return { c with
        received := c.received ++ chunk.bytes
        accepted := c.accepted ++ buf.take n
        bytesIn := c.bytesIn + chunk.bytes.length
        bytesOut := c.bytesOut + n }
  else some c

/-- `spdk_server_callback` of the echo server. -/
def echoServerCallback : Event → Connection → Option Connection :=
  serverCallback fun chunk => some chunk.bytes

/-- The buffer of the KV server: it starts as zeroes. -/
def Chunk.buffer (chunk : Chunk) : List UInt8 :=
  chunk.bytes ++ List.replicate (bufferSize - chunk.bytes.length) 0

/-- What the KV server sends back: the message is printed up to its first NUL, and then
tokenized in the buffer. -/
def kvProcess (chunk : Chunk) : Option (List UInt8) :=
  if 0 ∈ chunk.buffer then do
    let (_, buf) ← kvsProtoProcess chunk.buffer
    return buf.take chunk.bytes.length
  else none

/-- `spdk_server_callback` of the KV server. -/
def kvServerCallback : Event → Connection → Option Connection := serverCallback kvProcess

/-- The two servers. -/
inductive Kind where
  | echo
  | kv
  deriving DecidableEq

/-- `spdk_server_callback`. -/
def callback : Kind → Event → Connection → Option Connection
  | .echo => echoServerCallback
  | .kv => kvServerCallback

/-- A client socket: how often it was added to the group, and how often it was closed. -/
structure Client where
  added : ℕ
  closed : ℕ
deriving DecidableEq

/-- A client socket as `spdk_sock_accept` returns it. -/
def Client.fresh : Client := ⟨0, 0⟩

def Client.add (c : Client) : Client := { c with added := c.added + 1 }

def Client.close (c : Client) : Client := { c with closed := c.closed + 1 }

/-- The sockets of a server: whether `ctx->sock` is open, and the clients accepted so far. -/
structure Sockets where
  listening : Bool
  clients : List Client

def Sockets.push (s : Sockets) (c : Client) : Sockets := { s with clients := s.clients ++ [c] }

/-- The server after `spdk_server_listen`. -/
def Sockets.initial : Sockets := ⟨true, []⟩

/-- What `spdk_sock_getaddr` and `spdk_sock_group_add_sock` return for a client. -/
structure Peer where
  getaddr : ℤ
  addSock : ℤ

/-- What a poller returns. -/
inductive PollerStatus where
  | idle
  | busy
deriving DecidableEq

/-- The loop of `spdk_server_accept` after `count` clients. It ends when `spdk_sock_accept`
returns `NULL`, which it does after the clients of `peers`. A closed `ctx->sock` is `NULL`, and
`spdk_sock_accept` follows it. -/
def acceptLoop : List Peer → ℕ → Sockets → Option (PollerStatus × Sockets)
  | [], count, s => if s.listening then some (if count > 0 then .busy else .idle, s) else none
  | peer :: peers, count, s =>
    if s.listening then
      let client := Client.fresh
      if peer.getaddr < 0 then
        -- the listening socket is closed here, not the client
        some (.idle, { s.push client with listening := false })
      else if peer.addSock < 0 then some (.idle, s.push client.close)
      else acceptLoop peers (count + 1) (s.push client.add)
    else none

/-- `spdk_server_accept` of a server. Both servers have the same one. -/
def serverAccept : Kind → List Peer → Sockets → Option (PollerStatus × Sockets)
  | .echo, peers => acceptLoop peers 0
  | .kv, peers => acceptLoop peers 0

end Server

end LearnSpdk
