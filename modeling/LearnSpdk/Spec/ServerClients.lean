import LearnSpdk.Spec.Server

/-! The servers together with the clients of `spdk_echo_server/client.cpp`. A connection is two
streams of bytes that arrive in order and in segments of any size. The events of one run are
those of all clients and the pollers of the server, in any order. -/

namespace LearnSpdk

namespace Server

inductive Outcome where
  | sendFailed
  | receiveFailed
  | closedByServer
  | echo (reply : List UInt8)

/-- What `std::cout << buffer` prints of a reply: the string in it. -/
def printed (reply : List UInt8) : List UInt8 := reply.takeWhile (· ≠ 0)

/-- Where a client is in its `main`: before `send`, in `recv`, or behind `close`. -/
inductive Stage where
  | connected
  | waiting
  | done (outcome : Outcome)

/-- A client and its connection: how much of the message `send` took, how much of it the server
received, and what the socket took of the server's answers. -/
structure Session where
  message : List UInt8
  stage : Stage
  sent : ℕ
  received : List UInt8
  accepted : List UInt8

/-- A client after `connect`. -/
def Session.fresh (message : List UInt8) : Session := ⟨message, .connected, 0, [], []⟩

/-- The bytes on the way to the server. -/
def Session.inFlight (c : Session) : List UInt8 := (c.message.take c.sent).drop c.received.length

def Session.hasClosed (c : Session) : Bool :=
  match c.stage with
  | .done _ => true
  | _ => false

/-- The segment that `spdk_sock_recv` gets of the bytes on the way when at most `n + 1` of them
have arrived. -/
def Session.segment (c : Session) (n : ℕ) : List UInt8 := c.inFlight.take (min (n + 1) bufferSize)

/-- What a callback finds at the socket of the client, and what `spdk_sock_writev` takes. -/
def Session.event (c : Session) (n : ℕ) (written : Option ℕ) : Event :=
  if h : c.segment n = [] then if c.hasClosed then .closed else .failed
  else
    .chunk ⟨c.segment n, h, (List.length_take_le _ _).trans (min_le_right _ _)⟩
      (written.map fun w => ⟨min w (c.segment n).length, Nat.lt_succ_of_le (min_le_right _ _)⟩)

/-- `send` takes the first `n` bytes of the message. -/
def Session.send (c : Session) (n : ℕ) : Session :=
  match c.stage with
  | .connected => { c with stage := .waiting, sent := min n c.message.length }
  | _ => c

/-- `sizeof(buffer) - 1` of the client. -/
def replySize : ℕ := 1023

/-- `recv` gets at most `n + 1` of the bytes that came back. It waits for the first one while
the server has the socket open. -/
def Session.recv (c : Session) (n : ℕ) (closed : Bool) : Session :=
  match c.stage with
  | .waiting =>
    match c.accepted.take (min (n + 1) replySize) with
    | [] => if closed then { c with stage := .done .closedByServer } else c
    | reply => { c with stage := .done (.echo reply) }
  | _ => c

def Session.fail (c : Session) : Session :=
  match c.stage with
  | .connected => { c with stage := .done .sendFailed }
  | .waiting => { c with stage := .done .receiveFailed }
  | .done _ => c

/-- The server and its clients. The sockets of the server belong to the first clients, and the
others wait to be accepted. -/
structure System where
  sockets : Sockets
  sessions : List Session
  bytesIn : ℤ
  bytesOut : ℤ

/-- The server after `spdk_server_listen`. -/
def System.initial : System := ⟨.initial, [], 0, 0⟩

def intMax : ℤ := 2147483647

def Client.inGroup (c : Client) : Bool := c.added = 1 ∧ c.closed = 0

inductive Happening where
  | connect (message : List UInt8)
  | send (i n : ℕ)
  | fail (i : ℕ)
  | recv (i n : ℕ)
  | accept (peers : List Peer)
  | recvFailed (i : ℕ)
  | callback (i n : ℕ) (written : Option ℕ)

def System.modify (s : System) (i : ℕ) (f : Session → Session) : System :=
  { s with sessions := s.sessions.modify i f }

/-- The system after a callback that left the connection of the client `c` at `i` and the
counters as in `conn`. -/
def System.after (s : System) (i : ℕ) (sock : Client) (c : Session) (conn : Connection) : System where
  sockets :=
    if conn.isOpen then s.sockets else { s.sockets with clients := s.sockets.clients.set i sock.close }
  sessions := s.sessions.set i { c with received := conn.received, accepted := conn.accepted }
  bytesIn := conn.bytesIn
  bytesOut := conn.bytesOut

/-- The callback of the group for the socket of client `i`. The counters are of type `int`. -/
def System.serve (kind : Kind) (s : System) (i : ℕ) (event : Session → Event) : Option System :=
  match s.sockets.clients[i]?, s.sessions[i]? with
  | some sock, some c =>
    if sock.inGroup then do
      let conn ← Server.callback kind (event c) ⟨c.received, c.accepted, s.bytesIn, s.bytesOut, true⟩
      if conn.bytesIn ≤ intMax ∧ conn.bytesOut ≤ intMax then some (s.after i sock c conn) else none
    else some s
  | _, _ => some s

/-- One event. It changes nothing where the client or the server is not ready for it. -/
def step (kind : Kind) : Happening → System → Option System
  | .connect message, s => some { s with sessions := s.sessions ++ [.fresh message] }
  | .send i n, s => some (s.modify i (·.send n))
  | .fail i, s => some (s.modify i Session.fail)
  | .recv i n, s =>
    let closed := s.sockets.clients[i]?.elim false fun sock => sock.closed > 0
    some (s.modify i (·.recv n closed))
  | .accept peers, s => do
    let backlog := s.sessions.length - s.sockets.clients.length
    let (_, sockets) ← serverAccept kind (peers.take backlog) s.sockets
    return { s with sockets }
  | .recvFailed i, s => s.serve kind i fun _ => .failed
  | .callback i n written, s => s.serve kind i (·.event n written)

def commands : List (List UInt8) :=
  [['B', 'S', 'E', 'T'], ['B', 'G', 'E', 'T'], ['B', 'D', 'E', 'L'], ['B', 'M', 'O', 'D'],
    ['R', 'S', 'E', 'T'], ['R', 'G', 'E', 'T'], ['R', 'D', 'E', 'L'], ['R', 'M', 'O', 'D']].map
    (·.map Char.toUInt8)

/-- The search loop of `kvs_proto_parser`: `cmd` after it. -/
def kvsCommand (token : List UInt8) : ℕ := commands.findIdx (· = token)

end Server

end LearnSpdk
