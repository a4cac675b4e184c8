import LearnSpdk.Lib.Tally
import LearnSpdk.Proofs.ServerAccept
import LearnSpdk.Proofs.ServerRequests

/-! What the clients get back over whole runs of the system, whatever the segments and the
order of the events are. One event concerns one client, so that it is enough to say what a
client can go through. -/

namespace LearnSpdk

open Lib

namespace Server

variable {kind : Kind} {happening : Happening} {s s' : System} {c c' : Session} {i n : ℕ}

def process : Kind → Chunk → Option (List UInt8)
  | .echo => fun chunk => some chunk.bytes
  | .kv => kvProcess

theorem callback_eq (kind : Kind) : callback kind = serverCallback (process kind) := by
  cases kind <;> rfl

/-- Everything that can happen to the client `i`. -/
inductive Move (kind : Kind) (i : ℕ) : Happening → Session → Session → Prop
  | send (n : ℕ) (c : Session) : Move kind i (.send i n) c (c.send n)
  | fail (c : Session) : Move kind i (.fail i) c c.fail
  | recv (n : ℕ) (c : Session) (closed : Bool) : Move kind i (.recv i n) c (c.recv n closed)
  | chunk (n : ℕ) (written : Option ℕ) (c : Session) (chunk : Chunk) (buf : List UInt8)
      (hchunk : chunk.bytes = c.segment n) (hbuf : process kind chunk = some buf) :
      Move kind i (.callback i n written) c
        { c with
          received := c.received ++ chunk.bytes
          accepted := c.accepted ++ buf.take (written.elim 0 (min · chunk.bytes.length)) }

/-- What an event does to the clients and to the counters. -/
inductive Advance (kind : Kind) (happening : Happening) (s s' : System) : Prop
  | joined (message : List UInt8) (hmessage : happening = .connect message)
      (hs : s'.sessions = s.sessions ++ [.fresh message])
      (hin : s'.bytesIn = s.bytesIn) (hout : s'.bytesOut = s.bytesOut)
  | moved (i : ℕ) (c c' : Session) (hc : s.sessions[i]? = some c) (hs : s'.sessions = s.sessions.set i c')
      (hmove : Move kind i happening c c')
      (hin : s'.bytesIn + c.received.length = s.bytesIn + c'.received.length)
      (hout : s'.bytesOut + c.accepted.length = s.bytesOut + c'.accepted.length)
  | kept (hs : s'.sessions = s.sessions) (hin : s'.bytesIn = s.bytesIn) (hout : s'.bytesOut = s.bytesOut)

theorem modify_advance {f : Session → Session} (hmove : ∀ c, Move kind i happening c (f c))
    (hreceived : ∀ c, (f c).received = c.received) (haccepted : ∀ c, (f c).accepted = c.accepted) :
    Advance kind happening s (s.modify i f) := by
  cases hc : s.sessions[i]? with
  | none =>
    refine Advance.kept ?_ rfl rfl
    rw [System.modify, List.modify_eq_set_getElem?, hc]
    rfl
  | some c =>
    refine Advance.moved i c (f c) hc ?_ (hmove c) (by rw [hreceived]; rfl) (by rw [haccepted]; rfl)
    rw [System.modify, List.modify_eq_set_getElem?, hc]
    rfl

theorem Session.send_received (c : Session) : (c.send n).received = c.received := by
  unfold Session.send
  split <;> rfl

theorem Session.send_accepted (c : Session) : (c.send n).accepted = c.accepted := by
  unfold Session.send
  split <;> rfl

theorem Session.fail_eq (c : Session) : ∃ stage, c.fail = { c with stage } := by
  unfold Session.fail
  split <;> exact ⟨_, rfl⟩

theorem Session.recv_eq (c : Session) (closed : Bool) : ∃ stage, c.recv n closed = { c with stage } := by
  unfold Session.recv
  repeat' split
  all_goals exact ⟨_, rfl⟩

def System.connection (s : System) (c : Session) : Connection :=
  ⟨c.received, c.accepted, s.bytesIn, s.bytesOut, true⟩

theorem serve_cases {event : Session → Event} (h : s.serve kind i event = some s') :
    s' = s ∨ ∃ sock c conn, s.sessions[i]? = some c ∧
      serverCallback (process kind) (event c) (s.connection c) = some conn ∧ s' = s.after i sock c conn := by
  unfold System.serve at h
  split at h
  · next sock c hsock hc =>
    split at h
    · obtain ⟨conn, hconn, hserved⟩ := Option.bind_eq_some_iff.1 h
      rw [callback_eq] at hconn
      split at hserved
      · exact .inr ⟨sock, c, conn, hc, hconn, (Option.some.inj hserved).symm⟩
      · cases hserved
    · exact .inl (Option.some.inj h).symm
  · exact .inl (Option.some.inj h).symm

/-- A callback that finds no bytes changes no stream and no counter. -/
theorem after_kept {sock : Client} {isOpen : Bool} (hc : s.sessions[i]? = some c) :
    Advance kind happening s (s.after i sock c { s.connection c with isOpen }) := by
  obtain ⟨hi, rfl⟩ := List.getElem?_eq_some_iff.1 hc
  exact .kept (List.set_getElem_self hi) rfl rfl

theorem length_process {chunk : Chunk} {buf : List UInt8} (h : process kind chunk = some buf) :
    buf.length = chunk.bytes.length := by
  cases kind with
  | echo => rw [← Option.some.inj h]
  | kv =>
    rw [process, kvProcess_eq] at h
    split at h
    · rw [← Option.some.inj h, length_cut]
    · cases h

theorem after_advance {sock : Client} {conn : Connection} {written : Option ℕ} (hc : s.sessions[i]? = some c)
    (hconn : serverCallback (process kind) (c.event n written) (s.connection c) = some conn) :
    Advance kind (.callback i n written) s (s.after i sock c conn) := by
  unfold Session.event at hconn
  split at hconn
  · split at hconn
    · obtain rfl := Option.some.inj hconn
      exact after_kept hc
    · obtain rfl := Option.some.inj hconn
      exact after_kept hc
  · next hne =>
    obtain ⟨buf, hbuf, hconn⟩ := Option.bind_eq_some_iff.1 hconn
    obtain rfl := Option.some.inj hconn
    have hlen := length_process hbuf
    have hwritten : (written.map fun w => (⟨min w (c.segment n).length,
        Nat.lt_succ_of_le (min_le_right _ _)⟩ : Fin ((c.segment n).length + 1))).elim 0 Fin.val =
          written.elim 0 (min · (c.segment n).length) := by cases written <;> rfl
    have hle : written.elim 0 (min · (c.segment n).length) ≤ (c.segment n).length := by
      cases written <;> simp
    simp only [hwritten]
    apply Advance.moved i c _ hc rfl (Move.chunk n written c _ buf rfl hbuf)
    · simp only [System.after, System.connection, List.length_append]
      push_cast
      omega
    · simp only [System.after, System.connection, List.length_append, List.length_take, hlen, min_eq_left hle]
      push_cast
      omega

theorem step_advance (h : step kind happening s = some s') : Advance kind happening s s' := by
  cases happening with
  | connect message =>
    obtain rfl := Option.some.inj h
    exact .joined message rfl rfl rfl rfl
  | send i n =>
    obtain rfl := Option.some.inj h
    exact modify_advance (Move.send n) Session.send_received Session.send_accepted
  | fail i =>
    obtain rfl := Option.some.inj h
    apply modify_advance Move.fail <;>
      · intro c
        obtain ⟨stage, hstage⟩ := c.fail_eq
        rw [hstage]
  | recv i n =>
    obtain rfl := Option.some.inj h
    apply modify_advance fun c => Move.recv n c _
    all_goals
      intro c
      obtain ⟨stage, hstage⟩ := c.recv_eq _
      rw [hstage]
  | accept peers =>
    obtain ⟨r, -, hr⟩ := Option.bind_eq_some_iff.1 h
    obtain rfl := Option.some.inj hr
    exact .kept rfl rfl rfl
  | recvFailed i =>
    obtain rfl | ⟨sock, c, conn, hc, hconn, rfl⟩ := serve_cases h
    · exact .kept rfl rfl rfl
    · obtain rfl := Option.some.inj hconn
      exact after_kept hc
  | callback i n written =>
    obtain rfl | ⟨sock, c, conn, hc, hconn, rfl⟩ := serve_cases h
    · exact .kept rfl rfl rfl
    · exact after_advance hc hconn

/-- A byte that came back for `b`: the KV server may send a NUL for a space. -/
def Returned (kind : Kind) (b b' : UInt8) : Prop := b' = b ∨ kind = .kv ∧ b = space ∧ b' = 0

theorem cut_returned (inWord : Bool) (msg : List UInt8) : List.Forall₂ (Returned .kv) msg (cut inWord msg) := by
  induction msg generalizing inWord with
  | nil => exact .nil
  | cons b rest ih =>
    rw [cut]
    split
    · exact List.forall₂_same.2 fun _ _ => .inl rfl
    · split
      · next hspace =>
        refine .cons ?_ (ih false)
        cases inWord with
        | false => exact .inl hspace.symm
        | true => exact .inr ⟨rfl, hspace, rfl⟩
      · exact .cons (.inl rfl) (ih true)

theorem process_returned {chunk : Chunk} {buf : List UInt8} (h : process kind chunk = some buf) :
    List.Forall₂ (Returned kind) chunk.bytes buf := by
  cases kind with
  | echo =>
    obtain rfl := Option.some.inj h
    exact List.forall₂_same.2 fun _ _ => .inl rfl
  | kv =>
    rw [process, kvProcess_eq] at h
    split at h
    · obtain rfl := Option.some.inj h
      exact cut_returned _ _
    · cases h

/-- The streams of a client: the server received a beginning of what was sent, what the socket
took came from that, and the client got a beginning of what the socket took. -/
structure Session.Consistent (kind : Kind) (c : Session) : Prop where
  unsent : c.stage = .connected → c.sent = 0
  received : c.received <+: c.message.take c.sent
  accepted : ∃ part, part.Sublist c.received ∧ List.Forall₂ (Returned kind) part c.accepted
  reply : ∀ reply, c.stage = .done (.echo reply) → reply <+: c.accepted

theorem Session.consistent_fresh (message : List UInt8) : (Session.fresh message).Consistent kind :=
  ⟨fun _ => rfl, List.nil_prefix, ⟨[], List.Sublist.refl _, .nil⟩, fun _ h => by cases h⟩

theorem Session.received_segment (h : c.received <+: c.message.take c.sent) :
    c.received ++ c.segment n <+: c.message.take c.sent := by
  obtain ⟨rest, hrest⟩ := h
  have hflight : c.inFlight = rest := by rw [Session.inFlight, ← hrest, List.drop_left]
  rw [← hrest, Session.segment, hflight]
  exact (List.prefix_append_right_inj _).2 (List.take_prefix _ _)

theorem Session.Consistent.send (h : c.Consistent kind) (n : ℕ) : (c.send n).Consistent kind := by
  unfold Session.send
  split
  · next hstage =>
    have hnil : c.received = [] := by
      have := h.received
      rwa [h.unsent hstage, List.take_zero, List.prefix_nil] at this
    refine ⟨by simp, ?_, h.accepted, by simp⟩
    rw [hnil]
    exact List.nil_prefix
  · exact h

theorem Session.Consistent.recv (h : c.Consistent kind) (n : ℕ) (closed : Bool) :
    (c.recv n closed).Consistent kind := by
  unfold Session.recv
  split
  · split
    · split
      · exact ⟨by simp, h.received, h.accepted, by simp⟩
      · exact h
    · refine ⟨by simp, h.received, h.accepted, ?_⟩
      intro reply hreply
      obtain rfl : c.accepted.take _ = reply := by simpa using hreply
      exact List.take_prefix _ _
  · exact h

theorem Session.Consistent.fail (h : c.Consistent kind) : c.fail.Consistent kind := by
  unfold Session.fail
  split
  · exact ⟨by simp, h.received, h.accepted, by simp⟩
  · exact ⟨by simp, h.received, h.accepted, by simp⟩
  · exact h

theorem Move.consistent (hmove : Move kind i happening c c') (h : c.Consistent kind) : c'.Consistent kind := by
  cases hmove with
  | send n => exact h.send n
  | fail => exact h.fail
  | recv n c closed => exact h.recv n closed
  | chunk n written c chunk buf hchunk hbuf =>
    obtain ⟨part, hpart, hall⟩ := h.accepted
    refine ⟨h.unsent, ?_, ⟨part ++ chunk.bytes.take (written.elim 0 (min · chunk.bytes.length)), ?_, ?_⟩, ?_⟩
    · rw [hchunk]
      exact c.received_segment h.received
    · exact hpart.append (List.take_sublist _ _)
    · exact List.rel_append hall (List.forall₂_take _ (process_returned hbuf))
    · intro reply hreply
      exact (h.reply reply hreply).trans (List.prefix_append _ _)

theorem Advance.forall {P : Session → Prop} (hadvance : Advance kind happening s s')
    (hfresh : ∀ message, P (.fresh message))
    (hmove : ∀ i c c', s.sessions[i]? = some c → Move kind i happening c c' → P c → P c')
    (h : ∀ c ∈ s.sessions, P c) : ∀ c ∈ s'.sessions, P c := by
  cases hadvance with
  | joined message _ hs =>
    intro c hc
    rw [hs] at hc
    rcases List.mem_append.1 hc with hc | hc
    · exact h c hc
    · rw [List.mem_singleton.1 hc]
      exact hfresh message
  | moved i c c' hc hs hm =>
    intro d hd
    rw [hs] at hd
    rcases List.mem_or_eq_of_mem_set hd with hd | rfl
    · exact h d hd
    · exact hmove i c d hc hm (h c (List.mem_of_getElem? hc))
  | kept hs =>
    rw [hs]
    exact h

theorem run_consistent {happenings : List Happening} (h : attempt (step kind) .initial happenings = some s) :
    ∀ c ∈ s.sessions, c.Consistent kind := by
  refine attempt_induct (I := fun s => ∀ c ∈ s.sessions, c.Consistent kind) ?_ ?_ h
  · intro c hc
    cases hc
  · intro s happening s' hI hstep
    exact (step_advance hstep).forall Session.consistent_fresh (fun _ _ _ _ hmove => hmove.consistent) hI

/-- The counters of the server are sums over its clients. -/
structure System.Counted (s : System) : Prop where
  bytesIn : s.bytesIn = (s.sessions.map (·.received.length)).sum
  bytesOut : s.bytesOut = (s.sessions.map (·.accepted.length)).sum

theorem Advance.counted (hadvance : Advance kind happening s s') (h : s.Counted) : s'.Counted := by
  cases hadvance with
  | joined message _ hs hin hout =>
    refine ⟨?_, ?_⟩
    · rw [hin, hs, h.bytesIn]
      simp [Session.fresh]
    · rw [hout, hs, h.bytesOut]
      simp [Session.fresh]
  | moved i c c' hc hs _ hin hout =>
    have hreceived := sum_map_set (fun c : Session => c.received.length) hc c'
    have haccepted := sum_map_set (fun c : Session => c.accepted.length) hc c'
    have hbytesIn := h.bytesIn
    have hbytesOut := h.bytesOut
    refine ⟨?_, ?_⟩
    · rw [hs]
      omega
    · rw [hs]
      omega
  | kept hs hin hout => exact ⟨by rw [hin, hs, h.bytesIn], by rw [hout, hs, h.bytesOut]⟩

theorem run_counted {happenings : List Happening} (h : attempt (step kind) .initial happenings = some s) :
    s.Counted :=
  attempt_induct ⟨rfl, rfl⟩ (fun _ _ _ hI hstep => (step_advance hstep).counted hI) h

def FullWrite (s : System) : Happening → Prop
  | .callback i n written => ∀ c, s.sessions[i]? = some c → ∃ w, written = some w ∧ (c.segment n).length ≤ w
  | _ => True

/-- With full writes a client gets an answer for every byte that the server received of it. -/
theorem Move.full (hmove : Move kind i happening c c') (hc : s.sessions[i]? = some c)
    (hfull : FullWrite s happening) (h : List.Forall₂ (Returned kind) c.received c.accepted) :
    List.Forall₂ (Returned kind) c'.received c'.accepted := by
  cases hmove with
  | send n =>
    rw [c.send_received, c.send_accepted]
    exact h
  | fail =>
    obtain ⟨stage, hstage⟩ := c.fail_eq
    rw [hstage]
    exact h
  | recv n c closed =>
    obtain ⟨stage, hstage⟩ := c.recv_eq closed
    rw [hstage]
    exact h
  | chunk n written c chunk buf hchunk hbuf =>
    obtain ⟨w, rfl, hw⟩ := hfull c hc
    rw [← hchunk] at hw
    apply List.rel_append h
    rw [Option.elim_some, min_eq_right hw, List.take_of_length_le (length_process hbuf).le]
    exact process_returned hbuf

theorem run_full {happenings : List Happening} (hfull : Meets (step kind) .initial FullWrite happenings)
    (h : attempt (step kind) .initial happenings = some s) :
    ∀ c ∈ s.sessions, List.Forall₂ (Returned kind) c.received c.accepted := by
  refine hfull.induct (I := fun s => ∀ c ∈ s.sessions, List.Forall₂ (Returned kind) c.received c.accepted) ?_ ?_ h
  · intro c hc
    cases hc
  · intro s happening s' hI hstep hC
    exact (step_advance hstep).forall (fun _ => .nil) (fun _ _ _ hc hmove => hmove.full hc hC) hI

theorem forall₂_take_reply {R : UInt8 → UInt8 → Prop} {l l' reply : List UInt8} (h : List.Forall₂ R l l')
    (hreply : reply <+: l') : List.Forall₂ R (l.take reply.length) reply := by
  obtain ⟨rest, rfl⟩ := hreply
  have htake := List.forall₂_take reply.length h
  rwa [List.take_left] at htake

/-- In every run of a server and its clients each reply comes from the message of the client
that gets it: byte for byte, in order, with a NUL for some spaces if it is the KV server. A
short write may leave bytes out, and without one the reply is a beginning of the message. The
counters are the sums over all clients. -/
theorem replies_from_own_message {happenings : List Happening}
    (h : attempt (step kind) .initial happenings = some s) :
    (∀ c ∈ s.sessions, ∀ reply, c.stage = .done (.echo reply) →
      ∃ part, part.Sublist c.message ∧ List.Forall₂ (Returned kind) part reply) ∧
    (Meets (step kind) .initial FullWrite happenings →
      ∀ c ∈ s.sessions, ∀ reply, c.stage = .done (.echo reply) →
        List.Forall₂ (Returned kind) (c.message.take reply.length) reply) ∧
    s.bytesIn = (s.sessions.map (·.received.length)).sum ∧
    s.bytesOut = (s.sessions.map (·.accepted.length)).sum := by
  have hconsistent := run_consistent h
  refine ⟨?_, ?_, (run_counted h).bytesIn, (run_counted h).bytesOut⟩
  · intro c hc reply hreply
    obtain ⟨part, hpart, hall⟩ := (hconsistent c hc).accepted
    have hreceived := ((hconsistent c hc).received.trans (List.take_prefix _ _)).sublist
    exact ⟨part.take reply.length, ((List.take_sublist _ _).trans hpart).trans hreceived,
      forall₂_take_reply hall ((hconsistent c hc).reply reply hreply)⟩
  · intro hfull c hc reply hreply
    have hall := run_full hfull h c hc
    have hbegin := (hconsistent c hc).reply reply hreply
    obtain ⟨rest, hrest⟩ := (hconsistent c hc).received.trans (List.take_prefix _ _)
    have hle : reply.length ≤ c.received.length := hbegin.length_le.trans hall.length_eq.ge
    rw [← hrest, List.take_append_of_le_length hle]
    exact forall₂_take_reply hall hbegin

/-- Two clients whose messages arrive in turn, the second one in two segments. -/
def turns : List Happening :=
  [.connect [97], .connect [98, 99], .send 1 2, .accept [⟨0, 0⟩, ⟨0, 0⟩], .callback 1 0 (some 1), .send 0 1,
    .callback 0 9 (some 1), .callback 1 9 (some 1), .recv 1 9, .recv 0 9]

theorem replies_of_two_clients :
    ∃ s, attempt (step .echo) .initial turns = some s ∧
      s.sessions.map Session.stage = [.done (.echo [97]), .done (.echo [98, 99])] ∧
      ∀ c ∈ s.sessions, ∀ reply, c.stage = .done (.echo reply) →
        ∃ part, part.Sublist c.message ∧ List.Forall₂ (Returned .echo) part reply :=
  ⟨_, rfl, rfl, (replies_from_own_message (show attempt (step .echo) .initial turns = some _ from rfl)).1⟩

/-- A message that the server has room for however it is cut into segments. -/
def Admitted (kind : Kind) (message : List UInt8) : Prop :=
  kind = .kv → message.length < bufferSize ∧ 0 ∉ message ∧ (words message).length ≤ maxTokens

theorem process_segment (hadmitted : Admitted kind c.message) (chunk : Chunk)
    (hchunk : chunk.bytes = c.segment n) :
    ∃ buf, process kind chunk = some buf := by
  cases kind with
  | echo => exact ⟨_, rfl⟩
  | kv =>
    obtain ⟨hlt, hnul, hle⟩ := hadmitted rfl
    have hsegment : c.segment n = (c.message.drop c.received.length).take
        (min (min (n + 1) bufferSize) (c.sent - c.received.length)) := by
      rw [Session.segment, Session.inFlight, List.drop_take, List.take_take]
    have hlength : chunk.bytes.length ≤ c.message.length := by
      rw [hchunk, hsegment, List.length_take, List.length_drop]
      omega
    have hwords := length_words_segment hnul c.received.length
      (min (min (n + 1) bufferSize) (c.sent - c.received.length))
    rw [← hsegment, ← hchunk] at hwords
    exact ⟨_, by rw [process, kvProcess_eq, if_pos ⟨fun h => absurd h (by omega), hwords.trans hle⟩]⟩

/-- What an event asks of the system: the message of a new client is admitted, and no poll meets
a client whose address it cannot get. -/
def Tame (kind : Kind) : Happening → Prop
  | .connect message => Admitted kind message
  | .accept peers => AddressesKnown peers
  | _ => True

def volume : Happening → ℕ
  | .connect message => message.length
  | _ => 0

def System.volume (s : System) : ℕ := (s.sessions.map (·.message.length)).sum

/-- A socket that was added to the group or closed, and neither of it twice. -/
def Client.Once (c : Client) : Prop := c.added ≤ 1 ∧ c.closed ≤ 1 ∧ 1 ≤ c.added + c.closed

/-- The server listens, no socket was closed twice, and there is room for every message. -/
structure System.Safe (kind : Kind) (s : System) : Prop where
  listening : s.sockets.listening = true
  once : ∀ sock ∈ s.sockets.clients, sock.Once
  admitted : ∀ c ∈ s.sessions, Admitted kind c.message
  consistent : ∀ c ∈ s.sessions, c.Consistent kind
  counted : s.Counted

theorem AddressesKnown.take {peers : List Peer} (h : AddressesKnown peers) (k : ℕ) :
    AddressesKnown (peers.take k) := by
  induction peers generalizing k with
  | nil => simpa using h
  | cons peer peers ih =>
    cases k with
    | zero => trivial
    | succ k => exact ⟨h.1, fun hadd => ih (h.2 hadd) k⟩

theorem acceptLoop_listening {peers : List Peer} (count : ℕ) {sockets : Sockets} (hknown : AddressesKnown peers)
    (hlistening : sockets.listening = true) (honce : ∀ sock ∈ sockets.clients, sock.Once) :
    ∃ r, acceptLoop peers count sockets = some r ∧ r.2.listening = true ∧ ∀ sock ∈ r.2.clients, sock.Once := by
  induction peers generalizing count sockets with
  | nil => exact ⟨_, by rw [acceptLoop, if_pos hlistening], hlistening, honce⟩
  | cons peer peers ih =>
    have hpush : ∀ c : Client, c.Once → ∀ sock ∈ (sockets.push c).clients, sock.Once := by
      intro c hc sock hsock
      rcases List.mem_append.1 hsock with hsock | hsock
      · exact honce sock hsock
      · rwa [List.mem_singleton.1 hsock]
    rw [acceptLoop, if_pos hlistening, if_neg (not_lt.2 hknown.1)]
    by_cases hadd : peer.addSock < 0
    · rw [if_pos hadd]
      exact ⟨_, rfl, hlistening, hpush _ ⟨by decide, by decide, by decide⟩⟩
    · rw [if_neg hadd]
      exact ih _ (hknown.2 (not_lt.1 hadd)) hlistening (hpush _ ⟨by decide, by decide, by decide⟩)

theorem Session.Consistent.length_le (h : c.Consistent kind) :
    c.received.length ≤ c.message.length ∧ c.accepted.length ≤ c.message.length := by
  obtain ⟨part, hpart, hall⟩ := h.accepted
  have hreceived := (h.received.trans (List.take_prefix _ _)).length_le
  exact ⟨hreceived, hall.length_eq ▸ hpart.length_le.trans hreceived⟩

theorem System.Safe.bytes_le (h : s.Safe kind) : s.bytesIn ≤ s.volume ∧ s.bytesOut ≤ s.volume := by
  rw [h.counted.bytesIn, h.counted.bytesOut, Int.ofNat_le, Int.ofNat_le]
  exact ⟨List.sum_le_sum fun c hc => (h.consistent c hc).length_le.1,
    List.sum_le_sum fun c hc => (h.consistent c hc).length_le.2⟩

theorem Advance.messages (hadvance : Advance kind happening s s') :
    s'.sessions.map Session.message = s.sessions.map Session.message ∨
      ∃ message, happening = .connect message ∧
        s'.sessions.map Session.message = s.sessions.map Session.message ++ [message] := by
  cases hadvance with
  | joined message hmessage hs =>
    refine .inr ⟨message, hmessage, ?_⟩
    rw [hs, List.map_append]
    rfl
  | moved i c c' hc hs hmove =>
    have hsame : c'.message = c.message := by
      cases hmove with
      | send n =>
        unfold Session.send
        split <;> rfl
      | fail =>
        obtain ⟨stage, hstage⟩ := c.fail_eq
        rw [hstage]
      | recv n c closed =>
        obtain ⟨stage, hstage⟩ := c.recv_eq closed
        rw [hstage]
      | chunk => rfl
    obtain ⟨hi, rfl⟩ := List.getElem?_eq_some_iff.1 hc
    refine .inl ?_
    rw [hs, List.map_set, hsame, ← List.getElem_map Session.message]
    · exact List.set_getElem_self _
    · rwa [List.length_map]
  | kept hs => exact .inl (by rw [hs])

theorem volume_eq (s : System) : s.volume = ((s.sessions.map Session.message).map List.length).sum := by
  rw [System.volume, List.map_map]
  rfl

/-- What an event leaves of the safety of the system besides the sockets. -/
theorem Advance.safe (hadvance : Advance kind happening s s') (h : s.Safe kind) (htame : Tame kind happening)
    (hlistening : s'.sockets.listening = true) (honce : ∀ sock ∈ s'.sockets.clients, sock.Once) :
    s'.Safe kind ∧ s'.volume ≤ s.volume + volume happening := by
  have hadmitted : ∀ message ∈ s.sessions.map Session.message, Admitted kind message := by
    intro message hmem
    obtain ⟨c, hc, rfl⟩ := List.mem_map.1 hmem
    exact h.admitted c hc
  have hconsistent : ∀ c ∈ s'.sessions, c.Consistent kind :=
    hadvance.forall Session.consistent_fresh (fun _ _ _ _ hmove => hmove.consistent) h.consistent
  have hcounted := hadvance.counted h.counted
  rw [volume_eq, volume_eq]
  obtain hsame | ⟨message, rfl, hnew⟩ := hadvance.messages
  · rw [hsame]
    refine ⟨⟨hlistening, honce, fun c hc => ?_, hconsistent, hcounted⟩, Nat.le_add_right _ _⟩
    exact hadmitted c.message (hsame ▸ List.mem_map_of_mem hc)
  · rw [hnew]
    refine ⟨⟨hlistening, honce, fun c hc => ?_, hconsistent, hcounted⟩, by simp [volume]⟩
    have hmem : c.message ∈ s.sessions.map Session.message ++ [message] := hnew ▸ List.mem_map_of_mem hc
    rcases List.mem_append.1 hmem with hmem | hmem
    · exact hadmitted c.message hmem
    · rw [List.mem_singleton.1 hmem]
      exact htame

theorem after_once {sock : Client} {conn : Connection} (hsock : sock.inGroup = true)
    (honce : ∀ sock ∈ s.sockets.clients, sock.Once) :
    ∀ d ∈ (s.after i sock c conn).sockets.clients, d.Once := by
  obtain ⟨hadded, hclosed⟩ : sock.added = 1 ∧ sock.closed = 0 := by simpa [Client.inGroup] using hsock
  simp only [System.after]
  split
  · exact honce
  · intro d hd
    rcases List.mem_or_eq_of_mem_set hd with hd | rfl
    · exact honce d hd
    · simp [Client.Once, Client.close, hadded, hclosed]

theorem after_listening {sock : Client} {conn : Connection} :
    (s.after i sock c conn).sockets.listening = s.sockets.listening := by
  simp only [System.after]
  split <;> rfl

theorem serve_safe {event : Session → Event} (h : s.Safe kind) (htame : Tame kind happening)
    (hvolume : s.volume + volume happening ≤ intMax)
    (hconn : ∀ c ∈ s.sessions, ∃ conn, serverCallback (process kind) (event c) (s.connection c) = some conn)
    (hadvance : ∀ sock c conn, s.sessions[i]? = some c →
      serverCallback (process kind) (event c) (s.connection c) = some conn →
        Advance kind happening s (s.after i sock c conn)) :
    ∃ s', s.serve kind i event = some s' ∧ s'.Safe kind ∧ s'.volume ≤ s.volume + volume happening := by
  have hsame : ∃ s', some s = some s' ∧ s'.Safe kind ∧ s'.volume ≤ s.volume + volume happening :=
    ⟨s, rfl, h, Nat.le_add_right _ _⟩
  unfold System.serve
  split
  · next sock c hsock hc =>
    split
    · next hgroup =>
      obtain ⟨conn, hconn⟩ := hconn c (List.mem_of_getElem? hc)
      obtain ⟨hsafe, hle⟩ := (hadvance sock c conn hc hconn).safe h htame
        (after_listening.trans h.listening) (after_once hgroup h.once)
      -- the counters are sums over the clients, which have no more than `intMax` bytes to send
      have hbounds : conn.bytesIn ≤ intMax ∧ conn.bytesOut ≤ intMax := by
        have hin : conn.bytesIn ≤ (s.after i sock c conn).volume := hsafe.bytes_le.1
        have hout : conn.bytesOut ≤ (s.after i sock c conn).volume := hsafe.bytes_le.2
        omega
      refine ⟨_, ?_, hsafe, hle⟩
      rw [callback_eq]
      exact Option.bind_eq_some_iff.2 ⟨conn, hconn, if_pos hbounds⟩
    · exact hsame
  · exact hsame

theorem step_safe (h : s.Safe kind) (htame : Tame kind happening)
    (hvolume : s.volume + volume happening ≤ intMax) :
    ∃ s', step kind happening s = some s' ∧ s'.Safe kind ∧ s'.volume ≤ s.volume + volume happening := by
  -- an event that has a result and leaves the sockets as they are
  have hkept : ∀ s', step kind happening s = some s' → s'.sockets = s.sockets →
      ∃ s', step kind happening s = some s' ∧ s'.Safe kind ∧ s'.volume ≤ s.volume + volume happening := by
    intro s' hs' hsockets
    refine ⟨s', hs', (step_advance hs').safe h htame ?_ ?_⟩
    · rw [hsockets]
      exact h.listening
    · rw [hsockets]
      exact h.once
  cases happening with
  | connect message => exact hkept _ rfl rfl
  | send i n => exact hkept _ rfl rfl
  | fail i => exact hkept _ rfl rfl
  | recv i n => exact hkept _ rfl rfl
  | accept peers =>
    obtain ⟨r, hr, hlistening, honce⟩ :=
      acceptLoop_listening 0 (htame.take (s.sessions.length - s.sockets.clients.length)) h.listening h.once
    have hstep : step kind (.accept peers) s = some { s with sockets := r.2 } := by
      cases kind <;> exact Option.bind_eq_some_iff.2 ⟨r, hr, rfl⟩
    exact ⟨_, hstep, (step_advance hstep).safe h htame hlistening honce⟩
  | recvFailed i =>
    apply serve_safe h htame hvolume fun c _ => ⟨_, rfl⟩
    intro sock c conn hc hconn
    obtain rfl := Option.some.inj hconn
    exact after_kept hc
  | callback i n written =>
    apply serve_safe h htame hvolume _ fun sock c conn hc hconn => after_advance hc hconn
    intro c hc
    unfold Session.event
    split
    · split <;> exact ⟨_, rfl⟩
    · obtain ⟨buf, hbuf⟩ := process_segment (h.admitted c hc) ⟨c.segment n, _, _⟩ rfl
      exact ⟨_, Option.bind_eq_some_iff.2 ⟨buf, hbuf, rfl⟩⟩

theorem attempt_safe {happenings : List Happening} (htame : ∀ happening ∈ happenings, Tame kind happening)
    (hvolume : (happenings.map volume).sum ≤ intMax) :
    ∃ s, attempt (step kind) .initial happenings = some s ∧ s.Safe kind ∧
      s.volume ≤ (happenings.map volume).sum := by
  induction happenings using List.reverseRecOn with
  | nil => exact ⟨_, rfl, ⟨rfl, by simp [System.initial, Sockets.initial], by simp [System.initial],
      by simp [System.initial], ⟨rfl, rfl⟩⟩, le_rfl⟩
  | append_singleton happenings happening ih =>
    rw [List.map_append, List.sum_append, List.map_singleton, List.sum_singleton] at hvolume ⊢
    obtain ⟨s, hs, hsafe, hle⟩ := ih (fun a ha => htame a (List.mem_append_left _ ha)) (by omega)
    obtain ⟨s', hs', hsafe', hle'⟩ := step_safe hsafe (htame happening (by simp)) (by omega)
    exact ⟨s', by rw [attempt_snoc, hs, Option.bind_some, hs'], hsafe', by omega⟩

/-- A server whose clients send no more than `INT_MAX` bytes in all never leaves its buffer, its
token table or the range of its counters, and goes on listening, whatever the order and the
segments are: for the KV server if no message is longer than its buffer or has too many words,
and for both if every poll gets the addresses of its clients. It closes no socket twice. -/
theorem run_safe {happenings : List Happening} (htame : ∀ happening ∈ happenings, Tame kind happening)
    (hvolume : (happenings.map volume).sum ≤ intMax) :
    ∃ s, attempt (step kind) .initial happenings = some s ∧ s.sockets.listening = true ∧
      ∀ sock ∈ s.sockets.clients, sock.Once := by
  obtain ⟨s, hs, hsafe, -⟩ := attempt_safe htame hvolume
  exact ⟨s, hs, hsafe.listening, hsafe.once⟩

/-- The request `BGET k` arrives in two pieces. -/
theorem run_safe_in_pieces :
    ∃ s, attempt (step .kv) .initial [.connect [66, 71, 69, 84, 32, 107], .accept [⟨0, 0⟩], .send 0 6,
      .callback 0 2 (some 1), .callback 0 9 none] = some s ∧ s.sockets.listening = true ∧
        ∀ sock ∈ s.sockets.clients, sock.Once := by
  apply run_safe
  · simp only [List.forall_mem_cons]
    exact ⟨fun _ => ⟨by decide, by decide, by decide⟩, ⟨by decide, fun _ => trivial⟩, trivial, trivial, trivial,
      by simp⟩
  · decide

/-- The callback finds all that the client sent. -/
def Unsplit (s : System) : Happening → Prop
  | .callback i n _ => ∀ c, s.sessions[i]? = some c → c.segment n = c.inFlight
  | _ => True

/-- The server has received nothing from the client, or all of it at once. -/
def Session.Whole (c : Session) : Prop :=
  c.received = [] ∧ c.accepted = [] ∨
    c.stage ≠ .connected ∧ c.received = c.message.take c.sent ∧ c.accepted <+: cut false c.message

theorem Move.whole (hmove : Move .kv i happening c c') (hc : s.sessions[i]? = some c)
    (hunsplit : Unsplit s happening) (hconsistent : c.Consistent .kv) (h : c.Whole) : c'.Whole := by
  cases hmove with
  | send n =>
    unfold Session.send
    split
    · next hstage => exact .inl (h.resolve_right fun h => h.1 hstage)
    · exact h
  | fail =>
    unfold Session.fail
    split
    · exact h.imp_right fun h => ⟨by simp, h.2⟩
    · exact h.imp_right fun h => ⟨by simp, h.2⟩
    · exact h
  | recv n c closed =>
    unfold Session.recv
    repeat' split
    all_goals exact h.imp_right fun h => ⟨by simp_all, h.2⟩
  | chunk n written c chunk buf hchunk hbuf =>
    have hbytes : chunk.bytes = (c.message.take c.sent).drop c.received.length := by
      rw [hchunk, hunsplit c hc]
      rfl
    obtain ⟨hreceived, haccepted⟩ | ⟨-, hreceived, -⟩ := h
    · rw [hreceived, List.length_nil, List.drop_zero] at hbytes
      refine .inr ⟨?_, ?_, ?_⟩
      · intro hstage
        apply chunk.bytes_ne_nil
        rw [hbytes, hconsistent.unsent hstage, List.take_zero]
      · rw [hreceived, List.nil_append, hbytes]
      · rw [process, kvProcess_eq] at hbuf
        split at hbuf
        · obtain rfl := Option.some.inj hbuf
          rw [haccepted, List.nil_append, hbytes, cut_take]
          exact (List.take_prefix _ _).trans (List.take_prefix _ _)
        · cases hbuf
    · -- nothing is left to receive
      apply absurd _ chunk.bytes_ne_nil
      rw [hbytes, hreceived, List.drop_length]

/-- If the KV server finds each message whole, then every reply is a beginning of the message
with a NUL behind each word, and a client that sent a request prints no more than the command. -/
theorem unsplit_replies {happenings : List Happening} (hunsplit : Meets (step .kv) .initial Unsplit happenings)
    (h : attempt (step .kv) .initial happenings = some s) :
    ∀ c ∈ s.sessions, ∀ reply, c.stage = .done (.echo reply) →
      reply <+: cut false c.message ∧
        ∀ r : Request, c.message = r.message → printed reply <+: r.command.bytes := by
  have hwhole : ∀ c ∈ s.sessions, c.Consistent .kv ∧ c.Whole := by
    refine hunsplit.induct (I := fun s => ∀ c ∈ s.sessions, c.Consistent .kv ∧ c.Whole) ?_ ?_ h
    · intro c hc
      cases hc
    · intro s happening s' hI hstep hC
      refine (step_advance hstep).forall ?_ ?_ hI
      · exact fun message => ⟨Session.consistent_fresh message, .inl ⟨rfl, rfl⟩⟩
      · exact fun _ _ _ hc hmove h => ⟨hmove.consistent h.1, hmove.whole hc hC h.1 h.2⟩
  intro c hc reply hreply
  obtain ⟨hconsistent, hwhole⟩ := hwhole c hc
  have hbegin : reply <+: cut false c.message := by
    refine (hconsistent.reply reply hreply).trans ?_
    obtain ⟨-, haccepted⟩ | ⟨-, -, haccepted⟩ := hwhole
    · rw [haccepted]
      exact List.nil_prefix
    · exact haccepted
  refine ⟨hbegin, ?_⟩
  intro r hr
  rw [hr, r.cut_message] at hbegin
  rw [← r.printed_reply]
  exact printed_mono hbegin

def bget : List Happening :=
  [.connect [66, 71, 69, 84, 32, 107], .accept [⟨0, 0⟩], .send 0 6, .callback 0 9 (some 6), .recv 0 9]

theorem bget_unsplit : Meets (step .kv) .initial Unsplit bget := by
  intro k hk s hs
  match k with
  | 0 => trivial
  | 1 => trivial
  | 2 => trivial
  | 3 =>
    obtain rfl := Option.some.inj hs
    intro c hc
    obtain rfl := Option.some.inj hc
    rfl
  | 4 => trivial

theorem unsplit_replies_bget :
    ∃ s, attempt (step .kv) .initial bget = some s ∧
      ∀ c ∈ s.sessions, ∀ reply, c.stage = .done (.echo reply) →
        reply <+: cut false c.message ∧
          ∀ r : Request, c.message = r.message → printed reply <+: r.command.bytes := by
  have htame : ∀ happening ∈ bget, Tame .kv happening := by
    simp only [bget, List.forall_mem_cons]
    exact ⟨fun _ => ⟨by decide, by decide, by decide⟩, ⟨by decide, fun _ => trivial⟩, trivial, trivial, trivial,
      by simp⟩
  obtain ⟨s, hs, -⟩ := attempt_safe htame (by decide)
  exact ⟨s, hs, unsplit_replies bget_unsplit hs⟩

end Server

end LearnSpdk
