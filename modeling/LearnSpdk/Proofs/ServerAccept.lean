import LearnSpdk.Lib.Attempt
import LearnSpdk.Spec.Server

/-! Which accept errors the servers contain. A failure of `spdk_sock_group_add_sock` closes
the client, and a failure of `spdk_sock_getaddr` closes the listening socket in its place. -/

namespace LearnSpdk

open Lib

namespace Server

variable {peers : List Peer} {count : ℕ} {s : Sockets}

/-- A client that is in the group or closed once, and not both. -/
def Client.Settled (c : Client) : Prop := c.added = 1 ∧ c.closed = 0 ∨ c.added = 0 ∧ c.closed = 1

/-- The server listens, and every accepted client is settled. -/
structure Contained (s : Sockets) : Prop where
  listening : s.listening = true
  settled : ∀ c ∈ s.clients, c.Settled

theorem contained_initial : Contained Sockets.initial := ⟨rfl, by simp [Sockets.initial]⟩

theorem Contained.push (h : Contained s) {c : Client} (hc : c.Settled) : Contained (s.push c) := by
  refine ⟨h.listening, ?_⟩
  intro d hd
  rcases List.mem_append.1 hd with hd | hd
  · exact h.settled d hd
  · rwa [List.mem_singleton.1 hd]

/-- `spdk_sock_getaddr` succeeds for every client that a poll accepts. The poll accepts no
more clients after one that cannot be added to the group. -/
def AddressesKnown : List Peer → Prop
  | [] => True
  | peer :: peers => 0 ≤ peer.getaddr ∧ (0 ≤ peer.addSock → AddressesKnown peers)

theorem acceptLoop_iff (h : Contained s) :
    (∃ r, acceptLoop peers count s = some r ∧ Contained r.2) ↔ AddressesKnown peers := by
  induction peers generalizing count s with
  | nil => simpa [acceptLoop, AddressesKnown, h.listening] using h
  | cons peer peers ih =>
    rw [acceptLoop, if_pos h.listening, AddressesKnown]
    by_cases haddr : peer.getaddr < 0
    · rw [if_pos haddr]
      refine ⟨?_, fun hknown => absurd hknown.1 (not_le.2 haddr)⟩
      rintro ⟨r, hr, hcontained⟩
      obtain rfl := Option.some.inj hr
      exact absurd hcontained.listening (by simp)
    rw [if_neg haddr]
    by_cases hadd : peer.addSock < 0
    · rw [if_pos hadd]
      refine ⟨fun _ => ⟨not_lt.1 haddr, fun hle => absurd hadd (not_lt.2 hle)⟩, fun _ => ?_⟩
      exact ⟨_, rfl, h.push (.inr ⟨rfl, rfl⟩)⟩
    · rw [if_neg hadd, ih (h.push (.inl ⟨rfl, rfl⟩))]
      exact ⟨fun hknown => ⟨not_lt.1 haddr, fun _ => hknown⟩, fun hknown => hknown.2 (not_lt.1 hadd)⟩

def acceptPoll (kind : Kind) (peers : List Peer) (s : Sockets) : Option Sockets :=
  (serverAccept kind peers s).map Prod.snd

theorem acceptPoll_iff (kind : Kind) (h : Contained s) :
    (∃ s', acceptPoll kind peers s = some s' ∧ Contained s') ↔ AddressesKnown peers := by
  have hpoll : acceptPoll kind peers s = (acceptLoop peers 0 s).map Prod.snd := by cases kind <;> rfl
  rw [hpoll, ← acceptLoop_iff h]
  refine ⟨?_, ?_⟩
  · rintro ⟨s', hs', hcontained⟩
    obtain ⟨r, hr, rfl⟩ := Option.map_eq_some_iff.1 hs'
    exact ⟨r, hr, hcontained⟩
  · rintro ⟨r, hr, hcontained⟩
    exact ⟨r.2, by rw [hr, Option.map_some], hcontained⟩

/-- After every poll of a run the server listens and each client is in the group or closed
once, if and only if no poll meets a client whose address it cannot get. -/
theorem accept_contained_iff (kind : Kind) (polls : List (List Peer)) :
    Along (acceptPoll kind) .initial Contained polls ↔ ∀ peers ∈ polls, AddressesKnown peers :=
  along_iff_forall contained_initial fun _ _ h => acceptPoll_iff kind h

/-- The first client has no address: the server stops to listen, and the client is neither
in the group nor closed. -/
theorem accept_not_contained :
    acceptPoll .kv [⟨-1, 0⟩] .initial = some ⟨false, [⟨0, 0⟩]⟩ ∧
      acceptPoll .echo [⟨-1, 0⟩] .initial = some ⟨false, [⟨0, 0⟩]⟩ ∧
      ¬Along (acceptPoll .kv) .initial Contained [[⟨-1, 0⟩]] := by
  refine ⟨rfl, rfl, fun h => ?_⟩
  obtain ⟨s, hs, hcontained⟩ := h 1 le_rfl
  obtain rfl : s = ⟨false, [⟨0, 0⟩]⟩ := (Option.some.inj hs).symm
  exact absurd hcontained.listening (by decide)

end Server

end LearnSpdk
