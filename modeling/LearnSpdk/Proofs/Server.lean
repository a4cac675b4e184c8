import LearnSpdk.Lib.Attempt
import LearnSpdk.Spec.Server

/-! When the servers echo what they receive. Neither sends the rest of a short write later, and
the KV server sends the buffer after `strtok` cut it into tokens. -/

namespace LearnSpdk

open Lib

namespace Server

variable {msg : List UInt8}

/-- No space comes after another byte in the string that starts at `msg`. -/
def OneToken (msg : List UInt8) : Prop := space ∉ (msg.takeWhile (· ≠ 0)).dropWhile (· = space)

instance : Decidable (OneToken msg) := inferInstanceAs (Decidable (_ ∉ _))

theorem takeWhile_string {blanks token rest : List UInt8} {b : UInt8}
    (hblanks : ∀ c ∈ blanks, c = space) (htoken : ∀ c ∈ token, inToken c = true) :
    ((blanks ++ token ++ b :: rest).takeWhile (· ≠ 0)).dropWhile (· = space) =
      (token ++ (b :: rest).takeWhile (· ≠ 0)).dropWhile (· = space) := by
  have hne : ∀ c ∈ blanks ++ token, decide (c ≠ 0) = true := by
    intro c hc
    rcases List.mem_append.1 hc with hc | hc
    · simp [hblanks c hc, space]
    · have := htoken c hc
      simp only [inToken, decide_eq_true_eq] at this ⊢
      exact this.2
  rw [List.takeWhile_append_of_pos hne, List.append_assoc, List.dropWhile_append_of_pos]
  exact fun c hc => by simp [hblanks c hc]

theorem oneToken_nul {blanks token : List UInt8} (hblanks : ∀ c ∈ blanks, c = space)
    (htoken : ∀ c ∈ token, inToken c = true) (rest : List UInt8) : OneToken (blanks ++ token ++ 0 :: rest) := by
  rw [OneToken, takeWhile_string hblanks htoken, List.takeWhile_cons_of_neg (by simp), List.append_nil]
  intro hmem
  have := htoken space ((List.dropWhile_sublist _).subset hmem)
  simp [inToken] at this

theorem not_oneToken_space {blanks token : List UInt8} (hblanks : ∀ c ∈ blanks, c = space)
    (hne : token ≠ []) (htoken : ∀ c ∈ token, inToken c = true) (rest : List UInt8) :
    ¬OneToken (blanks ++ token ++ space :: rest) := by
  obtain ⟨b, token, rfl⟩ := List.exists_cons_of_ne_nil hne
  have hb := htoken b (by simp)
  simp only [inToken, decide_eq_true_eq] at hb
  rw [OneToken, takeWhile_string hblanks htoken, List.cons_append,
    List.dropWhile_cons_of_neg (by simpa using hb.1)]
  simp [space]

theorem kvsSplitTokens_end {tokens : List (List UInt8)} {passed rest : List UInt8}
    (h : strtok msg = some (none, passed, rest)) :
    kvsSplitTokens tokens msg = some (tokens, passed ++ rest) := by
  rw [kvsSplitTokens]
  split <;> simp_all

theorem kvsSplitTokens_token {tokens : List (List UInt8)} {token passed rest : List UInt8}
    (h : strtok msg = some (some token, passed, rest)) (hlt : tokens.length < maxTokens) :
    kvsSplitTokens tokens msg =
      (kvsSplitTokens (tokens ++ [token]) rest).map fun r => (r.1, passed ++ r.2) := by
  rw [kvsSplitTokens]
  split
  · next hnone => simp [h] at hnone
  · next hend => simp [h] at hend
  · next token' passed' rest' htoken =>
    obtain ⟨rfl, rfl, rfl⟩ : token' = token ∧ passed' = passed ∧ rest' = rest := by
      simpa [h] using htoken.symm
    rw [if_pos hlt]
    cases kvsSplitTokens (tokens ++ [token']) rest' <;> rfl

/-- The tokenizer leaves a string of at most one token as it is, and cuts every other one
after the first token. -/
theorem kvsSplitTokens_cases (hnul : 0 ∈ msg) :
    (OneToken msg ∧ ∃ tokens, kvsSplitTokens [] msg = some (tokens, msg)) ∨
      ¬OneToken msg ∧ ∃ i : ℕ, msg[i]? = some space ∧
        ∀ tokens msg', kvsSplitTokens [] msg = some (tokens, msg') → msg'[i]? = some 0 := by
  obtain ⟨-, hno⟩ | ⟨blanks, hblanks, ⟨rest, hmsg, hstrtok⟩ |
    ⟨token, rest, hne, htoken, ⟨hmsg, hstrtok⟩ | ⟨hmsg, hstrtok⟩⟩⟩ := strtok_cases msg
  · exact absurd hnul hno
  · refine .inl ⟨?_, [], ?_⟩
    · have h : OneToken (blanks ++ [] ++ 0 :: rest) := oneToken_nul hblanks (by simp) rest
      rw [hmsg]
      simpa using h
    · rw [kvsSplitTokens_end hstrtok, ← hmsg]
  · refine .inl ⟨hmsg ▸ oneToken_nul hblanks htoken rest, [token], ?_⟩
    have hend : strtok (0 :: rest) = some (none, [], 0 :: rest) := by simp [strtok, space]
    rw [kvsSplitTokens_token hstrtok (by decide), kvsSplitTokens_end hend, hmsg]
    rfl
  · refine .inr ⟨hmsg ▸ not_oneToken_space hblanks hne htoken rest, (blanks ++ token).length, ?_, ?_⟩
    · rw [hmsg, List.getElem?_append_right le_rfl, Nat.sub_self, List.getElem?_cons_zero]
    · intro tokens msg' h
      rw [kvsSplitTokens_token hstrtok (by decide)] at h
      obtain ⟨⟨tokens', msg''⟩, -, h⟩ := Option.map_eq_some_iff.1 h
      obtain ⟨-, rfl⟩ := Prod.mk.inj h
      simp

/-- Nothing of the chunk is overwritten: it has a NUL if it fills the buffer, and at most one
token before its first NUL. -/
structure Chunk.Plain (c : Chunk) : Prop where
  nul : c.bytes.length = bufferSize → 0 ∈ c.bytes
  oneToken : OneToken c.bytes

theorem Chunk.mem_buffer (c : Chunk) : 0 ∈ c.buffer ↔ (c.bytes.length = bufferSize → 0 ∈ c.bytes) := by
  have hle := c.length_le
  rw [Chunk.buffer, List.mem_append, List.mem_replicate]
  by_cases hlen : c.bytes.length = bufferSize
  · simp [hlen]
  · exact ⟨fun _ heq => absurd heq hlen, fun _ => .inr ⟨by omega, rfl⟩⟩

theorem Chunk.takeWhile_buffer (c : Chunk) : c.buffer.takeWhile (· ≠ 0) = c.bytes.takeWhile (· ≠ 0) := by
  have hzeros : (List.replicate (bufferSize - c.bytes.length) (0 : UInt8)).takeWhile (· ≠ 0) = [] := by
    simp
  rw [Chunk.buffer, List.takeWhile_append, hzeros, List.append_nil]
  split
  · next hlen => exact ((List.takeWhile_prefix _).eq_of_length hlen).symm
  · rfl

theorem Chunk.oneToken_buffer (c : Chunk) : OneToken c.buffer ↔ OneToken c.bytes := by
  rw [OneToken, OneToken, c.takeWhile_buffer]

/-- The KV server sends back a plain chunk and no other one. -/
theorem kvProcess_eq_iff (c : Chunk) : kvProcess c = some c.bytes ↔ c.Plain := by
  have htake : c.buffer.take c.bytes.length = c.bytes := by simp [Chunk.buffer]
  unfold kvProcess
  split
  swap
  · next hno => exact ⟨by simp, fun h => absurd (c.mem_buffer.2 h.nul) hno⟩
  · next hnul =>
    obtain ⟨hone, tokens, hsplit⟩ | ⟨hone, i, hspace, hcut⟩ := kvsSplitTokens_cases hnul
    · refine ⟨fun _ => ⟨c.mem_buffer.1 hnul, c.oneToken_buffer.1 hone⟩, fun _ => ?_⟩
      simp [kvsProtoProcess, hsplit, htake]
    · refine ⟨fun h => ?_, fun h => absurd (c.oneToken_buffer.2 h.oneToken) hone⟩
      simp only [kvsProtoProcess, Option.bind_eq_bind, Option.bind_assoc, Option.pure_def,
        Option.bind_some, Option.bind_eq_some_iff, Option.some.injEq] at h
      obtain ⟨⟨tokens, buf⟩, hsplit, heq⟩ := h
      -- the space at `i` is part of the chunk, since it is not one of the zeroes behind it
      have hlt : i < c.bytes.length := by
        by_contra hge
        rw [Chunk.buffer, List.getElem?_append_right (not_lt.1 hge)] at hspace
        have := (List.mem_replicate.1 (List.mem_of_getElem? hspace)).2
        simp [space] at this
      have hbefore : c.bytes[i]? = some space := by
        rwa [Chunk.buffer, List.getElem?_append_left hlt] at hspace
      have hafter : c.bytes[i]? = some 0 := by
        rw [← heq, List.getElem?_take_of_lt hlt]
        exact hcut tokens buf hsplit
      simp [hbefore, space] at hafter

theorem serverCallback_iff {process : Chunk → Option (List UInt8)}
    (hprocess : ∀ c buf, process c = some buf → buf.length ≤ c.bytes.length) {c : Connection}
    (hc : c.accepted = c.received) (event : Event) :
    (∃ c', serverCallback process event c = some c' ∧ c'.accepted = c'.received) ↔
      ∀ chunk written, event = .chunk chunk written → c.isOpen = true →
        written = some (Fin.last _) ∧ process chunk = some chunk.bytes := by
  unfold serverCallback
  cases hopen : c.isOpen with
  | false => simpa using hc
  | true =>
    rcases event with _ | _ | ⟨chunk, written⟩
    · simpa using hc
    · simpa using hc
    have hright : (∀ ch wr, Event.chunk chunk written = .chunk ch wr → true = true →
        wr = some (Fin.last _) ∧ process ch = some ch.bytes) ↔
          written = some (Fin.last _) ∧ process chunk = some chunk.bytes := by
      refine ⟨fun h => h chunk written rfl rfl, ?_⟩
      rintro h ch wr heq -
      cases heq
      exact h
    rw [hright]
    simp only [if_true, Option.bind_eq_bind, Option.pure_def]
    refine ⟨?_, ?_⟩
    · rintro ⟨c', hc', heq⟩
      obtain ⟨buf, hbuf, hc'⟩ := Option.bind_eq_some_iff.1 hc'
      obtain rfl := Option.some_inj.1 hc'
      simp only [hc, List.append_cancel_left_eq] at heq
      have hlen := congrArg List.length heq
      have hle := hprocess chunk buf hbuf
      cases written with
      | none => exact absurd (by simpa using heq.symm) chunk.bytes_ne_nil
      | some w =>
        rw [List.length_take, Option.elim_some] at hlen
        have hw : w.val = chunk.bytes.length := by
          have := w.isLt
          omega
        have hlast : w = Fin.last _ := Fin.ext hw
        rw [Option.elim_some, hw, List.take_of_length_le hle] at heq
        exact ⟨by rw [hlast], by rw [hbuf, heq]⟩
    · rintro ⟨rfl, hbuf⟩
      exact ⟨_, by rw [hbuf, Option.bind_some], by simp [hc]⟩

/-- The socket takes the whole chunk, and the KV server leaves it as it was. -/
def Echoes (kind : Kind) (c : Connection) (event : Event) : Prop :=
  ∀ chunk written, event = .chunk chunk written → c.isOpen = true →
    written = some (Fin.last _) ∧ (kind = .kv → chunk.Plain)

theorem callback_iff (kind : Kind) {c : Connection} (hc : c.accepted = c.received) (event : Event) :
    (∃ c', callback kind event c = some c' ∧ c'.accepted = c'.received) ↔ Echoes kind c event := by
  cases kind with
  | echo =>
    refine (serverCallback_iff ?_ hc event).trans ?_
    · intro chunk buf hbuf
      obtain rfl := Option.some_inj.1 hbuf
      exact le_rfl
    · simp [Echoes]
  | kv =>
    refine (serverCallback_iff ?_ hc event).trans ?_
    · intro chunk buf hbuf
      unfold kvProcess at hbuf
      split at hbuf
      · obtain ⟨r, -, hbuf⟩ := Option.bind_eq_some_iff.1 hbuf
        obtain rfl := Option.some_inj.1 hbuf
        exact List.length_take_le _ _
      · cases hbuf
    · simp [Echoes, kvProcess_eq_iff]

/-- In every run of callbacks the bytes that the socket took are at every point those received
so far if and only if every callback for a chunk echoes it. -/
theorem echo_exact_iff (kind : Kind) (events : List Event) :
    Along (callback kind) .fresh (fun c => c.accepted = c.received) events ↔
      Meets (callback kind) .fresh (Echoes kind) events :=
  along_iff (I := fun _ => True) rfl trivial (fun _ _ _ _ _ => trivial)
    fun _ event _ hc => callback_iff kind hc event

/-- The echo server drops what a short write leaves, and the KV server sends a NUL for the
space of the request `BGET k`. -/
theorem echo_inexact :
    (¬Along (callback .echo) .fresh (fun c => c.accepted = c.received)
      [.chunk ⟨[97, 98], by decide, by decide⟩ (some 1)]) ∧
    ¬Along (callback .kv) .fresh (fun c => c.accepted = c.received)
      [.chunk ⟨[66, 71, 69, 84, 32, 107], by decide, by decide⟩ (some 6)] := by
  refine ⟨fun h => ?_, fun h => ?_⟩
  · obtain ⟨c, hc, heq⟩ := h 1 le_rfl
    rw [List.take_succ_cons, List.take_zero, attempt_singleton] at hc
    obtain ⟨hfull, -⟩ := (callback_iff .echo rfl _).1 ⟨c, hc, heq⟩ _ _ rfl rfl
    exact absurd hfull (by decide)
  · obtain ⟨c, hc, heq⟩ := h 1 le_rfl
    rw [List.take_succ_cons, List.take_zero, attempt_singleton] at hc
    obtain ⟨-, hplain⟩ := (callback_iff .kv rfl _).1 ⟨c, hc, heq⟩ _ _ rfl rfl
    exact absurd (hplain rfl).oneToken (by decide)

end Server

end LearnSpdk
