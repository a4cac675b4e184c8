import LearnSpdk.Proofs.ServerTokens
import LearnSpdk.Spec.ServerClients

/-! What the KV server sends back, byte by byte, and what becomes of a request: words with one
space between them. The calls of `strtok` leave the buffer as one pass over its string would
that turns every space behind a word into a NUL. -/

namespace LearnSpdk

namespace Server

variable {msg token blanks : List UInt8} {tokens : List (List UInt8)} {inWord : Bool}

/-- The string that starts at `msg` with a NUL for every space that ends a word. The byte before
`msg` is part of a word if `inWord` is set. -/
def cut : Bool → List UInt8 → List UInt8
  | _, [] => []
  | inWord, b :: rest =>
    if b = 0 then b :: rest
    else if b = space then (if inWord then 0 else space) :: cut false rest
    else b :: cut true rest

theorem takeWhile_of_not_mem (hnul : 0 ∉ msg) : msg.takeWhile (· ≠ 0) = msg := by
  rw [List.takeWhile_eq_self_iff]
  intro b hb
  have : b ≠ 0 := fun h => hnul (h ▸ hb)
  simpa using this

theorem cut_nul (rest : List UInt8) : cut inWord (0 :: rest) = 0 :: rest := by simp [cut]

theorem cut_blanks (hblanks : ∀ b ∈ blanks, b = space) (rest : List UInt8) :
    cut false (blanks ++ rest) = blanks ++ cut false rest := by
  induction blanks with
  | nil => rfl
  | cons b blanks ih =>
    obtain rfl := hblanks b (by simp)
    rw [List.cons_append, cut, if_neg (by decide), if_pos rfl, ih fun b hb => hblanks b (by simp [hb])]
    rfl

theorem cut_token (hne : token ≠ []) (htoken : ∀ b ∈ token, inToken b = true) (rest : List UInt8) :
    cut inWord (token ++ rest) = token ++ cut true rest := by
  induction token generalizing inWord with
  | nil => exact absurd rfl hne
  | cons b token ih =>
    have hb := htoken b (by simp)
    simp only [inToken, decide_eq_true_eq] at hb
    rw [List.cons_append, cut, if_neg hb.2, if_neg hb.1]
    cases token with
    | nil => rfl
    | cons c token =>
      rw [ih (List.cons_ne_nil _ _) fun b hb => htoken b (List.mem_cons_of_mem _ hb)]
      rfl

theorem cut_word (hblanks : ∀ b ∈ blanks, b = space) (hne : token ≠ [])
    (htoken : ∀ b ∈ token, inToken b = true) (rest : List UInt8) :
    cut false (blanks ++ token ++ rest) = blanks ++ token ++ cut true rest := by
  rw [List.append_assoc, cut_blanks hblanks, cut_token hne htoken, List.append_assoc]

theorem cut_space (rest : List UInt8) : cut true (space :: rest) = 0 :: cut false rest := by
  simp [cut, space]

theorem length_cut : (cut inWord msg).length = msg.length := by
  induction msg generalizing inWord with
  | nil => rfl
  | cons b rest ih =>
    rw [cut]
    split
    · rfl
    · split <;> simp [ih]

/-- What comes back for the beginning of a message does not depend on the rest. -/
theorem cut_take (n : ℕ) : cut inWord (msg.take n) = (cut inWord msg).take n := by
  induction msg generalizing inWord n with
  | nil => simp [cut]
  | cons b rest ih =>
    cases n with
    | zero => simp [cut]
    | succ n =>
      rw [List.take_succ_cons, cut, cut]
      split
      · rfl
      · split <;> simp [ih]

theorem cut_append_zeros (k : ℕ) :
    cut inWord (msg ++ List.replicate k 0) = cut inWord msg ++ List.replicate k 0 := by
  induction msg generalizing inWord with
  | nil =>
    cases k with
    | zero => rfl
    | succ k => exact cut_nul _
  | cons b rest ih =>
    rw [List.cons_append, cut, cut]
    split
    · rfl
    · split <;> simp [ih]

theorem kvsSplitTokens_cut {r : List (List UInt8) × List UInt8}
    (h : kvsSplitTokens tokens msg = some r) : r.2 = cut false msg := by
  induction hn : msg.length using Nat.strong_induction_on generalizing msg tokens r with
  | _ n ih =>
    subst hn
    obtain ⟨hnone, -⟩ | ⟨blanks, hblanks, ⟨rest, hmsg, hstrtok⟩ |
      ⟨token, rest, hne, htoken, hcases⟩⟩ := strtok_cases msg
    · rw [kvsSplitTokens] at h
      split at h <;> simp_all
    · rw [kvsSplitTokens_end hstrtok] at h
      rw [← Option.some.inj h, hmsg, cut_blanks hblanks, cut_nul]
    have hlt : tokens.length < maxTokens := by
      by_contra hge
      rcases hcases with ⟨-, hstrtok⟩ | ⟨-, hstrtok⟩ <;>
        · rw [kvsSplitTokens_full hstrtok (not_lt.1 hge)] at h
          cases h
    rcases hcases with ⟨hmsg, hstrtok⟩ | ⟨hmsg, hstrtok⟩
    all_goals
      rw [kvsSplitTokens_token hstrtok hlt] at h
      obtain ⟨r', hr', rfl⟩ := Option.map_eq_some_iff.1 h
      have hrest := ih _ (length_strtok hstrtok) hr' rfl
      rw [hmsg, cut_word hblanks hne htoken]
    · rw [hrest, cut_nul, cut_nul]
    · rw [hrest, cut_space, List.append_assoc]
      rfl

/-- The KV server sends back the message with a NUL for every space that ends a word, if there
is room for the NUL behind the message and for its words. -/
theorem kvProcess_eq (c : Chunk) :
    kvProcess c =
      if (c.bytes.length = bufferSize → 0 ∈ c.bytes) ∧ (words c.bytes).length ≤ maxTokens then
        some (cut false c.bytes)
      else none := by
  have htake : (cut false c.buffer).take c.bytes.length = cut false c.bytes := by
    rw [Chunk.buffer, cut_append_zeros, List.take_left' length_cut]
  have hbounds : ∀ r, kvsSplitTokens [] c.buffer = some r →
      (c.bytes.length = bufferSize → 0 ∈ c.bytes) ∧ (words c.bytes).length ≤ maxTokens := by
    intro r hr
    obtain ⟨hnul, hle⟩ := kvsSplitTokens_bounds (Nat.zero_le _) hr
    rw [c.words_buffer, List.length_nil, Nat.zero_add] at hle
    exact ⟨c.mem_buffer.1 hnul, hle⟩
  unfold kvProcess
  split
  · next hnul =>
    cases hsplit : kvsSplitTokens [] c.buffer with
    | none =>
      rw [if_neg]
      · simp [kvsProtoProcess, hsplit]
      · rintro ⟨-, hle⟩
        have hroom : ([] : List (List UInt8)).length + (words c.buffer).length ≤ maxTokens := by
          rwa [c.words_buffer, List.length_nil, Nat.zero_add]
        obtain ⟨buf, hbuf, -⟩ := kvsSplitTokens_spec hnul hroom
        rw [hsplit] at hbuf
        cases hbuf
    | some r =>
      rw [if_pos (hbounds r hsplit)]
      simp [kvsProtoProcess, hsplit, kvsSplitTokens_cut hsplit, htake]
  · next hno => rw [if_neg fun h => hno (c.mem_buffer.2 h.1)]

/-- How many words begin in a string without a NUL. -/
def wordCount : Bool → List UInt8 → ℕ
  | _, [] => 0
  | inWord, b :: rest =>
    if b = space then wordCount false rest else (if inWord then 0 else 1) + wordCount true rest

/-- The pieces between the spaces: all but the first begin behind a space, and the first one
begins a word if it is not the end of one. -/
theorem wordCount_splitOn (msg : List UInt8) :
    ∃ first others, msg.splitOn space = first :: others ∧
      wordCount true msg = (others.filter (· ≠ [])).length ∧
      wordCount false msg = ((first :: others).filter (· ≠ [])).length := by
  induction msg with
  | nil => exact ⟨[], [], rfl, rfl, rfl⟩
  | cons b rest ih =>
    obtain ⟨first, others, hsplit, htrue, hfalse⟩ := ih
    rw [List.splitOn_cons_eq_if_modifyHead, hsplit]
    by_cases hb : b = space
    · subst hb
      exact ⟨[], first :: others, by simp, by simp [wordCount, hfalse], by simp [wordCount, hfalse]⟩
    · refine ⟨b :: first, others, by simp [hb], by simp [wordCount, hb, htrue], ?_⟩
      simp [wordCount, hb, htrue, Nat.add_comm]

theorem length_words (hnul : 0 ∉ msg) : (words msg).length = wordCount false msg := by
  obtain ⟨first, others, hsplit, -, hfalse⟩ := wordCount_splitOn msg
  rw [words, takeWhile_of_not_mem hnul, hsplit, hfalse]

theorem wordCount_true_le (msg : List UInt8) :
    wordCount true msg ≤ wordCount false msg ∧ wordCount false msg ≤ wordCount true msg + 1 := by
  cases msg with
  | nil => simp [wordCount]
  | cons b rest =>
    rw [wordCount, wordCount]
    split <;> simp [Nat.add_comm]

theorem wordCount_take (n : ℕ) : wordCount inWord (msg.take n) ≤ wordCount inWord msg := by
  induction msg generalizing n inWord with
  | nil => simp
  | cons b rest ih =>
    cases n with
    | zero => simp [wordCount]
    | succ n =>
      rw [List.take_succ_cons, wordCount, wordCount]
      split
      · exact ih n
      · exact Nat.add_le_add_left (ih n) _

theorem wordCount_drop (n : ℕ) : wordCount false (msg.drop n) ≤ wordCount false msg := by
  induction n generalizing msg with
  | zero => simp
  | succ n ih =>
    cases msg with
    | nil => simp
    | cons b rest =>
      have hle := (wordCount_true_le rest).2
      rw [List.drop_succ_cons]
      apply le_trans ih
      rw [wordCount]
      split
      · exact le_rfl
      · simpa [Nat.add_comm] using hle

theorem length_words_segment (hnul : 0 ∉ msg) (k n : ℕ) :
    (words ((msg.drop k).take n)).length ≤ (words msg).length := by
  have hnul' : 0 ∉ (msg.drop k).take n := fun h => hnul (List.mem_of_mem_drop (List.mem_of_mem_take h))
  rw [length_words hnul, length_words hnul']
  exact (wordCount_take n).trans (wordCount_drop k)

structure Word where
  bytes : List UInt8
  bytes_ne_nil : bytes ≠ []
  inToken_of_mem : ∀ b ∈ bytes, inToken b = true

theorem Word.zero_not_mem (w : Word) : 0 ∉ w.bytes := fun h => absurd (w.inToken_of_mem 0 h) (by decide)

/-- A request that the KV server has room for. -/
structure Request where
  command : Word
  arguments : List Word
  arguments_lt : arguments.length < maxTokens
  length_lt : ([space].intercalate ((command :: arguments).map Word.bytes)).length < bufferSize

def Request.words (r : Request) : List (List UInt8) := (r.command :: r.arguments).map Word.bytes

theorem Request.length_words (r : Request) : r.words.length ≤ maxTokens := by
  rw [Request.words, List.length_map, List.length_cons]
  exact r.arguments_lt

def Request.message (r : Request) : List UInt8 := [space].intercalate r.words

theorem Request.message_ne_nil (r : Request) : r.message ≠ [] := by
  have hne := r.command.bytes_ne_nil
  rw [Request.message, Request.words, List.map_cons]
  cases r.arguments with
  | nil => simpa using hne
  | cons w ws => simp [List.intercalate_cons_cons, hne]

def Request.chunk (r : Request) : Chunk := ⟨r.message, r.message_ne_nil, r.length_lt.le⟩

theorem Request.inToken_of_mem {r : Request} {word : List UInt8} (hword : word ∈ r.words) {b : UInt8}
    (hb : b ∈ word) : inToken b = true := by
  obtain ⟨w, -, rfl⟩ := List.mem_map.1 hword
  exact w.inToken_of_mem b hb

theorem cut_intercalate (ws : List Word) (inWord : Bool) :
    cut inWord ([space].intercalate (ws.map Word.bytes)) = [0].intercalate (ws.map Word.bytes) := by
  induction ws generalizing inWord with
  | nil => rfl
  | cons w ws ih =>
    have hcut : ∀ rest, cut inWord (w.bytes ++ rest) = w.bytes ++ cut true rest :=
      cut_token w.bytes_ne_nil w.inToken_of_mem
    cases ws with
    | nil => simpa [cut] using hcut []
    | cons w' ws =>
      simp only [List.map_cons, List.intercalate_cons_cons, List.append_assoc] at ih ⊢
      rw [hcut, List.singleton_append, cut_space, ih]
      rfl

theorem Request.zero_not_mem_message (r : Request) : 0 ∉ r.message := by
  have h : ∀ ws : List Word, 0 ∉ [space].intercalate (ws.map Word.bytes) := by
    intro ws
    induction ws with
    | nil => simp
    | cons w ws ih =>
      cases ws with
      | nil => simpa using w.zero_not_mem
      | cons w' ws =>
        simp only [List.map_cons, List.intercalate_cons_cons, List.mem_append, not_or] at ih ⊢
        exact ⟨⟨w.zero_not_mem, by decide⟩, ih⟩
  exact h _

theorem Request.words_message (r : Request) : Server.words r.message = r.words := by
  rw [Server.words, takeWhile_of_not_mem r.zero_not_mem_message,
    Request.message, List.splitOn_intercalate space _ (by simp [Request.words])]
  · rw [List.filter_eq_self]
    intro word hword
    obtain ⟨w, -, rfl⟩ := List.mem_map.1 hword
    simpa using w.bytes_ne_nil
  · intro word hword hmem
    exact absurd (r.inToken_of_mem hword hmem) (by decide)

theorem Request.cut_message (r : Request) : cut false r.message = [0].intercalate r.words :=
  cut_intercalate _ _

theorem Request.kvProcess_chunk (r : Request) : kvProcess r.chunk = some ([0].intercalate r.words) := by
  have hlt : r.message.length < bufferSize := r.length_lt
  have hle : (Server.words r.message).length ≤ maxTokens := by
    rw [r.words_message]
    exact r.length_words
  rw [kvProcess_eq, if_pos ⟨fun h => absurd h hlt.ne, hle⟩]
  exact congrArg some r.cut_message

theorem printed_mono {reply reply' : List UInt8} (h : reply <+: reply') : printed reply <+: printed reply' := by
  obtain ⟨rest, rfl⟩ := h
  rw [printed, printed, List.takeWhile_append]
  split
  · next hlen =>
    rw [(List.takeWhile_prefix _).eq_of_length hlen]
    exact List.prefix_append _ _
  · exact List.prefix_refl _

theorem Request.printed_reply (r : Request) : printed ([0].intercalate r.words) = r.command.bytes := by
  have hall := takeWhile_of_not_mem r.command.zero_not_mem
  rw [printed, Request.words, List.map_cons]
  cases r.arguments with
  | nil => simpa using hall
  | cons w ws =>
    rw [List.map_cons, List.intercalate_cons_cons, List.append_assoc,
      takeWhile_token r.command.inToken_of_mem]
    simp

theorem kvsCommand_commands (k : Fin commands.length) : kvsCommand (commands.get k) = k.val := by
  revert k
  decide

/-- Every request that fits survives the server: the tokenizer stores its words, the search
finds the command, and what goes back has the same words with NULs between them, of which the
client prints the first. -/
theorem request_round_trip (r : Request) :
    (∃ buf, kvsSplitTokens [] r.chunk.buffer = some (r.words, buf) ∧
      kvsProtoProcess r.chunk.buffer = some (0, buf)) ∧
    (∀ k : Fin commands.length, r.command.bytes = commands.get k → r.words.head?.map kvsCommand = some k.val) ∧
    kvProcess r.chunk = some ([0].intercalate r.words) ∧
    printed ([0].intercalate r.words) = r.command.bytes := by
  refine ⟨?_, ?_, r.kvProcess_chunk, r.printed_reply⟩
  · have hnul : 0 ∈ r.chunk.buffer := r.chunk.mem_buffer.2 fun h => absurd h r.length_lt.ne
    have hwords : Server.words r.chunk.buffer = r.words := by
      rw [r.chunk.words_buffer]
      exact r.words_message
    have hle : ([] : List (List UInt8)).length + (Server.words r.chunk.buffer).length ≤ maxTokens := by
      rw [hwords]
      simpa using r.length_words
    obtain ⟨buf, hbuf, -⟩ := kvsSplitTokens_spec hnul hle
    rw [hwords, List.nil_append] at hbuf
    exact ⟨buf, hbuf, by simp [kvsProtoProcess, hbuf, kvsProtoParser, Request.words]⟩
  · intro k hk
    rw [Request.words, List.map_cons, List.head?_cons, Option.map_some, hk, kvsCommand_commands]

/-- `BGET k`. -/
def bgetRequest : Request where
  command := ⟨[66, 71, 69, 84], List.cons_ne_nil _ _, List.all_eq_true.1 rfl⟩
  arguments := [⟨[107], List.cons_ne_nil _ _, List.all_eq_true.1 rfl⟩]
  arguments_lt := by decide
  length_lt := by decide

theorem request_round_trip_of_bget :
    bgetRequest.message = [66, 71, 69, 84, 32, 107] ∧
      kvProcess bgetRequest.chunk = some [66, 71, 69, 84, 0, 107] ∧
      bgetRequest.words.head?.map kvsCommand = some 1 ∧ printed [66, 71, 69, 84, 0, 107] = [66, 71, 69, 84] := by
  obtain ⟨-, hcommand, hreply, hprinted⟩ := request_round_trip bgetRequest
  exact ⟨rfl, hreply, hcommand ⟨1, by decide⟩ rfl, hprinted⟩

end Server

end LearnSpdk
