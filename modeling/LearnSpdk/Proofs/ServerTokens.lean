import LearnSpdk.Proofs.Server

/-! When the tokenizer of the KV server stays inside its buffer and its token table. It finds
the words of the string in the buffer, so that both limits are conditions on the message. -/

namespace LearnSpdk

namespace Server

variable {msg token : List UInt8} {tokens : List (List UInt8)}

/-- The words of the string that starts at `msg`: what stands between its spaces. -/
def words (msg : List UInt8) : List (List UInt8) :=
  ((msg.takeWhile (· ≠ 0)).splitOn space).filter (· ≠ [])

theorem space_not_mem (htoken : ∀ c ∈ token, inToken c = true) : space ∉ token := by
  intro hmem
  have := htoken space hmem
  simp [inToken] at this

theorem takeWhile_token (htoken : ∀ c ∈ token, inToken c = true) (rest : List UInt8) :
    (token ++ rest).takeWhile (· ≠ 0) = token ++ rest.takeWhile (· ≠ 0) := by
  apply List.takeWhile_append_of_pos
  intro c hc
  have := htoken c hc
  simp only [inToken, decide_eq_true_eq] at this ⊢
  exact this.2

theorem words_nul (htoken : ∀ c ∈ token, inToken c = true) (rest : List UInt8) :
    words (token ++ 0 :: rest) = [token].filter (· ≠ []) := by
  rw [words, takeWhile_token htoken, List.takeWhile_cons_of_neg (by simp), List.append_nil,
    List.splitOn_eq_singleton (space_not_mem htoken)]

theorem words_space (htoken : ∀ c ∈ token, inToken c = true) (rest : List UInt8) :
    words (token ++ space :: rest) = [token].filter (· ≠ []) ++ words rest := by
  rw [words, takeWhile_token htoken, List.takeWhile_cons_of_pos (by simp [space]),
    List.splitOn_append_cons_self_of_not_mem (space_not_mem htoken), ← List.singleton_append,
    List.filter_append]
  rfl

theorem words_blanks {blanks : List UInt8} (hblanks : ∀ c ∈ blanks, c = space) (rest : List UInt8) :
    words (blanks ++ rest) = words rest := by
  induction blanks with
  | nil => rfl
  | cons b blanks ih =>
    obtain rfl := hblanks b (by simp)
    have h := words_space (by simp : ∀ c ∈ ([] : List UInt8), inToken c = true) (blanks ++ rest)
    simpa [ih fun c hc => hblanks c (by simp [hc])] using h

/-- Everything `strtok` can do, by the words of the string. -/
theorem strtok_words (msg : List UInt8) :
    (strtok msg = none ∧ 0 ∉ msg) ∨
      (0 ∈ msg ∧ words msg = [] ∧ ∃ passed rest, strtok msg = some (none, passed, rest) ∧ passed ++ rest = msg) ∨
      ∃ token passed rest, strtok msg = some (some token, passed, rest) ∧ words msg = token :: words rest ∧
        (0 ∈ msg ↔ 0 ∈ rest) ∧ passed.length + rest.length = msg.length ∧
        (token ++ [0] <:+: passed ∨ token <:+ passed ∧ ∃ rest', rest = 0 :: rest') := by
  obtain hnone | ⟨blanks, hblanks, ⟨rest, hmsg, hstrtok⟩ |
    ⟨token, rest, hne, htoken, ⟨hmsg, hstrtok⟩ | ⟨hmsg, hstrtok⟩⟩⟩ := strtok_cases msg
  · exact .inl hnone
  · refine .inr (.inl ⟨by simp [hmsg], ?_, _, _, hstrtok, hmsg.symm⟩)
    rw [hmsg, words_blanks hblanks]
    exact words_nul (by simp : ∀ c ∈ ([] : List UInt8), inToken c = true) rest
  · refine .inr (.inr ⟨token, _, _, hstrtok, ?_, by simp [hmsg], by simp [hmsg]; omega,
      .inr ⟨⟨blanks, rfl⟩, rest, rfl⟩⟩)
    have hend := words_nul (by simp : ∀ c ∈ ([] : List UInt8), inToken c = true) rest
    rw [hmsg, List.append_assoc, words_blanks hblanks, words_nul htoken]
    simpa [hne] using hend
  · have hblanks' : 0 ∉ blanks := fun hmem => absurd (hblanks 0 hmem) (by decide)
    have htoken' : 0 ∉ token := fun hmem => absurd (htoken 0 hmem) (by decide)
    refine .inr (.inr ⟨token, _, _, hstrtok, ?_, ?_, by simp [hmsg]; omega, .inl ⟨blanks, [], by simp⟩⟩)
    · rw [hmsg, List.append_assoc, words_blanks hblanks, words_space htoken]
      simp [hne]
    · simp [hmsg, hblanks', htoken', space]

theorem kvsSplitTokens_full {passed rest : List UInt8} (h : strtok msg = some (some token, passed, rest))
    (hge : maxTokens ≤ tokens.length) : kvsSplitTokens tokens msg = none := by
  rw [kvsSplitTokens]
  split
  · rfl
  · next hend => simp [h] at hend
  · exact if_neg (not_lt.2 hge)

/-- With a NUL in the buffer and room in the table the tokenizer stores the words, each of
them followed by a NUL of the buffer. -/
theorem kvsSplitTokens_spec (hnul : 0 ∈ msg) (hle : tokens.length + (words msg).length ≤ maxTokens) :
    ∃ buf, kvsSplitTokens tokens msg = some (tokens ++ words msg, buf) ∧ buf.length = msg.length ∧
      ∀ word ∈ words msg, word ++ [0] <:+: buf := by
  induction hn : msg.length using Nat.strong_induction_on generalizing msg tokens with
  | _ n ih =>
    subst hn
    obtain ⟨-, hno⟩ | ⟨-, hwords, passed, rest, hstrtok, hmsg⟩ |
      ⟨token, passed, rest, hstrtok, hwords, hmem, hlen, hinfix⟩ := strtok_words msg
    · exact absurd hnul hno
    · refine ⟨msg, ?_, rfl, by simp [hwords]⟩
      rw [kvsSplitTokens_end hstrtok, hmsg, hwords, List.append_nil]
    · rw [hwords, List.length_cons] at hle
      have hroom : (tokens ++ [token]).length + (words rest).length ≤ maxTokens := by simp; omega
      obtain ⟨buf, hbuf, hlen', hall⟩ := ih rest.length (length_strtok hstrtok) (hmem.1 hnul) hroom rfl
      refine ⟨passed ++ buf, ?_, by simp [hlen', hlen], ?_⟩
      · rw [kvsSplitTokens_token hstrtok (by omega), hbuf, hwords]
        simp
      · rw [hwords]
        intro word hword
        rcases List.mem_cons.1 hword with rfl | hword
        · rcases hinfix with hinfix | ⟨⟨before, hbefore⟩, rest', rfl⟩
          · exact hinfix.trans (List.prefix_append _ _).isInfix
          · -- the token ends at the end of the string, which no later call overwrites
            have hend : strtok (0 :: rest') = some (none, [], 0 :: rest') := by simp [strtok, space]
            rw [kvsSplitTokens_end hend] at hbuf
            obtain ⟨-, rfl⟩ := Prod.mk.inj (Option.some.inj hbuf)
            exact ⟨before, rest', by simp [← hbefore]⟩
        · exact (hall word hword).trans (List.suffix_append _ _).isInfix

/-- The tokenizer returns only if there is a NUL in the buffer and room in the table. -/
theorem kvsSplitTokens_bounds {r : List (List UInt8) × List UInt8} (hle : tokens.length ≤ maxTokens)
    (h : kvsSplitTokens tokens msg = some r) :
    0 ∈ msg ∧ tokens.length + (words msg).length ≤ maxTokens := by
  induction hn : msg.length using Nat.strong_induction_on generalizing msg tokens r with
  | _ n ih =>
    subst hn
    obtain ⟨hnone, -⟩ | ⟨hnul, hwords, -⟩ | ⟨token, passed, rest, hstrtok, hwords, hmem, -, -⟩ :=
      strtok_words msg
    · rw [kvsSplitTokens] at h
      split at h <;> simp_all
    · exact ⟨hnul, by simpa [hwords] using hle⟩
    · by_cases hlt : tokens.length < maxTokens
      · rw [kvsSplitTokens_token hstrtok hlt] at h
        obtain ⟨r', hr', -⟩ := Option.map_eq_some_iff.1 h
        have hle' : (tokens ++ [token]).length ≤ maxTokens := by simp; omega
        obtain ⟨hnul, hroom⟩ := ih rest.length (length_strtok hstrtok) hle' hr' rfl
        refine ⟨hmem.2 hnul, ?_⟩
        rw [hwords, List.length_cons]
        rw [List.length_append, List.length_singleton] at hroom
        omega
      · rw [kvsSplitTokens_full hstrtok (not_lt.1 hlt)] at h
        cases h

/-- `kvs_proto_process` uses memory only inside the buffer `msg` and its token table: it
returns, it stores no more tokens than the table holds, the buffer keeps its size, and every
token it prints ends at a NUL of the buffer. -/
def InBounds (msg : List UInt8) : Prop :=
  ∃ tokens buf, kvsSplitTokens [] msg = some (tokens, buf) ∧
    kvsProtoProcess msg = some (kvsProtoParser tokens, buf) ∧ tokens.length ≤ maxTokens ∧
    buf.length = msg.length ∧ ∀ token ∈ tokens, token ++ [0] <:+: buf

theorem Chunk.words_buffer (c : Chunk) : words c.buffer = words c.bytes := by
  rw [words, words, c.takeWhile_buffer]

/-- The tokenizing of a message stays in bounds if and only if the message has a NUL or leaves
room for one in the buffer, and has at most `maxTokens` words before its first NUL. -/
theorem tokenizing_inBounds_iff (c : Chunk) :
    InBounds c.buffer ↔
      (c.bytes.length = bufferSize → 0 ∈ c.bytes) ∧ (words c.bytes).length ≤ maxTokens := by
  rw [← c.mem_buffer, ← c.words_buffer]
  refine ⟨?_, ?_⟩
  · rintro ⟨tokens, buf, hsplit, -⟩
    have h := kvsSplitTokens_bounds (by simp) hsplit
    simpa using h
  · rintro ⟨hnul, hle⟩
    have hroom : ([] : List (List UInt8)).length + (words c.buffer).length ≤ maxTokens := by simpa using hle
    obtain ⟨buf, hbuf, hlen, hall⟩ := kvsSplitTokens_spec hnul hroom
    rw [List.nil_append] at hbuf
    exact ⟨_, buf, hbuf, by simp [kvsProtoProcess, hbuf], hle, hlen, hall⟩

/-- Seventeen words leave the token table, and a message of `bufferSize` letters the buffer. -/
theorem tokenizing_out_of_bounds :
    (¬InBounds (Chunk.buffer ⟨(List.replicate 17 [97, space]).flatten, by decide, by decide⟩)) ∧
      ¬InBounds (Chunk.buffer ⟨List.replicate bufferSize 97,
        mt (List.replicate_eq_nil_iff _).1 (by decide), List.length_replicate.le⟩) := by
  refine ⟨?_, ?_⟩
  · rintro ⟨tokens, buf, hsplit, -⟩
    obtain ⟨-, hle⟩ := kvsSplitTokens_bounds (by simp) hsplit
    rw [Chunk.words_buffer] at hle
    exact absurd hle (by decide)
  · rintro ⟨tokens, buf, hsplit, -⟩
    obtain ⟨hnul, -⟩ := kvsSplitTokens_bounds (by simp) hsplit
    have hmem := (Chunk.mem_buffer _).1 hnul List.length_replicate
    exact absurd (List.eq_of_mem_replicate hmem) (by decide)

end Server

end LearnSpdk
