import LearnSpdk.Proofs.MyfsLedger

/-! How the polling of an operation ends, and whether the operation completes, is read off the
replies and the state before it. -/

namespace LearnSpdk

namespace Myfs

variable {w w' v : World} {rs rs' : List Reply} {k : FileOp} {f g i n : ℕ} {p : Replies} {l : Ledger} {b : Bool}

/-- What the message of the operation `op` does, and what it leaves alone; only an open touches
`ret`. -/
structure Begun (k : FileOp) (f op : ℕ) (w w' : World) : Prop where
  unitSize : w'.unitSize = w.unitSize
  fdTable : w'.fdTable = w.fdTable
  files : w'.files = w.files
  mallocs : w'.mallocs = w.mallocs
  ops : w'.ops = w.ops
  ran : w'.ran = w.ran
  ret : k ≠ .open → ∀ g, (w'.heap g).ret = (w.heap g).ret
  done : ∀ g, (w'.heap g).done = (w.heap g).done
  blob : ∀ g, (w'.heap g).blob = (w.heap g).blob
  ledger : w.pending op = none → w'.ledger = w.ledger.begin k f op (w.heap f)

theorem message_isSome {op : ℕ} : (k.message f op w).isSome ↔ (k.UsesBlob → (w.heap f).blob.isSome) := by
  cases k with
  | «open» =>
    simp only [FileOp.message, doOpen, FileOp.UsesBlob]
    split_ifs <;> simp
  | _ => simp [FileOp.message, doCreate, doWrite, doRead, doClose, doRelease, FileOp.UsesBlob]

theorem begun_submit {op : ℕ} {call : BlobCall} {file : File} (hret : file.ret = (w.heap f).ret)
    (hdone : file.done = (w.heap f).done) (hblob : file.blob = (w.heap f).blob)
    (hstatus : file.status = k.statusOn (w.heap f)) (hcall : k.first (w.heap f) = some call.stage) :
    Begun k f op w ((w.setFile f file).submit f op call) := by
  refine ⟨rfl, rfl, rfl, rfl, rfl, rfl, fun _ g => ?_, fun g => ?_, fun g => ?_, fun _ => ?_⟩
  · by_cases hg : g = f <;> simp [World.submit, heap_setFile, hg, hret]
  · by_cases hg : g = f <;> simp [World.submit, heap_setFile, hg, hdone]
  · by_cases hg : g = f <;> simp [World.submit, heap_setFile, hg, hblob]
  · apply Ledger.ext
    · funext i
      simp only [World.ledger, World.submit, World.setFile, Ledger.begin, Function.update_apply, hcall]
      split_ifs <;> rfl
    · funext g
      by_cases hg : g = f <;> simp [World.ledger, World.submit, heap_setFile, Ledger.begin, hg, hstatus]

theorem message_begun {op : ℕ} (h : k.message f op w = some w') :
    Begun k f op w w' := by
  cases k with
  | create =>
    obtain rfl := Option.some.inj h
    exact begun_submit rfl rfl rfl (by simp [FileOp.statusOn, FileOp.status]) rfl
  | «open» =>
    simp only [FileOp.message, doOpen] at h
    split_ifs at h with hid
    · obtain rfl := Option.some.inj h
      refine ⟨rfl, rfl, rfl, rfl, rfl, rfl, fun hk => absurd rfl hk, fun g => ?_, fun g => ?_, fun hop => ?_⟩
      · by_cases hg : g = f <;> simp [heap_setFile, hg]
      · by_cases hg : g = f <;> simp [heap_setFile, hg]
      · apply Ledger.ext
        · funext i
          by_cases hi : i = op <;> simp [World.ledger, World.setFile, Ledger.begin, FileOp.first, hid, hi, hop]
        · funext g
          by_cases hg : g = f <;> simp [World.ledger, heap_setFile, Ledger.begin, FileOp.statusOn, hid, hg]
    · obtain rfl := Option.some.inj h
      exact begun_submit rfl rfl rfl (by simp [FileOp.statusOn, FileOp.status, hid]) (by simp [FileOp.first, hid])
  | write | read | close | release =>
    obtain ⟨blob, -, rfl⟩ := Option.map_eq_some_iff.1 h
    exact begun_submit rfl rfl rfl (by simp [FileOp.statusOn, FileOp.status]) rfl

theorem poll_append : poll (rs ++ rs') w = (poll rs w).bind (poll rs') := by
  induction rs generalizing w with
  | nil => rfl
  | cons r rs ih =>
    rw [List.cons_append, poll, poll, Option.bind_assoc]
    exact congrArg _ (funext fun v => ih)

@[simp] theorem Replies.upTo_zero (p : Replies) : p.upTo 0 = [] := rfl

theorem Replies.upTo_succ (p : Replies) (n : ℕ) : p.upTo (n + 1) = p.upTo n ++ p.polls n := by
  simp [Replies.upTo, List.range_succ]

/-- The polling from `w` on ends with the poll `n`, the first one after which the flag of the
file is set, or the last one there is. -/
structure StopsAt (p : Replies) (f : ℕ) (w : World) (last n : ℕ) (w' : World) : Prop where
  poll : poll (p.upTo n) w = some w'
  running : ∀ m, 0 < m → m < n → ∀ v, Myfs.poll (p.upTo m) w = some v → (v.heap f).done = false
  stop : (w'.heap f).done = true ∨ n = last

theorem Replies.upTo_le (p : Replies) {m : ℕ} (h : n ≤ m) : ∃ rs, p.upTo m = p.upTo n ++ rs := by
  induction m, h using Nat.le_induction with
  | base => exact ⟨[], by simp⟩
  | succ m _ ih =>
    obtain ⟨rs, hrs⟩ := ih
    exact ⟨rs ++ p.polls m, by rw [Replies.upTo_succ, hrs, List.append_assoc]⟩

theorem poll_upTo_le {m : ℕ} (hm : n ≤ m) (h : poll (p.upTo m) w = some w') :
    ∃ v, poll (p.upTo n) w = some v := by
  obtain ⟨rs, hrs⟩ := p.upTo_le hm
  rw [hrs, poll_append, Option.bind_eq_some_iff] at h
  obtain ⟨v, hv, -⟩ := h
  exact ⟨v, hv⟩

theorem pollLoop_eq_some_iff {count : ℕ} (hv : poll (p.upTo count) w = some v)
    (hrun : ∀ m, 0 < m → m ≤ count → ∀ v, poll (p.upTo m) w = some v → (v.heap f).done = false) :
    pollLoop p.polls f (n + 1) count v = some (b, w') ↔
      b = (w'.heap f).done ∧ ∃ m, count < m ∧ m ≤ count + n + 1 ∧ StopsAt p f w (count + n + 1) m w' := by
  induction n generalizing count v with
  | zero =>
    have hnext : poll (p.upTo (count + 1)) w = poll (p.polls count) v := by
      rw [Replies.upTo_succ, poll_append, hv, Option.bind_some]
    have hloop : pollLoop p.polls f (0 + 1) count v =
        (poll (p.polls count) v).map fun u => ((u.heap f).done, u) := by
      cases hu : poll (p.polls count) v with
      | none => simp [pollLoop, hu]
      | some u => cases hdone : (u.heap f).done <;> simp [pollLoop, hu, hdone]
    rw [hloop, ← hnext, Option.map_eq_some_iff]
    refine ⟨?_, ?_⟩
    · rintro ⟨u, hu, heq⟩
      obtain ⟨rfl, rfl⟩ := Prod.mk.inj heq
      exact ⟨rfl, count + 1, by omega, by omega, hu, fun m hm hlt => hrun m hm (by omega), .inr rfl⟩
    · rintro ⟨rfl, m, hlt, hle, hstop⟩
      obtain rfl : m = count + 1 := by omega
      exact ⟨w', hstop.poll, rfl⟩
  | succ n ih =>
    have hnext : poll (p.upTo (count + 1)) w = poll (p.polls count) v := by
      rw [Replies.upTo_succ, poll_append, hv, Option.bind_some]
    rw [pollLoop]
    cases hu : poll (p.polls count) v with
    | none =>
      simp only [Option.bind_none, reduceCtorEq, false_iff]
      rintro ⟨-, m, hlt, -, hstop⟩
      obtain ⟨u, hu'⟩ := poll_upTo_le (n := count + 1) (by omega) hstop.poll
      rw [hnext, hu] at hu'
      cases hu'
    | some u =>
      rw [hu] at hnext
      rw [Option.bind_some]
      split_ifs with hdone
      · simp only [Option.some.injEq, Prod.mk.injEq]
        refine ⟨?_, ?_⟩
        · rintro ⟨rfl, rfl⟩
          exact ⟨hdone.symm, count + 1, by omega, by omega, hnext, fun m hm hlt => hrun m hm (by omega), .inl hdone⟩
        · rintro ⟨rfl, m, hlt, hle, hstop⟩
          -- no later poll is made
          obtain rfl : m = count + 1 := by
            by_contra hne
            have hfalse := hstop.running (count + 1) (by omega) (by omega) u hnext
            simp [hdone] at hfalse
          obtain rfl := Option.some.inj (hnext.symm.trans hstop.poll)
          exact ⟨hdone.symm, rfl⟩
      · have hrun' : ∀ m, 0 < m → m ≤ count + 1 → ∀ v, poll (p.upTo m) w = some v → (v.heap f).done = false := by
          intro m hm hle v hv
          rcases Nat.lt_or_eq_of_le hle with hlt | rfl
          · exact hrun m hm (by omega) v hv
          · obtain rfl := Option.some.inj (hnext.symm.trans hv)
            simpa using hdone
        rw [ih hnext hrun', show count + 1 + n + 1 = count + (n + 1) + 1 by omega]
        refine and_congr_right fun _ => ⟨?_, ?_⟩
        · rintro ⟨m, hlt, h⟩
          exact ⟨m, by omega, h⟩
        · rintro ⟨m, hlt, hle, hstop⟩
          refine ⟨m, ?_, hle, hstop⟩
          rcases Nat.lt_or_eq_of_le hlt with hlt | rfl
          · exact hlt
          · -- the flag is not set after this poll
            obtain rfl := Option.some.inj (hnext.symm.trans hstop.poll)
            rcases hstop.stop with hstop | hlast
            · exact absurd hstop hdone
            · omega

/-- How the call of `poller` ends: `v` is the state when the message starts, `u` the one when
it was run, and `n` polls were made. -/
theorem operate_eq_some_iff : operate k p f w = some (b, w') ↔
    b = (w'.heap f).done ∧ k.Asserts ∧ ∃ v u n, poll p.early (w.cleared f) = some v ∧
      k.message f w.ops v = some u ∧ 0 < n ∧ n ≤ POLLER_MAX_TIME ∧ StopsAt p f u POLLER_MAX_TIME n w' := by
  have hloop : ∀ u, pollLoop p.polls f POLLER_MAX_TIME 0 u = some (b, w') ↔
      b = (w'.heap f).done ∧ ∃ n, 0 < n ∧ n ≤ POLLER_MAX_TIME ∧ StopsAt p f u POLLER_MAX_TIME n w' := by
    intro u
    have hstart : poll (p.upTo 0) u = some u := rfl
    rw [show POLLER_MAX_TIME = 0 + 99999999 + 1 from rfl]
    exact pollLoop_eq_some_iff hstart (by omega)
  unfold operate poller
  split_ifs with hk
  · simp only [Option.bind_eq_some_iff, hloop, hk, true_and]
    refine ⟨?_, ?_⟩
    · rintro ⟨v, hv, u, hu, hb, n, h⟩
      exact ⟨hb, v, u, n, hv, hu, h⟩
    · rintro ⟨hb, v, u, n, hv, hu, h⟩
      exact ⟨v, hv, u, hu, hb, n, h⟩
  · simp [hk]

def Numbered (w : World) : Prop := ∀ i, w.ops ≤ i → w.ledger.waits i = none ∧ w.answered i = []

theorem Polled.numbered (h : Polled w rs w') (hw : Numbered w) : Numbered w' := by
  intro i hi
  obtain ⟨hwaits, hran⟩ := hw i (h.kept.ops ▸ hi)
  refine ⟨by rw [h.ledger, Ledger.after_of_none hwaits], ?_⟩
  rw [h.ran, hran, Ledger.answersTo_of_none hwaits]
  rfl

theorem cleared_numbered (hw : Numbered w) (f : ℕ) : Numbered (w.cleared f) := fun i hi => hw i (Nat.le_of_succ_le hi)

theorem cleared_ledger (w : World) (f : ℕ) : (w.cleared f).ledger = w.ledger := by
  apply Ledger.ext
  · rfl
  · funext g
    by_cases hg : g = f <;> simp [World.ledger, World.cleared, World.setDone, heap_setFile, hg]

theorem early_ledger (hv : poll p.early (w.cleared f) = some v) : v.ledger = w.ledger.after p.early := by
  rw [(poll_polled hv).ledger, cleared_ledger]

section Operation
variable {u x : World} (hv : poll p.early (w.cleared f) = some v) (hu : k.message f w.ops v = some u)
include hv hu

theorem begun_done : (u.heap f).done = true ↔ w.ledger.Gets f p.early Answer.SetsDone := by
  rw [(message_begun hu).done, (poll_polled hv).done, cleared_ledger]
  simp [World.cleared, World.setDone, heap_setFile]

theorem begun_blob : (u.heap g).blob.isSome ↔ (w.heap g).blob.isSome ∨ w.ledger.Gets g p.early Answer.Opens := by
  rw [(message_begun hu).blob, (poll_polled hv).blob, cleared_ledger]
  by_cases hg : g = f <;> simp [World.cleared, World.setDone, heap_setFile, hg]

variable (hw : Numbered w)
include hw

theorem begun_ledger : u.ledger = (w.ledger.after p.early).begin k f w.ops (v.heap f) := by
  have hpending : v.pending w.ops = none := by
    rw [← ledger_waits_none, early_ledger hv]
    exact Ledger.after_of_none (hw w.ops le_rfl).1 _
  rw [(message_begun hu).ledger hpending, early_ledger hv]

theorem begun_numbered : Numbered u := by
  have hearly := poll_polled hv
  have hmessage := message_begun hu
  intro i hi
  rw [hmessage.ops, hearly.kept.ops] at hi
  have hne : i ≠ w.ops := (Nat.lt_of_succ_le hi).ne'
  obtain ⟨hwaits, hran⟩ := hearly.numbered (cleared_numbered hw f) i (hearly.kept.ops ▸ hi)
  refine ⟨?_, ?_⟩
  · rw [begun_ledger hv hu hw, ← early_ledger hv]
    simpa [Ledger.begin, Function.update_of_ne hne] using hwaits
  · rw [World.answered, hmessage.ran]
    exact hran

/-- No call of the operation itself is answered before its message. -/
theorem begun_answered : u.answered w.ops = [] := by
  obtain ⟨hwaits, hran⟩ := hw w.ops le_rfl
  have hearly : v.answered w.ops = [] := by
    rw [(poll_polled hv).ran, cleared_ledger, Ledger.answersTo_of_none hwaits, List.map_nil, List.append_nil]
    exact hran
  rw [World.answered, (message_begun hu).ran]
  exact hearly

variable (hopen : k = .open → ∀ i s, w.ledger.waits i ≠ some (f, s))
include hopen

/-- No reply changes what an open is told by its file, since no operation waits on it. -/
theorem begun_eq : u.ledger = p.begun k f w := by
  have hfirst : k.first (v.heap f) = k.first (w.heap f) ∧ k.statusOn (v.heap f) = k.statusOn (w.heap f) := by
    by_cases hk : k = .open
    · have hidle : v.heap f = { w.heap f with done := false } := by
        rw [(poll_polled hv).idle f (by rw [cleared_ledger]; exact hopen hk)]
        simp [World.cleared, World.setDone, heap_setFile]
      rw [hidle]
      exact ⟨rfl, rfl⟩
    · cases k <;> simp_all [FileOp.first, FileOp.statusOn]
  rw [begun_ledger hv hu hw, Replies.begun, Ledger.begin, Ledger.begin, hfirst.1, hfirst.2]

theorem begun_poll_done (hx : poll (p.upTo n) u = some x) :
    (x.heap f).done = true ↔ p.Gets k f w n f Answer.SetsDone := by
  rw [(poll_polled hx).done, begun_done hv hu, begun_eq hv hu hw hopen, Replies.Gets]

theorem begun_poll_own (hx : poll (p.upTo n) u = some x) :
    x.answered w.ops = (p.own k f w n).map fun a => (a.stage, a.bserrno) := by
  rw [(poll_polled hx).ran, begun_answered hv hu hw, begun_eq hv hu hw hopen, Replies.own, List.nil_append]

end Operation

/-- The polling ends as the replies say, with what they say of the operation. -/
theorem endsAt_of_operate (hw : Numbered w) (hopen : k = .open → ∀ i s, w.ledger.waits i ≠ some (f, s))
    (h : operate k p f w = some (b, w')) :
    ∃ n, p.EndsAt k f w n ∧ w'.answered w.ops = (p.own k f w n).map fun a => (a.stage, a.bserrno) := by
  obtain ⟨-, hk, v, u, n, hv, hu, hpos, hle, hstop⟩ := operate_eq_some_iff.1 h
  have hearly := poll_isSome.1 (Option.isSome_iff_exists.2 ⟨v, hv⟩)
  have hlate := poll_isSome.1 (Option.isSome_iff_exists.2 ⟨w', hstop.poll⟩)
  rw [cleared_ledger] at hearly
  rw [begun_eq hv hu hw hopen] at hlate
  refine ⟨n, ⟨hk, fun huses => ?_, hpos, hle, fun g => ?_, fun m hm hlt => ?_, ?_⟩,
    begun_poll_own hv hu hw hopen hstop.poll⟩
  · have hblob := message_isSome.1 (Option.isSome_iff_exists.2 ⟨u, hu⟩) huses
    rwa [← (message_begun hu).blob, begun_blob hv hu] at hblob
  · rintro (hcrash | hcrash)
    · exact hearly g hcrash
    · exact hlate g hcrash
  · obtain ⟨x, hx⟩ := poll_upTo_le hlt.le hstop.poll
    rw [← begun_poll_done hv hu hw hopen hx, hstop.running m hm hlt x hx]
    simp
  · rw [← begun_poll_done hv hu hw hopen hstop.poll]
    exact hstop.stop

theorem operate_of_endsAt (hw : Numbered w) (hopen : k = .open → ∀ i s, w.ledger.waits i ≠ some (f, s))
    (h : p.EndsAt k f w n) : ∃ b w', operate k p f w = some (b, w') ∧
      w'.answered w.ops = (p.own k f w n).map fun a => (a.stage, a.bserrno) := by
  obtain ⟨v, hv⟩ : ∃ v, poll p.early (w.cleared f) = some v := by
    rw [← Option.isSome_iff_exists, poll_isSome, cleared_ledger]
    exact fun g hcrash => h.defined g (.inl hcrash)
  obtain ⟨u, hu⟩ : ∃ u, k.message f w.ops v = some u := by
    rw [← Option.isSome_iff_exists, message_isSome, (poll_polled hv).blob, cleared_ledger]
    intro huses
    simpa [World.cleared, World.setDone, heap_setFile] using h.blob huses
  obtain ⟨w', hw'⟩ : ∃ w', poll (p.upTo n) u = some w' := by
    rw [← Option.isSome_iff_exists, poll_isSome, begun_eq hv hu hw hopen]
    exact fun g hcrash => h.defined g (.inr hcrash)
  refine ⟨(w'.heap f).done, w', operate_eq_some_iff.2 ⟨rfl, h.asserts, v, u, n, hv, hu, h.pos, h.le, hw', ?_, ?_⟩,
    begun_poll_own hv hu hw hopen hw'⟩
  · intro m hm hlt x hx
    have hnot := h.first m hm hlt
    rwa [← begun_poll_done hv hu hw hopen hx, Bool.not_eq_true] at hnot
  · rw [begun_poll_done hv hu hw hopen hw']
    exact h.last

theorem operate_tables (h : operate k p f w = some (b, w')) : w'.fdTable = w.fdTable ∧ w'.files = w.files ∧
    w'.mallocs = w.mallocs ∧ w'.ops = w.ops + 1 ∧ w'.unitSize = w.unitSize := by
  obtain ⟨-, -, v, u, n, hv, hu, -, -, hstop⟩ := operate_eq_some_iff.1 h
  have hearly := (poll_polled hv).kept
  have hmessage := message_begun hu
  have hlate := (poll_polled hstop.poll).kept
  exact ⟨hlate.fdTable.trans (hmessage.fdTable.trans hearly.fdTable),
    hlate.files.trans (hmessage.files.trans hearly.files),
    hlate.mallocs.trans (hmessage.mallocs.trans hearly.mallocs),
    hlate.ops.trans (hmessage.ops.trans hearly.ops),
    hlate.unitSize.trans (hmessage.unitSize.trans hearly.unitSize)⟩

theorem operate_ret (hk : k ≠ .open) (h : operate k p f w = some (b, w')) : (w'.heap g).ret = (w.heap g).ret := by
  obtain ⟨-, -, v, u, n, hv, hu, -, -, hstop⟩ := operate_eq_some_iff.1 h
  rw [(poll_polled hstop.poll).kept.ret, (message_begun hu).ret hk, (poll_polled hv).kept.ret]
  by_cases hg : g = f <;> simp [World.cleared, World.setDone, heap_setFile, hg]

theorem Numbered.operate (hw : Numbered w) (h : operate k p f w = some (b, w')) : Numbered w' := by
  obtain ⟨-, -, v, u, n, hv, hu, -, -, hstop⟩ := operate_eq_some_iff.1 h
  exact (poll_polled hstop.poll).numbered (begun_numbered hv hu hw)

theorem operate_isSome (hw : Numbered w) (hopen : k = .open → ∀ i s, w.ledger.waits i ≠ some (f, s)) :
    (operate k p f w).isSome ↔ p.Returns k f w := by
  refine ⟨?_, ?_⟩
  · intro h
    obtain ⟨⟨b, w'⟩, hb⟩ := Option.isSome_iff_exists.1 h
    obtain ⟨n, hn, -⟩ := endsAt_of_operate hw hopen hb
    exact ⟨n, hn⟩
  · rintro ⟨n, hn⟩
    obtain ⟨b, w', h, -⟩ := operate_of_endsAt hw hopen hn
    exact Option.isSome_iff_exists.2 ⟨(b, w'), h⟩

/-- The completion callback of the operation `i` has run. -/
def Completed (w : World) (i : ℕ) (k : FileOp) : Prop := ∃ a ∈ w.ran, a.op = i ∧ a.call.stage = k.last

/-- A callback of the operation `i` reported an error. That there is no super blob is none. -/
def Reported (w : World) (i : ℕ) : Prop :=
  ∃ a ∈ w.ran, a.op = i ∧ a.bserrno ≠ 0 ∧ ¬(a.call = .getSuper ∧ a.bserrno = -ENOENT)

theorem mem_answered {s : Stage} {e : ℤ} :
    (s, e) ∈ w.answered i ↔ ∃ a ∈ w.ran, a.op = i ∧ a.call.stage = s ∧ a.bserrno = e := by
  simp [World.answered, and_assoc]

theorem completed_iff : Completed w i k ↔ ∃ e, (k.last, e) ∈ w.answered i := by
  simp only [Completed, mem_answered]
  refine ⟨?_, ?_⟩
  · rintro ⟨a, ha, hop, hlast⟩
    exact ⟨a.bserrno, a, ha, hop, hlast, rfl⟩
  · rintro ⟨e, a, ha, hop, hlast, -⟩
    exact ⟨a, ha, hop, hlast⟩

theorem stage_eq_getSuper {call : BlobCall} : call.stage = .getSuper ↔ call = .getSuper := by
  cases call <;> simp

theorem reported_iff : Reported w i ↔
    ∃ s e, (s, e) ∈ w.answered i ∧ e ≠ 0 ∧ ¬(s = .getSuper ∧ e = -ENOENT) := by
  simp only [Reported, mem_answered]
  refine ⟨?_, ?_⟩
  · rintro ⟨a, ha, hop, he, hsuper⟩
    exact ⟨a.call.stage, a.bserrno, ⟨a, ha, hop, rfl, rfl⟩, he, by rwa [stage_eq_getSuper]⟩
  · rintro ⟨s, e, ⟨a, ha, hop, rfl, rfl⟩, he, hsuper⟩
    exact ⟨a, ha, hop, he, by rwa [← stage_eq_getSuper]⟩

def FileOp.Makes : FileOp → Stage → Prop
  | .create, s => s = .getSuper ∨ s = .createBlob ∨ s = .openBlob ∨ s = .resize
  | .open, s => s = .openBlob ∨ s = .resize
  | .write _ _, s => s = .ioWrite
  | .read _ _, s => s = .ioRead
  | .close, s => s = .closeBlob
  | .release, s => s = .closeBlob ∨ s = .deleteBlob

theorem FileOp.Makes.setsDone {s : Stage} (h : k.Makes s) (e : ℤ) :
    Answer.SetsDone ⟨s, k.status, e⟩ ↔ s = k.last := by
  cases k <;> cases s <;> simp_all [FileOp.Makes, Answer.SetsDone, FileOp.status, FileOp.last]

theorem FileOp.Makes.next {s s' : Stage} {e : ℤ} (h : k.Makes s)
    (hnext : Answer.next ⟨s, k.status, e⟩ = some s') : k.Makes s' := by
  cases k <;> cases s <;> simp_all [FileOp.Makes, Answer.next, FileOp.status]
  all_goals grind

/-- Only the last call of an operation ends the polling. -/
theorem answers_setsDone {s : Stage} {es : List ℤ} (h : k.Makes s) {a : Answer}
    (ha : a ∈ answers k.status (some s) es) : a.SetsDone ↔ a.stage = k.last := by
  induction es generalizing s with
  | nil => simp at ha
  | cons e es ih =>
    rw [answers, List.mem_cons] at ha
    rcases ha with rfl | ha
    · exact h.setsDone e
    · cases hnext : Answer.next ⟨s, k.status, e⟩ with
      | none => simp [hnext] at ha
      | some s' => exact ih (h.next hnext) (hnext ▸ ha)

theorem first_makes {file : File} {s : Stage} (h : k.first file = some s) :
    k.Makes s ∧ k.statusOn file = k.status := by
  cases k with
  | «open» =>
    simp only [FileOp.first] at h
    split_ifs at h with hid
    obtain rfl := Option.some.inj h
    simp [FileOp.Makes, FileOp.statusOn, hid]
  | _ =>
    obtain rfl := Option.some.inj h
    simp [FileOp.Makes, FileOp.statusOn]

/-- The flag stands for the completion of the operation, as far as its own answers go. -/
theorem begin_setsDone {file : File} {op : ℕ} {a : Answer} (ha : a ∈ (l.begin k f op file).answersTo rs op) :
    a.SetsDone ↔ a.stage = k.last := by
  have hwaits : (l.begin k f op file).waits op = (k.first file).map fun s => (f, s) := by
    simp [Ledger.begin]
  cases hfirst : k.first file with
  | none =>
    rw [hfirst] at hwaits
    simp [Ledger.answersTo_of_none hwaits] at ha
  | some s =>
    rw [hfirst] at hwaits
    obtain ⟨hmakes, hstatus⟩ := first_makes hfirst
    have hst : (l.begin k f op file).status f = k.status := by simp [Ledger.begin, hstatus]
    rw [Ledger.answersTo_of_some hwaits, hst] at ha
    exact answers_setsDone hmakes ha

/-- Whether an operation returns when its completion callback has run, without an error, is
read off the replies. -/
theorem operate_completes (hw : Numbered w) (hopen : k = .open → ∀ i s, w.ledger.waits i ≠ some (f, s)) :
    (∃ b w', operate k p f w = some (b, w') ∧ Completed w' w.ops k ∧ ¬Reported w' w.ops) ↔
      p.Completes k f w := by
  have hiff : ∀ {n w'}, w'.answered w.ops = (p.own k f w n).map (fun a => (a.stage, a.bserrno)) →
      (Completed w' w.ops k ∧ ¬Reported w' w.ops ↔
        (∃ a ∈ p.own k f w n, a.SetsDone) ∧ ∀ a ∈ p.own k f w n, ¬a.Reports) := by
    intro n w' hown
    rw [completed_iff, reported_iff, hown]
    simp only [List.mem_map, Prod.mk.injEq, Answer.Reports]
    refine and_congr ⟨?_, ?_⟩ ⟨?_, ?_⟩
    · rintro ⟨e, a, ha, hlast, -⟩
      exact ⟨a, ha, (begin_setsDone ha).2 hlast⟩
    · rintro ⟨a, ha, hdone⟩
      exact ⟨a.bserrno, a, ha, (begin_setsDone ha).1 hdone, rfl⟩
    · intro h a ha hreports
      exact h ⟨_, _, ⟨a, ha, rfl, rfl⟩, hreports⟩
    · rintro h ⟨_, _, ⟨a, ha, rfl, rfl⟩, hreports⟩
      exact h a ha hreports
  refine ⟨?_, ?_⟩
  · rintro ⟨b, w', h, hok⟩
    obtain ⟨n, hn, hown⟩ := endsAt_of_operate hw hopen h
    exact ⟨n, hn, (hiff hown).1 hok⟩
  · rintro ⟨n, hn, hok⟩
    obtain ⟨b, w', h, hown⟩ := operate_of_endsAt hw hopen hn
    exact ⟨b, w', h, (hiff hown).2 hok⟩

end Myfs

end LearnSpdk
