import LearnSpdk.Proofs.MyfsApi
import LearnSpdk.Spec.MyfsBytes

/-! How many bytes a read or a write moves. The count of units is one more than the units
that fit into the size, so that more bytes are moved than were asked for, whatever the size. -/

namespace LearnSpdk

open Lib

namespace Myfs

variable {w w' w₁ w₂ u : World} {r : Reply} {rs : List Reply} {q : Request} {k : FileOp} {c : BlobCall}
  {f i op buf rbuf size n b : ℕ} {p : Replies} {fd : ℤ} {d : Bytes}

/-- The call that the message of a read or a write makes on a file of the blob `b`. -/
def FileOp.transfer (unitSize b : ℕ) : FileOp → Option BlobCall
  | .write buf size => some (.ioWrite b buf 0 (size / unitSize + 1))
  | .read buf size => some (.ioRead b buf 0 (size / unitSize + 1))
  | _ => none

/-- The request `q` of the operation `op` is the only one, and is pending or answered. -/
structure Alone (w₀ : World) (op : ℕ) (q : Request) (w : World) : Prop where
  unitSize : w.unitSize = w₀.unitSize
  blob : ∀ g, (w.heap g).blob = (w₀.heap g).blob
  others : ∀ i, i ≠ op → w.pending i = none
  request : (w.pending op = some q ∧ w.ran = w₀.ran) ∨
    w.pending op = none ∧ ∃ e, w.ran = w₀.ran ++ [⟨op, q.call, e⟩]

theorem blob_setDone (w : World) (f g : ℕ) (done : Bool) : ((w.setDone f done).heap g).blob = (w.heap g).blob := by
  rw [World.setDone, heap_setFile]
  split_ifs with h
  · rw [h]
  · rfl

theorem answer_transfer (hq : w.pending r.op = some q) (hc : q.call.stage = .ioWrite ∨ q.call.stage = .ioRead) :
    answer r w = some ((w.taken r q).setDone q.file true) := by
  unfold answer
  rw [hq]
  obtain ⟨f, call⟩ := q
  cases call <;> simp at hc <;> rfl

theorem Alone.answer (hc : q.call.stage = .ioWrite ∨ q.call.stage = .ioRead) {w₀ : World} (h : Alone w₀ op q w)
    (hr : answer r w = some w') : Alone w₀ op q w' := by
  cases hpending : w.pending r.op with
  | none =>
    have hsame : w = w' := by simpa [Myfs.answer, hpending] using hr
    exact hsame ▸ h
  | some q' =>
    have hop : r.op = op := by
      by_contra hne
      simp [h.others _ hne] at hpending
    rcases h.request with ⟨hq, hran⟩ | ⟨hnone, -⟩
    · obtain rfl : q = q' := Option.some.inj (hq.symm.trans (hop ▸ hpending))
      rw [answer_transfer hpending hc] at hr
      obtain rfl := Option.some.inj hr
      refine ⟨h.unitSize, fun g => (blob_setDone _ _ g _).trans (h.blob g), fun i hi => ?_, .inr ⟨?_, r.bserrno, ?_⟩⟩
      · simp [World.setDone, World.setFile, World.taken, Function.update_of_ne (hop ▸ hi), h.others i hi]
      · simp [World.setDone, World.setFile, World.taken, hop]
      · simp [World.setDone, World.setFile, World.taken, hran, hop]
    · rw [hop, hnone] at hpending
      cases hpending

theorem Alone.poll (hc : q.call.stage = .ioWrite ∨ q.call.stage = .ioRead) {w₀ : World} (h : Alone w₀ op q w)
    (hr : poll rs w = some w') : Alone w₀ op q w' := by
  induction rs generalizing w with
  | nil => exact Option.some.inj hr ▸ h
  | cons r rs ih =>
    obtain ⟨v, hv, hrest⟩ := Option.bind_eq_some_iff.1 hr
    exact ih (h.answer hc hv) hrest

theorem poll_of_idle (h : ∀ i, w.pending i = none) (rs : List Reply) : poll rs w = some w := by
  induction rs with
  | nil => rfl
  | cons r rs ih =>
    have hr : answer r w = some w := by simp [answer, h]
    rw [poll, hr, Option.bind_some, ih]

theorem FileOp.transfer_stage (hk : k.transfer n b = some c) : c.stage = .ioWrite ∨ c.stage = .ioRead := by
  cases k <;> simp_all [FileOp.transfer] <;> subst hk <;> simp

theorem begun_alone (hk : k.transfer w.unitSize b = some c) (hblob : (w.heap f).blob = some b)
    (hidle : ∀ i, w.pending i = none) (hu : k.message f w.ops (w.cleared f) = some u) :
    Alone w w.ops ⟨f, c⟩ u := by
  have hcleared : ((w.cleared f).heap f).blob = some b := (blob_setDone w f f false).trans hblob
  have hkept := (message_begun hu).blob
  cases k with
  | write | read =>
    obtain rfl := Option.some.inj hk
    obtain ⟨b', hb', rfl⟩ := Option.map_eq_some_iff.1 hu
    obtain rfl := Option.some.inj (hcleared.symm.trans hb')
    refine ⟨rfl, fun g => (hkept g).trans (blob_setDone w f g false), fun i hi => ?_, .inl ⟨?_, rfl⟩⟩
    · simp [World.submit, World.setFile, World.cleared, World.setDone, hi, hidle]
    · simp [World.submit, World.cleared, World.setDone, World.setFile]
  | _ => cases hk

/-- A descriptor of a file with the blob `b`, when no request is pending. -/
structure Ready (w : World) (fd : ℤ) (b : ℕ) : Prop where
  file : ∃ f, w.fileAt fd = some f ∧ (w.heap f).blob = some b
  idle : ∀ i, w.pending i = none

/-- Between the two worlds one request was answered, without an error. -/
def Served (w w' : World) : Prop := ∃ op call, w'.ran = w.ran ++ [⟨op, call, 0⟩]

/-- A read or a write that is served moves the bytes of its one call. -/
theorem Ready.transfer (h : Ready w fd b) (hk : k.transfer w.unitSize b = some c)
    (hop : ∃ f done, w.fileAt fd = some f ∧ operate k p f w = some (done, w')) (hserved : Served w w') :
    Ready w' fd b ∧ w'.unitSize = w.unitSize ∧
      ∃ a : Answered, a.call = c ∧ a.bserrno = 0 ∧ ∀ d : Bytes, d.moved w w' = d.serve w.unitSize a := by
  obtain ⟨f, hf, hblob⟩ := h.file
  obtain ⟨f', done, hf', hop⟩ := hop
  obtain rfl : f = f' := by simpa [hf] using hf'
  obtain ⟨-, -, v, u, n, hv, hu, -, -, hstop⟩ := operate_eq_some_iff.1 hop
  obtain rfl : w.cleared f = v := Option.some.inj ((poll_of_idle (w := w.cleared f) h.idle p.early).symm.trans hv)
  have halone : Alone w w.ops ⟨f, c⟩ w' :=
    (begun_alone hk hblob h.idle hu).poll (FileOp.transfer_stage hk) hstop.poll
  obtain ⟨i, call, hran⟩ := hserved
  obtain ⟨-, hran'⟩ | ⟨hpending, e, hran'⟩ := halone.request
  · simp [hran] at hran'
  · obtain ⟨rfl, rfl, rfl⟩ : i = w.ops ∧ call = c ∧ 0 = e := by simpa [hran] using hran'
    refine ⟨⟨⟨f, ?_, (halone.blob f).trans hblob⟩, fun i => ?_⟩, halone.unitSize, ⟨w.ops, call, 0⟩, rfl, rfl,
      fun d => ?_⟩
    · rw [← hf, World.fileAt, World.slot, (operate_tables hop).2.1]
      rfl
    · by_cases hi : i = w.ops
      · rwa [hi]
      · exact halone.others i hi
    · rw [Bytes.moved, hran', List.drop_left]
      rfl

theorem sized_operate
    (h : ((w.fileAt fd).bind fun f => (myfsFile k f p w).map fun x => (sizeT (x.2.heap f).ret, x.2)) =
      some (n, w')) :
    ∃ f done, w.fileAt fd = some f ∧ operate k p f w = some (done, w') := by
  obtain ⟨f, hf, hcall⟩ := Option.bind_eq_some_iff.1 h
  simp only [myfsFile, Option.map_map, Option.map_eq_some_iff, Function.comp_apply] at hcall
  obtain ⟨⟨done, v⟩, hop, hv⟩ := hcall
  obtain rfl := (Prod.mk.inj hv).2
  exact ⟨f, done, hf, hop⟩

theorem Ready.write (h : Ready w fd b) (hwrite : myfsWrite fd buf size p w = some (n, w'))
    (hserved : Served w w') :
    Ready w' fd b ∧ w'.unitSize = w.unitSize ∧
      ∀ d : Bytes, d.moved w w' = d.ioWrite w.unitSize b buf 0 (size / w.unitSize + 1) := by
  obtain ⟨hready, hunit, a, hcall, herr, hmoved⟩ := h.transfer rfl (sized_operate hwrite) hserved
  refine ⟨hready, hunit, fun d => ?_⟩
  rw [hmoved d, Bytes.serve, if_pos herr, hcall]

theorem Ready.read (h : Ready w fd b) (hread : myfsRead fd buf size p w = some (n, w'))
    (hserved : Served w w') :
    Ready w' fd b ∧ w'.unitSize = w.unitSize ∧
      ∀ d : Bytes, d.moved w w' = d.ioRead w.unitSize b buf 0 (size / w.unitSize + 1) := by
  obtain ⟨hready, hunit, a, hcall, herr, hmoved⟩ := h.transfer rfl (sized_operate hread) hserved
  refine ⟨hready, hunit, fun d => ?_⟩
  rw [hmoved d, Bytes.serve, if_pos herr, hcall]

/-- A write of `size` bytes from `buf` to the blob `b`, between `w` and `w₁`, and then a read of
as many to `rbuf`, between `w₁` and `w₂`, use no other bytes, and the read returns what was
written. The caller may change its memory before the read. -/
structure RequestedOnly (w w₁ w₂ : World) (b buf rbuf size : ℕ) (d : Bytes) : Prop where
  source : ∀ d' : Bytes, d'.blobs = d.blobs → (∀ i < size, d'.memory (buf + i) = d.memory (buf + i)) →
    (d'.moved w w₁).blobs = (d.moved w w₁).blobs
  blob : ∀ i ≥ size, (d.moved w w₁).blobs b i = d.blobs b i
  target : ∀ a, a < rbuf ∨ rbuf + size ≤ a → (d.moved w₁ w₂).memory a = d.memory a
  back : ∀ d' : Bytes, d'.blobs = (d.moved w w₁).blobs →
    ∀ i < size, (d'.moved w₁ w₂).memory (rbuf + i) = d.memory (buf + i)

theorem lt_units (hunit : 0 < n) (size : ℕ) : size < (size / n + 1) * n := by
  rw [Nat.mul_comm]
  exact Nat.lt_mul_div_succ size hunit

theorem ioWrite_blobs (d : Bytes) (b buf : ℕ) {count : ℕ} (h : i < count * n) :
    (d.ioWrite n b buf 0 count).blobs b i = d.memory (buf + i) := by
  have hcopy := (d.blobs b).copy_inside d.memory (0 * n) buf h
  rw [Nat.zero_mul, Nat.zero_add] at hcopy
  simpa [Bytes.ioWrite] using hcopy

theorem ioRead_memory (d : Bytes) (b buf : ℕ) {count : ℕ} (h : i < count * n) :
    (d.ioRead n b buf 0 count).memory (buf + i) = d.blobs b i := by
  have hcopy := d.memory.copy_inside (d.blobs b) buf (0 * n) h
  rw [Nat.zero_mul, Nat.zero_add] at hcopy
  simpa [Bytes.ioRead] using hcopy

theorem ioWrite_source (hunit : 0 < n) (d : Bytes) (b buf size : ℕ) :
    ∃ d' : Bytes, d'.blobs = d.blobs ∧ (∀ i < size, d'.memory (buf + i) = d.memory (buf + i)) ∧
      (d'.ioWrite n b buf 0 (size / n + 1)).blobs ≠ (d.ioWrite n b buf 0 (size / n + 1)).blobs := by
  have hsize := lt_units hunit size
  refine ⟨{ d with memory := d.memory.setByte (buf + size) (d.memory (buf + size) + 1) }, rfl,
    fun i hi => Memory.setByte_of_ne _ _ (by omega), fun heq => ?_⟩
  have hbyte := congrFun (congrFun heq b) size
  rw [ioWrite_blobs _ _ _ hsize, ioWrite_blobs _ _ _ hsize] at hbyte
  simp at hbyte

/-- No write and read keeps to the requested bytes, although the read returns what was
written. -/
theorem not_requestedOnly {n' : ℕ} {p' : Replies} (hready : Ready w fd b) (hunit : 0 < w.unitSize)
    (hwrite : myfsWrite fd buf size p w = some (n, w₁)) (hserved : Served w w₁)
    (hread : myfsRead fd rbuf size p' w₁ = some (n', w₂)) (hserved' : Served w₁ w₂) (d : Bytes) :
    (¬RequestedOnly w w₁ w₂ b buf rbuf size d) ∧
      ∀ d' : Bytes, d'.blobs = (d.moved w w₁).blobs →
        ∀ i < size, (d'.moved w₁ w₂).memory (rbuf + i) = d.memory (buf + i) := by
  obtain ⟨hready₁, hunit₁, hmoved⟩ := hready.write hwrite hserved
  obtain ⟨-, -, hmoved₁⟩ := hready₁.read hread hserved'
  refine ⟨fun h => ?_, fun d' hd' i hi => ?_⟩
  · obtain ⟨d', hblobs, hbytes, hne⟩ := ioWrite_source hunit d b buf size
    have hsource := h.source d' hblobs hbytes
    rw [hmoved, hmoved] at hsource
    exact hne hsource
  · have hsize := hi.trans (lt_units hunit size)
    rw [hmoved₁ d', hunit₁, ioRead_memory _ _ _ hsize, hd', hmoved d, ioWrite_blobs _ _ _ hsize]

def prompt (i : ℕ) : Replies := .always [⟨i, 0, 0, 0⟩]

theorem operate_sized (hf : w.fileAt fd = some f) (hop : operate k p f w = some (true, w')) :
    ((w.fileAt fd).bind fun f => (myfsFile k f p w).map fun x => (sizeT (x.2.heap f).ret, x.2)) =
      some (sizeT (w'.heap f).ret, w') := by
  rw [hf, Option.bind_some, myfsFile, hop]
  rfl

/-- The calls of `main` after `creat`: 128 bytes are written, and then read. -/
theorem main_calls : ∃ w₁ w₂ n n', Ready World.created 3 7 ∧ World.created.unitSize = 512 ∧
    myfsWrite 3 1000 128 (prompt 1) World.created = some (n, w₁) ∧ Served World.created w₁ ∧
    myfsRead 3 2000 128 (prompt 2) w₁ = some (n', w₂) ∧ Served w₁ w₂ := by
  obtain ⟨u₁, w₁, u₂, w₂, hu₁, hwrite, hdone, hran, hfile, hu₂, hread, hdone', hran'⟩ :
      ∃ u₁ w₁ u₂ w₂, FileOp.message (.write 1000 128) 0 World.created.ops (World.created.cleared 0) = some u₁ ∧
        poll [⟨1, 0, 0, 0⟩] u₁ = some w₁ ∧ (w₁.heap 0).done = true ∧ Served World.created w₁ ∧
        w₁.fileAt 3 = some 0 ∧ FileOp.message (.read 2000 128) 0 w₁.ops (w₁.cleared 0) = some u₂ ∧
        poll [⟨2, 0, 0, 0⟩] u₂ = some w₂ ∧ (w₂.heap 0).done = true ∧ Served w₁ w₂ :=
    ⟨_, _, _, _, rfl, rfl, rfl, ⟨_, _, rfl⟩, rfl, rfl, rfl, rfl, ⟨_, _, rfl⟩⟩
  have hsound : Sound World.created := (sound_initial 512).add create_initial
  have hidle : ∀ i, World.created.pending i = none
    | 0 => rfl
    | i + 1 => ledger_waits_none.1 (hsound.numbered (i + 1) (Nat.le_add_left 1 i)).1
  have hop₁ : operate (.write 1000 128) (prompt 1) 0 World.created = some (true, w₁) :=
    operate_of_poll (by decide) rfl hu₁ hwrite hdone
  have hop₂ : operate (.read 2000 128) (prompt 2) 0 w₁ = some (true, w₂) :=
    operate_of_poll (by decide) rfl hu₂ hread hdone'
  exact ⟨w₁, w₂, _, _, ⟨⟨0, rfl, rfl⟩, hidle⟩, rfl, operate_sized rfl hop₁, hran, operate_sized hfile hop₂, hran'⟩

theorem not_requestedOnly_main : ∃ w₁ w₂, Served World.created w₁ ∧ Served w₁ w₂ ∧
    ∀ d, ¬RequestedOnly World.created w₁ w₂ 7 1000 2000 128 d := by
  obtain ⟨w₁, w₂, n, n', hready, hunit, hwrite, hserved, hread, hserved'⟩ := main_calls
  have hpos : 0 < World.created.unitSize := by simp [hunit]
  exact ⟨w₁, w₂, hserved, hserved', fun d => (not_requestedOnly hready hpos hwrite hserved hread hserved' d).1⟩

/-- In `main` the byte of the file behind the written ones is overwritten, and so is the byte
behind the buffer of the read. -/
theorem main_moves_more : ∃ w₁ w₂ n n',
    myfsWrite 3 1000 128 (prompt 1) World.created = some (n, w₁) ∧ Served World.created w₁ ∧
    myfsRead 3 2000 128 (prompt 2) w₁ = some (n', w₂) ∧ Served w₁ w₂ ∧
    ((⟨fun _ => 72, fun _ _ => 0⟩ : Bytes).moved World.created w₁).blobs 7 128 = 72 ∧
    ((⟨fun _ => 72, fun _ _ => 0⟩ : Bytes).moved w₁ w₂).memory (2000 + 128) = 0 ∧
    ¬RequestedOnly World.created w₁ w₂ 7 1000 2000 128 ⟨fun _ => 72, fun _ _ => 0⟩ := by
  obtain ⟨w₁, w₂, n, n', hready, hunit, hwrite, hserved, hread, hserved'⟩ := main_calls
  obtain ⟨hready₁, hunit₁, hmoved⟩ := hready.write hwrite hserved
  obtain ⟨-, -, hmoved₁⟩ := hready₁.read hread hserved'
  have hblob : ((⟨fun _ => 72, fun _ _ => 0⟩ : Bytes).moved World.created w₁).blobs 7 128 = 72 := by
    rw [hmoved, hunit, ioWrite_blobs _ _ _ (by decide)]
  refine ⟨w₁, w₂, n, n', hwrite, hserved, hread, hserved', hblob, ?_, fun h => ?_⟩
  · rw [hmoved₁, hunit₁, hunit, ioRead_memory _ _ _ (by decide)]
  · have hsame := h.blob 128 le_rfl
    rw [hblob] at hsame
    exact absurd hsame (by decide)

end Myfs

end LearnSpdk
