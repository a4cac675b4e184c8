import LearnSpdk.Proofs.FdTable
import LearnSpdk.Proofs.MyfsFile

/-! The calls of `myfs` on descriptors: what they report, and what they leave in the tables. -/

namespace LearnSpdk

open Lib

namespace Myfs

variable {w w' : World} {k : FileOp} {f g i n : ℕ} {p : Replies} {b : Bool} {fd r : ℤ}

def World.prepared (w : World) : World :=
  ({ w with fdTable := (getFdFromBitmap w.fdTable).2 }.malloc).2

theorem addFile_eq (k : FileOp) (p : Replies) (w : World) :
    addFile (myfsFile k) p w = (operate k p w.mallocs w.prepared).bind fun x =>
      (x.2.setSlot (getFdFromBitmap w.fdTable).1 w.mallocs).map fun v => ((getFdFromBitmap w.fdTable).1, v) := by
  simp only [addFile, myfsFile, World.prepared, World.malloc]
  cases operate k p w.mallocs _ <;> rfl

/-- A call adds a file if a descriptor is free and its operation returns, whatever becomes of
the operation. -/
theorem addFile_some_iff :
    addFile (myfsFile k) p w = some (r, w') ↔
      ∃ n b v, LeastFree w.fdTable n ∧ r = n ∧ operate k p w.mallocs w.prepared = some (b, v) ∧
        w' = { v with files := Function.update v.files n (some w.mallocs) } := by
  rw [addFile_eq, Option.bind_eq_some_iff]
  rcases getFdFromBitmap_cases w.fdTable with ⟨n, hn, hget⟩ | ⟨hfull, hget⟩
  · have hrange : (0 : ℤ) ≤ n ∧ (n : ℤ) < MAX_FD_COUNT := ⟨by omega, by exact_mod_cast hn.1.2.1⟩
    simp only [hget, World.setSlot, hrange, and_self, if_true, Option.map_some, Option.some.injEq,
      Prod.mk.injEq, Int.toNat_natCast]
    refine ⟨?_, ?_⟩
    · rintro ⟨⟨b, v⟩, hv, rfl, rfl⟩
      exact ⟨n, b, v, hn, rfl, hv, rfl⟩
    · rintro ⟨m, b, v, hm, rfl, hv, rfl⟩
      obtain rfl := hm.unique hn
      exact ⟨(b, v), hv, rfl, rfl⟩
  · simp only [hget, World.setSlot]
    refine ⟨?_, ?_⟩
    · rintro ⟨x, -, hx⟩
      simp at hx
    · rintro ⟨n, b, v, hn, -⟩
      exact absurd hn.1 (hfull n)

theorem addFile_tables (hn : LeastFree w.fdTable n) (h : operate k p w.mallocs w.prepared = some (b, w')) :
    w'.fdTable = setBit w.fdTable n ∧ w'.files = w.files ∧ w'.mallocs = w.mallocs + 1 := by
  obtain ⟨ht, hf, hm, -⟩ := operate_tables h
  refine ⟨?_, hf, hm⟩
  rw [ht]
  simp only [World.prepared, World.malloc, World.setFile, getFdFromBitmap_of_leastFree hn]

theorem fileAt_eq_some : w.fileAt fd = some f ↔ ∃ n, n < MAX_FD_COUNT ∧ fd = (n : ℤ) ∧ w.files n = some f := by
  unfold World.fileAt World.slot
  split_ifs with h
  · simp only [Option.join_some]
    refine ⟨?_, ?_⟩
    · intro hf
      exact ⟨fd.toNat, by omega, by omega, hf⟩
    · rintro ⟨n, -, rfl, hf⟩
      rwa [Int.toNat_natCast]
  · simp only [Option.join_none, reduceCtorEq, false_iff]
    rintro ⟨n, hn, rfl, -⟩
    exact h ⟨by omega, by exact_mod_cast hn⟩

theorem myfsClose_some_iff :
    myfsClose fd p w = some (r, w') ↔
      ∃ n f b v, n < MAX_FD_COUNT ∧ fd = (n : ℤ) ∧ w.files n = some f ∧ operate .close p f w = some (b, v) ∧
        r = (v.heap f).ret.toInt ∧ w' = { v with fdTable := clearBit v.fdTable n } := by
  simp only [myfsClose, myfsFileClose, myfsFile, Option.bind_eq_some_iff, fileAt_eq_some,
    Option.map_map, Option.map_eq_some_iff, Function.comp_apply]
  refine ⟨?_, ?_⟩
  · rintro ⟨f, ⟨n, hn, rfl, hf⟩, ⟨b, v⟩, hv, h⟩
    obtain ⟨rfl, rfl⟩ := Prod.mk.inj h
    refine ⟨n, f, b, v, hn, rfl, hf, hv, rfl, ?_⟩
    rw [Int.toNat_natCast, setFdToBitmap_snd hn]
  · rintro ⟨n, f, b, v, hn, rfl, hf, hv, rfl, rfl⟩
    refine ⟨f, ⟨n, hn, rfl, hf⟩, (b, v), hv, ?_⟩
    simp only [Int.toNat_natCast, setFdToBitmap_snd hn]

/-- The operations are numbered, and they wait on files that were allocated, which the slots
hold as well: so it is in every world that the calls lead to. -/
structure Sound (w : World) : Prop where
  numbered : Numbered w
  waits : ∀ i f s, w.ledger.waits i = some (f, s) → f < w.mallocs
  slots : ∀ n f, w.files n = some f → f < w.mallocs

theorem sound_initial (unitSize : ℕ) : Sound (World.initial unitSize) :=
  ⟨fun _ _ => ⟨rfl, rfl⟩, by simp [World.initial, World.ledger], by simp [World.initial]⟩

theorem operate_waits (hw : Numbered w) (h : operate k p f w = some (b, w')) {s : Stage}
    (hi : w'.ledger.waits i = some (g, s)) : g = f ∨ ∃ s', w.ledger.waits i = some (g, s') := by
  obtain ⟨-, -, v, u, n, hv, hu, -, -, hstop⟩ := operate_eq_some_iff.1 h
  rw [(poll_polled hstop.poll).ledger] at hi
  obtain ⟨s', hi⟩ := Ledger.waits_of_after hi
  rw [begun_ledger hv hu hw] at hi
  simp only [Ledger.begin, Function.update_apply] at hi
  split_ifs at hi
  · obtain ⟨t, -, heq⟩ := Option.map_eq_some_iff.1 hi
    exact .inl (Prod.mk.inj heq).1.symm
  · exact .inr (Ledger.waits_of_after hi)

theorem Sound.prepared_numbered (hw : Sound w) : Numbered w.prepared := hw.numbered

theorem Sound.new (hw : Sound w) (i : ℕ) (s : Stage) : w.prepared.ledger.waits i ≠ some (w.mallocs, s) := by
  intro h
  exact absurd (hw.waits i w.mallocs s h) (lt_irrefl _)

theorem Sound.add (hw : Sound w) (h : addFile (myfsFile k) p w = some (r, w')) : Sound w' := by
  obtain ⟨n, b, v, hn, -, hv, rfl⟩ := addFile_some_iff.1 h
  obtain ⟨-, hf, hm⟩ := addFile_tables hn hv
  have hnumbered : Numbered v := hw.prepared_numbered.operate hv
  refine ⟨hnumbered, fun i f s hi => ?_, fun m f hslot => ?_⟩
  · change f < v.mallocs
    rw [hm]
    rcases operate_waits hw.prepared_numbered hv hi with rfl | ⟨s', hi⟩
    · exact Nat.lt_succ_self _
    · exact Nat.lt_succ_of_lt (hw.waits i f s' hi)
  · change f < v.mallocs
    rw [hm]
    simp only [hf, Function.update_apply] at hslot
    split_ifs at hslot
    · exact Nat.lt_succ_of_le (Option.some.inj hslot).ge
    · exact Nat.lt_succ_of_lt (hw.slots m f hslot)

theorem Sound.operate (hw : Sound w) (hf : f < w.mallocs) (h : operate k p f w = some (b, w')) : Sound w' := by
  obtain ⟨-, hfiles, hm, -⟩ := operate_tables h
  refine ⟨hw.numbered.operate h, fun i g s hi => ?_, fun n g hslot => ?_⟩
  · rw [hm]
    rcases operate_waits hw.numbered h hi with rfl | ⟨s', hi⟩
    · exact hf
    · exact hw.waits i g s' hi
  · rw [hm]
    exact hw.slots n g (hfiles ▸ hslot)

theorem Sound.close (hw : Sound w) (h : myfsClose fd p w = some (r, w')) : Sound w' := by
  obtain ⟨n, f, b, v, -, -, hf, hv, -, rfl⟩ := myfsClose_some_iff.1 h
  have hv := hw.operate (hw.slots n f hf) hv
  exact ⟨hv.numbered, hv.waits, hv.slots⟩

theorem Sound.add_isSome (hw : Sound w) :
    (Myfs.operate k p w.mallocs w.prepared).isSome ↔ p.Returns k w.mallocs w.prepared :=
  operate_isSome hw.prepared_numbered fun _ => hw.new

/-- A slot holds a file if and only if its descriptor is handed out. -/
def Coherent (s : Session) : Prop :=
  ∀ fd, DEFAULT_FD_NUM ≤ fd → fd < MAX_FD_COUNT → ((s.world.files fd).isSome ↔ IsSet s.world.fdTable fd)

/-- A call that keeps the tables coherent: a file is added if a descriptor is free and the
replies make the operation return, and no open descriptor is closed. -/
def Session.Keeps (s : Session) : Call → Prop
  | .create p => (∃ fd, Free s.world.fdTable fd) ∧ p.Returns .create s.world.mallocs s.world.prepared
  | .open p => (∃ fd, Free s.world.fdTable fd) ∧ p.Returns .open s.world.mallocs s.world.prepared
  | .close fd _ => fd ∉ s.opened

theorem Coherent.add {s : Session} (h : Coherent s) (hw : Sound s.world) (opened : List ℤ) :
    (∃ s', (addFile (myfsFile k) p s.world).map (fun x => Session.mk x.2 (x.1 :: opened)) = some s' ∧
        Coherent s') ↔
      (∃ fd, Free s.world.fdTable fd) ∧ p.Returns k s.world.mallocs s.world.prepared := by
  simp only [Option.map_eq_some_iff, Prod.exists, addFile_some_iff, ← hw.add_isSome]
  refine ⟨?_, ?_⟩
  · rintro ⟨-, ⟨fd, w', ⟨n, b, v, hn, rfl, hv, rfl⟩, rfl⟩, -⟩
    exact ⟨⟨n, hn.1⟩, by simp [hv]⟩
  · rintro ⟨hfree, hsome⟩
    obtain ⟨n, hn⟩ := exists_leastFree hfree
    obtain ⟨⟨b, v⟩, hv⟩ := Option.isSome_iff_exists.1 hsome
    refine ⟨_, ⟨_, _, ⟨n, b, v, hn, rfl, hv, rfl⟩, rfl⟩, fun fd hmin hmax => ?_⟩
    obtain ⟨ht, hf, -⟩ := addFile_tables hn hv
    simp only [ht, hf, isSet_setBit, Function.update_apply]
    split_ifs with hfd
    · simp [hfd]
    · simp [hfd, h fd hmin hmax]

/-- The slot of a closed descriptor keeps its file. -/
theorem not_coherent_of_close {s : Session} (hfd : ∀ fd ∈ s.opened, (DEFAULT_FD_NUM : ℤ) ≤ fd)
    (hmem : fd ∈ s.opened) (h : myfsClose fd p s.world = some (r, w')) (opened : List ℤ) :
    ¬Coherent ⟨w', opened⟩ := by
  intro hcoh
  obtain ⟨n, f, b, v, hn, rfl, hf, hv, -, rfl⟩ := myfsClose_some_iff.1 h
  have hmin : DEFAULT_FD_NUM ≤ n := by exact_mod_cast hfd _ hmem
  have hbit := hcoh n hmin hn
  have hslot : v.files n = some f := (operate_tables hv).2.1 ▸ hf
  simp [hslot, isSet_clearBit] at hbit

/-- What holds of the sessions of a run: open descriptors are not below the first one. -/
structure Session.Inv (s : Session) : Prop where
  sound : Sound s.world
  opened : ∀ fd ∈ s.opened, (DEFAULT_FD_NUM : ℤ) ≤ fd

theorem coherent_step {s : Session} (hinv : s.Inv) (h : Coherent s) (c : Call) :
    (∃ s', s.step c = some s' ∧ Coherent s') ↔ s.Keeps c := by
  cases c with
  | create p => exact h.add hinv.sound s.opened
  | «open» p => exact h.add hinv.sound s.opened
  | close fd p =>
    by_cases hmem : fd ∈ s.opened
    · simp only [Session.step, hmem, if_true, Session.Keeps, not_true_eq_false, iff_false]
      rintro ⟨s', hs', hcoh⟩
      obtain ⟨⟨r, w'⟩, hclose, rfl⟩ := Option.map_eq_some_iff.1 hs'
      exact not_coherent_of_close hinv.opened hmem hclose _ hcoh
    · simp [Session.step, hmem, Session.Keeps, h]

theorem Session.Inv.step {s s' : Session} (hinv : s.Inv) (c : Call) (h : s.step c = some s') : s'.Inv := by
  have hadd : ∀ {k p}, (addFile (myfsFile k) p s.world).map
      (fun x => Session.mk x.2 (x.1 :: s.opened)) = some s' → s'.Inv := by
    intro k p h
    obtain ⟨⟨r, w'⟩, hadd, rfl⟩ := Option.map_eq_some_iff.1 h
    obtain ⟨n, b, v, hn, rfl, -⟩ := addFile_some_iff.1 hadd
    have hmin : (DEFAULT_FD_NUM : ℤ) ≤ n := by exact_mod_cast hn.1.1
    refine ⟨hinv.sound.add hadd, fun fd hmem => ?_⟩
    rcases List.mem_cons.1 hmem with rfl | hmem
    · exact hmin
    · exact hinv.opened fd hmem
  cases c with
  | create p => exact hadd h
  | «open» p => exact hadd h
  | close fd p =>
    simp only [Session.step] at h
    split_ifs at h
    · obtain ⟨⟨r, w'⟩, hclose, rfl⟩ := Option.map_eq_some_iff.1 h
      exact ⟨hinv.sound.close hclose, fun fd hmem => hinv.opened fd (List.mem_of_mem_erase hmem)⟩
    · obtain rfl := Option.some.inj h
      exact hinv

/-- The tables are coherent after each call of a run if and only if each call keeps them so. -/
theorem run_coherent_iff (unitSize : ℕ) (calls : List Call) :
    Along Session.step (Session.initial unitSize) Coherent calls ↔
      Meets Session.step (Session.initial unitSize) Session.Keeps calls := by
  apply along_iff (I := Session.Inv)
  · intro fd _ _
    simp [Session.initial, World.initial, IsSet]
  · exact ⟨sound_initial unitSize, by simp [Session.initial]⟩
  · exact fun s c s' hinv h => hinv.step c h
  · exact fun s c hinv h => coherent_step hinv h c

def World.createPolled : World :=
  ((FileOp.message .create 0 0 ((World.initial 512).prepared.cleared 0)).bind (poll createReplies)).getD
    (World.initial 512)

def World.created : World :=
  { createPolled with files := Function.update createPolled.files 3 (some 0) }

theorem leastFree_initial : LeastFree (World.initial 512).fdTable 3 := by
  refine ⟨⟨by decide, by decide, ?_⟩, fun b hb => hb.1⟩
  simp [World.initial, IsSet]

theorem operate_create_initial : operate .create (.always createReplies) 0 (World.initial 512).prepared =
    some (true, World.createPolled) := by
  obtain ⟨u, hu, hpoll, hdone⟩ : ∃ u, FileOp.message .create 0 (World.initial 512).prepared.ops
      ((World.initial 512).prepared.cleared 0) = some u ∧ poll createReplies u = some World.createPolled ∧
        (World.createPolled.heap 0).done = true := ⟨_, rfl, rfl, rfl⟩
  exact operate_of_poll (by decide) rfl hu hpoll hdone

theorem create_initial : myfsCreate (.always createReplies) (World.initial 512) = some (3, World.created) :=
  addFile_some_iff.2 ⟨3, true, _, leastFree_initial, rfl, operate_create_initial, rfl⟩

theorem close_not_coherent :
    ¬Along Session.step (Session.initial 512) Coherent
      [.create (.always createReplies), .close 3 (.always [⟨1, 0, 0, 0⟩])] := by
  intro h
  have hfirst : Session.step (.create (.always createReplies)) (Session.initial 512) =
      some ⟨World.created, [3]⟩ := by
    simp only [Session.step, Session.initial, create_initial, Option.map_some]
  have hsnoc : Along Session.step (Session.initial 512) Coherent ([_] ++ [_]) := h
  obtain ⟨s, hs, hcoh⟩ := (along_snoc.1 hsnoc).2
  rw [attempt_snoc, attempt_singleton, hfirst, Option.bind_some] at hs
  simp only [Session.step, List.mem_singleton, if_true] at hs
  obtain ⟨⟨r, w'⟩, hclose, rfl⟩ := Option.map_eq_some_iff.1 hs
  exact not_coherent_of_close (s := ⟨World.created, [3]⟩) (by simp [DEFAULT_FD_NUM]) (by simp) hclose _ hcoh

/-- An operation succeeds if it returns when its completion callback has run, and none of its
callbacks reported an error. -/
def Succeeds (k : FileOp) (p : Replies) (f : ℕ) (w : World) : Prop :=
  ∃ b w', operate k p f w = some (b, w') ∧ Completed w' w.ops k ∧ ¬Reported w' w.ops

/-- A call that adds a file fails also if no descriptor is free. -/
def AddFails (k : FileOp) (p : Replies) (w : World) : Prop :=
  (∀ fd, ¬Free w.fdTable fd) ∨ ¬Succeeds k p w.mallocs w.prepared

/-- A call on a descriptor fails also if there is no file. -/
def CallFails (k : FileOp) (fd : ℤ) (p : Replies) (w : World) : Prop :=
  ∀ f, w.fileAt fd = some f → ¬Succeeds k p f w

/-- The call returns, and a negative value if and only if it failed. -/
def Reports (result : Option (ℤ × World)) (failed : Prop) : Prop :=
  ∃ r w', result = some (r, w') ∧ (r < 0 ↔ failed)

/-- A call that failed returns with the tables as they were. -/
def Untraced (w : World) (result : Option (ℤ × World)) (failed : Prop) : Prop :=
  failed → ∃ r w', result = some (r, w') ∧ w'.fdTable = w.fdTable ∧ w'.files = w.files

theorem ssizeT_sizeT (n : Int32) : ssizeT (sizeT n) = n.toInt := by
  have hle := n.le_toInt
  have hlt := n.toInt_lt
  unfold ssizeT sizeT
  split_ifs <;> omega

theorem addFile_reports_iff :
    Reports (addFile (myfsFile k) p w) (AddFails k p w) ↔ ¬AddFails k p w := by
  refine ⟨?_, ?_⟩
  · rintro ⟨r, w', h, hr⟩ hfails
    obtain ⟨n, b, v, -, rfl, -⟩ := addFile_some_iff.1 h
    exact absurd (hr.2 hfails) (by omega)
  · intro h
    have hok := h
    simp only [AddFails, Succeeds, not_or, not_forall, not_not] at h
    obtain ⟨hfree, b, v, hv, -⟩ := h
    obtain ⟨n, hn⟩ := exists_leastFree hfree
    refine ⟨n, _, addFile_some_iff.2 ⟨n, b, v, hn, rfl, hv, rfl⟩, ?_⟩
    simp [hok]

theorem Sound.addFails_iff (hw : Sound w) :
    ¬AddFails k p w ↔ (∃ fd, Free w.fdTable fd) ∧ p.Completes k w.mallocs w.prepared := by
  rw [AddFails, not_or, not_not, ← operate_completes hw.prepared_numbered fun _ => hw.new]
  simp only [not_forall, not_not]
  rfl

theorem Sound.callReports_iff {result : Option (ℤ × World)} (hw : Sound w) (hk : k ≠ .open)
    (h : ∀ r, (∃ w', result = some (r, w')) ↔
      ∃ f b v, w.fileAt fd = some f ∧ Myfs.operate k p f w = some (b, v) ∧ r = (v.heap f).ret.toInt) :
    Reports result (CallFails k fd p w) ↔
      ∃ f, w.fileAt fd = some f ∧ (0 ≤ (w.heap f).ret.toInt ∧ p.Completes k f w ∨
        (w.heap f).ret.toInt < 0 ∧ p.Returns k f w ∧ ¬p.Completes k f w) := by
  have hopen : ∀ {f}, k = .open → ∀ i s, w.ledger.waits i ≠ some (f, s) := fun h => absurd h hk
  have hreturns : ∀ {f}, p.Completes k f w → p.Returns k f w := fun ⟨n, hn, _⟩ => ⟨n, hn⟩
  have hfails : ∀ {f}, w.fileAt fd = some f → (CallFails k fd p w ↔ ¬p.Completes k f w) := by
    intro f hf
    rw [← operate_completes hw.numbered hopen]
    simp [CallFails, Succeeds, hf]
  have hreports : Reports result (CallFails k fd p w) ↔
      ∃ f, w.fileAt fd = some f ∧ p.Returns k f w ∧ ((w.heap f).ret.toInt < 0 ↔ ¬p.Completes k f w) := by
    refine ⟨?_, ?_⟩
    · rintro ⟨r, w', hres, hr⟩
      obtain ⟨f, b, v, hf, hv, rfl⟩ := (h r).1 ⟨w', hres⟩
      refine ⟨f, hf, (operate_isSome hw.numbered hopen).1 (by simp [hv]), ?_⟩
      rwa [operate_ret hk hv, hfails hf] at hr
    · rintro ⟨f, hf, hsome, hr⟩
      obtain ⟨⟨b, v⟩, hv⟩ := Option.isSome_iff_exists.1 ((operate_isSome hw.numbered hopen).2 hsome)
      obtain ⟨w', hres⟩ := (h _).2 ⟨f, b, v, hf, hv, rfl⟩
      refine ⟨_, w', hres, ?_⟩
      rwa [operate_ret hk hv, hfails hf]
  rw [hreports]
  refine exists_congr fun f => and_congr_right fun _ => ?_
  have := hreturns (f := f)
  rw [← not_lt]
  tauto

theorem sized_returns (k : FileOp) (r : ℤ) :
    (∃ w', ((w.fileAt fd).bind fun f => (myfsFile k f p w).map fun x =>
        (sizeT (x.2.heap f).ret, x.2)).map (Prod.map ssizeT id) = some (r, w')) ↔
      ∃ f b v, w.fileAt fd = some f ∧ operate k p f w = some (b, v) ∧ r = (v.heap f).ret.toInt := by
  simp only [myfsFile, Option.map_eq_some_iff, Option.bind_eq_some_iff, Option.map_map, Function.comp_apply]
  refine ⟨?_, ?_⟩
  · rintro ⟨w', -, ⟨f, hf, ⟨b, v⟩, hv, rfl⟩, h⟩
    refine ⟨f, b, v, hf, hv, ?_⟩
    rw [← ssizeT_sizeT, ← (Prod.mk.inj h).1]
  · rintro ⟨f, b, v, hf, hv, rfl⟩
    exact ⟨v, _, ⟨f, hf, (b, v), hv, rfl⟩, Prod.ext (ssizeT_sizeT _) rfl⟩

theorem Sound.sized (hw : Sound w) (k : FileOp)
    (h : (((w.fileAt fd).bind fun f => (myfsFile k f p w).map fun x => (sizeT (x.2.heap f).ret, x.2)).map Prod.snd) =
      some w') : Sound w' := by
  obtain ⟨x, hx, rfl⟩ := Option.map_eq_some_iff.1 h
  obtain ⟨f, hf, hcall⟩ := Option.bind_eq_some_iff.1 hx
  simp only [myfsFile, Option.map_map, Option.map_eq_some_iff, Function.comp_apply] at hcall
  obtain ⟨⟨b, v⟩, hv, rfl⟩ := hcall
  obtain ⟨n, -, -, hslot⟩ := fileAt_eq_some.1 hf
  exact hw.operate (hw.slots n f hslot) hv

theorem run_sound {unitSize : ℕ} {calls : List ApiCall}
    (h : attempt ApiCall.step (World.initial unitSize) calls = some w) : Sound w := by
  refine attempt_induct (sound_initial unitSize) (fun w c w' hw hc => ?_) h
  cases c with
  | create p | «open» p | close fd p =>
    obtain ⟨⟨r, v⟩, hv, rfl⟩ := Option.map_eq_some_iff.1 hc
    first | exact hw.add hv | exact hw.close hv
  | write fd buf count p => exact hw.sized (.write buf count) hc
  | read fd buf count p => exact hw.sized (.read buf count) hc

theorem myfsClose_returns (r : ℤ) :
    (∃ w', myfsClose fd p w = some (r, w')) ↔
      ∃ f b v, w.fileAt fd = some f ∧ operate .close p f w = some (b, v) ∧ r = (v.heap f).ret.toInt := by
  simp only [myfsClose_some_iff, fileAt_eq_some]
  refine ⟨?_, ?_⟩
  · rintro ⟨w', n, f, b, v, hn, hfd, hf, hv, hr, -⟩
    exact ⟨f, b, v, ⟨n, hn, hfd, hf⟩, hv, hr⟩
  · rintro ⟨f, b, v, ⟨n, hn, hfd, hf⟩, hv, hr⟩
    exact ⟨_, n, f, b, v, hn, hfd, hf, hv, hr, rfl⟩

/-- A new file has no blob, so `myfs_open` is always rejected. -/
theorem Sound.addFails_open (hw : Sound w) : AddFails .open p w := by
  by_contra h
  obtain ⟨-, n, -, ⟨a, ha, -⟩, -⟩ := hw.addFails_iff.1 h
  have hwaits : (p.begun .open w.mallocs w.prepared).waits w.prepared.ops = none := by
    simp [Replies.begun, Ledger.begin, FileOp.first, World.prepared, World.malloc, heap_setFile, File.zero]
  rw [Replies.own, Ledger.answersTo_of_none hwaits] at ha
  simp at ha

/-- Exactly when failure is reported and leaves no trace: `myfs_create` does not fail,
`myfs_open` never meets it, and the other calls return the `ret` that the file had, which is
negative after a rejected open only. -/
theorem reports_iff (w : World) (hw : Sound w) (fd : ℤ) (buf count : ℕ) (p : Replies) :
    (Reports (myfsCreate p w) (AddFails .create p w) ∧ Untraced w (myfsCreate p w) (AddFails .create p w) ↔
      (∃ fd, Free w.fdTable fd) ∧ p.Completes .create w.mallocs w.prepared) ∧
    ¬(Reports (myfsOpen p w) (AddFails .open p w) ∧ Untraced w (myfsOpen p w) (AddFails .open p w)) ∧
    (Reports ((myfsWrite fd buf count p w).map (Prod.map ssizeT id)) (CallFails (.write buf count) fd p w) ↔
      ∃ f, w.fileAt fd = some f ∧ (0 ≤ (w.heap f).ret.toInt ∧ p.Completes (.write buf count) f w ∨
        (w.heap f).ret.toInt < 0 ∧ p.Returns (.write buf count) f w ∧ ¬p.Completes (.write buf count) f w)) ∧
    (Reports ((myfsRead fd buf count p w).map (Prod.map ssizeT id)) (CallFails (.read buf count) fd p w) ↔
      ∃ f, w.fileAt fd = some f ∧ (0 ≤ (w.heap f).ret.toInt ∧ p.Completes (.read buf count) f w ∨
        (w.heap f).ret.toInt < 0 ∧ p.Returns (.read buf count) f w ∧ ¬p.Completes (.read buf count) f w)) ∧
    (Reports (myfsClose fd p w) (CallFails .close fd p w) ↔
      ∃ f, w.fileAt fd = some f ∧ (0 ≤ (w.heap f).ret.toInt ∧ p.Completes .close f w ∨
        (w.heap f).ret.toInt < 0 ∧ p.Returns .close f w ∧ ¬p.Completes .close f w)) := by
  refine ⟨?_, ?_, ?_, ?_, ?_⟩
  · rw [← hw.addFails_iff]
    refine ⟨?_, ?_⟩
    · rintro ⟨h, -⟩
      exact addFile_reports_iff.1 h
    · intro h
      exact ⟨addFile_reports_iff.2 h, fun hfails => absurd hfails h⟩
  · rintro ⟨h, -⟩
    exact addFile_reports_iff.1 h hw.addFails_open
  · exact hw.callReports_iff (by simp) (sized_returns (.write buf count))
  · exact hw.callReports_iff (by simp) (sized_returns (.read buf count))
  · exact hw.callReports_iff (by simp) myfsClose_returns

/-- The blob layer never answers: `myfs_create` times out, and returns the descriptor 3. -/
theorem create_not_reports :
    ¬(Reports (myfsCreate (.always []) (World.initial 512)) (AddFails .create (.always []) (World.initial 512)) ∧
      Untraced (World.initial 512) (myfsCreate (.always []) (World.initial 512))
        (AddFails .create (.always []) (World.initial 512))) := by
  rintro ⟨h, -⟩
  refine addFile_reports_iff.1 h (.inr ?_)
  obtain ⟨u, hu, hdone, hran⟩ : ∃ u, FileOp.message .create 0 (World.initial 512).prepared.ops
      ((World.initial 512).prepared.cleared 0) = some u ∧ (u.heap 0).done = false ∧ u.ran = [] :=
    ⟨_, rfl, rfl, rfl⟩
  rintro ⟨b, w', hop, ⟨a, ha, -⟩, -⟩
  have hidle : operate .create (.always []) 0 (World.initial 512).prepared = some (false, u) :=
    operate_idle (by decide) hu hdone
  obtain ⟨-, rfl⟩ := Prod.mk.inj (Option.some.inj (hidle.symm.trans hop))
  simp [hran] at ha

theorem reports_iff_create :
    Reports (myfsCreate (.always createReplies) (World.initial 512))
        (AddFails .create (.always createReplies) (World.initial 512)) ∧
      Untraced (World.initial 512) (myfsCreate (.always createReplies) (World.initial 512))
        (AddFails .create (.always createReplies) (World.initial 512)) := by
  refine (reports_iff (World.initial 512) (sound_initial 512) 3 1 8 (.always createReplies)).1.2
    ⟨⟨3, leastFree_initial.1⟩, ?_⟩
  have hran : World.createPolled.ran =
      [⟨0, .getSuper, -ENOENT⟩, ⟨0, .createBlob, 0⟩, ⟨0, .openBlob 7, 0⟩, ⟨0, .resize 7 4, 0⟩] := rfl
  refine (operate_completes (sound_initial 512).prepared_numbered fun _ => (sound_initial 512).new).1
    ⟨true, _, operate_create_initial, ?_, ?_⟩
  · exact ⟨⟨0, .resize 7 4, 0⟩, by simp [hran], rfl, rfl⟩
  · rintro ⟨a, ha, -, he, hsuper⟩
    rw [hran] at ha
    simp only [List.mem_cons, List.not_mem_nil, or_false] at ha
    rcases ha with rfl | rfl | rfl | rfl <;> simp_all

end Myfs

end LearnSpdk
