import LearnSpdk.Proofs.MyfsApi
import LearnSpdk.Spec.Hooks

/-! Where the calls on a descriptor go. `myfs` and the kernel number their descriptors without
knowing of each other, and a slot of `files` that was used once sends a descriptor to `myfs`
for good. -/

namespace LearnSpdk

open Lib

namespace Myfs

variable {w w' : World} {p p' : Process} {c c' : Client} {k : FileOp} {rs : Replies} {kept : Finset ℕ} {d n : ℕ} {fd : ℤ}

theorem backend_eq (hn : n < MAX_FD_COUNT) :
    p.backend n = some (if p.initilized && (p.world.files n).isSome then .myfs else .kernel) := by
  have hrange : (0 : ℤ) ≤ n ∧ (n : ℤ) < MAX_FD_COUNT := ⟨by omega, by exact_mod_cast hn⟩
  simp only [Process.backend, World.slot, hrange, and_self, if_true, Option.map_some, Int.toNat_natCast]

theorem backend_range {b : Backend} (h : p.backend fd = some b) : ∃ n, n < MAX_FD_COUNT ∧ fd = (n : ℤ) := by
  unfold Process.backend World.slot at h
  split_ifs at h with hrange
  · exact ⟨fd.toNat, by omega, by omega⟩
  · simp at h

theorem lt_of_backend {b : Backend} (h : p.backend n = some b) : n < MAX_FD_COUNT := by
  obtain ⟨m, hm, hnm⟩ := backend_range h
  obtain rfl : n = m := by exact_mod_cast hnm
  exact hm

theorem backend_congr (hi : p'.initilized = p.initilized) (hf : p'.world.files = p.world.files) :
    p'.backend fd = p.backend fd := by
  simp only [Process.backend, World.slot, hi, hf]

/-- Each open descriptor goes to the backend that returned it, and none is open in both. -/
structure Routed (c : Client) : Prop where
  same : ∀ e ∈ c.opened, c.process.backend e.1 = some e.2
  disjoint : ∀ d : ℕ, ((d : ℤ), Backend.myfs) ∈ c.opened → d ∉ c.process.kernel

/-- Before the first `creat` no slot is used, after it there was a set-up, and what the kernel
returned is open there. -/
structure Client.Inv (c : Client) : Prop where
  sound : Sound c.process.world
  unused : c.process.initilized = false → ∀ n, c.process.world.files n = none
  ready : c.process.initilized = true → c.process.fs = true
  open_kernel : ∀ fd, (fd, Backend.kernel) ∈ c.opened → ∃ d ∈ c.process.kernel, fd = (d : ℤ)

/-- `myfs` returns a descriptor that is not open in the kernel, not by the set-up either. -/
def Client.AddsMyfs (c : Client) (k : FileOp) (kept : Finset ℕ) (rs : Replies) : Prop :=
  ∃ n, LeastFree c.process.world.fdTable n ∧ n ∉ (c.process.setup kept).kernel ∧
    rs.Returns k c.process.world.mallocs c.process.world.prepared

/-- The kernel fails, or returns a descriptor whose slot was never used. -/
def Client.AddsKernel (c : Client) (d : ℕ) : Prop :=
  d ∈ c.process.kernel ∨ d < MAX_FD_COUNT ∧ (c.process.initilized = true → c.process.world.files d = none)

/-- A call that keeps the descriptors routed. -/
def Client.Keeps (c : Client) : PosixCall → Prop
  | .creat d kept rs => if c.process.initilized then c.AddsKernel d else c.AddsMyfs .create kept rs
  | .open d kept rs => if c.process.initilized then c.AddsMyfs .open kept rs else c.AddsKernel d
  | .close fd rs =>
    0 ≤ fd ∧ fd < MAX_FD_COUNT ∧ ∀ f, c.process.initilized = true → c.process.world.files fd.toNat = some f →
      rs.Returns .close f c.process.world

theorem backend_myfs (hn : n < MAX_FD_COUNT) (h : p.backend n = some .myfs) :
    p.initilized = true ∧ (p.world.files n).isSome := by
  rw [backend_eq hn] at h
  split_ifs at h with hcond
  · simpa using hcond
  · simp at h

theorem Routed.slot_myfs (h : Routed c) (hd : ((d : ℤ), Backend.myfs) ∈ c.opened) :
    d < MAX_FD_COUNT ∧ c.process.initilized = true ∧ (c.process.world.files d).isSome := by
  have hb : c.process.backend d = some .myfs := h.same (d, .myfs) hd
  have hm := lt_of_backend hb
  exact ⟨hm, backend_myfs hm hb⟩

theorem Routed.slot_kernel (hinv : c.Inv) (h : Routed c) (hd : ((d : ℤ), Backend.kernel) ∈ c.opened) :
    d < MAX_FD_COUNT ∧ c.process.world.files d = none := by
  have hb : c.process.backend d = some .kernel := h.same (d, .kernel) hd
  have hm := lt_of_backend hb
  refine ⟨hm, ?_⟩
  cases hi : c.process.initilized with
  | false => exact hinv.unused hi d
  | true =>
    rw [backend_eq hm, hi] at hb
    simpa using hb

theorem Routed.kernel_iff (h : Routed c) (d : ℕ) :
    Routed ⟨(c.process.kernelOpen d).2, Client.note (c.process.kernelOpen d).1 .kernel c.opened⟩ ↔
      c.AddsKernel d := by
  by_cases hd : d ∈ c.process.kernel
  · simp only [Process.kernelOpen, hd, if_true, Client.note, Client.AddsKernel, true_or, iff_true]
    exact h
  simp only [Process.kernelOpen, hd, if_false, Client.note, Client.AddsKernel, false_or, Int.natCast_nonneg,
    if_true]
  have hcongr : ∀ fd, ({ c.process with kernel := insert d c.process.kernel } : Process).backend fd =
      c.process.backend fd := fun fd => rfl
  refine ⟨?_, ?_⟩
  · intro h'
    have hb : c.process.backend d = some .kernel := hcongr d ▸ h'.same (d, .kernel) (by simp)
    have hm := lt_of_backend hb
    refine ⟨hm, fun hi => ?_⟩
    rw [backend_eq hm, hi] at hb
    simpa using hb
  · rintro ⟨hm, hslot⟩
    refine ⟨fun e he => ?_, fun m hmem => ?_⟩
    · rw [hcongr]
      rcases List.mem_cons.1 he with rfl | he
      · rw [backend_eq hm]
        cases hi : c.process.initilized with
        | false => rfl
        | true => rw [hslot hi]; rfl
      · exact h.same e he
    · have hmem : ((m : ℤ), Backend.myfs) ∈ c.opened := by simpa using hmem
      obtain ⟨-, hi, hsome⟩ := h.slot_myfs hmem
      rw [Finset.mem_insert, not_or]
      refine ⟨?_, h.disjoint m hmem⟩
      rintro rfl
      simp [hslot hi] at hsome

theorem Routed.myfs_iff (hinv : c.Inv) (h : Routed c) (hw : p.world = c.process.world)
    (hkernel : c.process.kernel ⊆ p.kernel) (hdisjoint : ∀ d : ℕ, ((d : ℤ), Backend.myfs) ∈ c.opened → d ∉ p.kernel)
    (hi : p.initilized = true) :
    (∃ r w', addFile (myfsFile k) rs p.world = some (r, w') ∧
        Routed ⟨{ p with world := w' }, Client.note r .myfs c.opened⟩) ↔
      ∃ n, LeastFree c.process.world.fdTable n ∧ n ∉ p.kernel ∧
        rs.Returns k c.process.world.mallocs c.process.world.prepared := by
  simp only [addFile_some_iff, hw, ← hinv.sound.add_isSome]
  refine ⟨?_, ?_⟩
  · rintro ⟨r, w', ⟨n, b, v, hn, rfl, hv, rfl⟩, h'⟩
    exact ⟨n, hn, h'.disjoint n (by simp [Client.note]), by simp [hv]⟩
  · rintro ⟨n, hn, hfree, hsome⟩
    obtain ⟨⟨b, v⟩, hv⟩ := Option.isSome_iff_exists.1 hsome
    refine ⟨n, _, ⟨n, b, v, hn, rfl, hv, rfl⟩, ?_⟩
    have hfiles := (addFile_tables hn hv).2.1
    have hslot : ∀ {m}, m < MAX_FD_COUNT → ({ p with world :=
        { v with files := Function.update v.files n (some c.process.world.mallocs) } } : Process).backend m =
        some (if m = n ∨ (c.process.world.files m).isSome then .myfs else .kernel) := by
      intro m hm
      rw [backend_eq hm]
      simp only [hi, hfiles, Function.update_apply, Bool.true_and]
      split_ifs <;> simp_all
    simp only [Client.note, Int.natCast_nonneg, if_true]
    refine ⟨fun e he => ?_, fun m hmem => ?_⟩
    · rcases List.mem_cons.1 he with rfl | he
      · rw [hslot hn.1.2.1]
        simp
      obtain ⟨fd, b'⟩ := e
      obtain ⟨m, hm, rfl⟩ := backend_range (h.same _ he)
      rw [hslot hm]
      cases b' with
      | myfs => simp [(h.slot_myfs he).2.2]
      | kernel =>
        obtain ⟨d, hd, hmd⟩ := hinv.open_kernel _ he
        obtain rfl : m = d := by exact_mod_cast hmd
        have hne : m ≠ n := fun e => hfree (e ▸ hkernel hd)
        simp [hne, (h.slot_kernel hinv he).2]
    · rcases List.mem_cons.1 hmem with heq | hmem
      · obtain rfl : m = n := by simpa using heq
        exact hfree
      · exact hdisjoint m hmem

/-- A descriptor is closed, by its backend if there is one. -/
theorem Routed.filter (h : Routed c) (hi : p.initilized = c.process.initilized)
    (hf : p.world.files = c.process.world.files) (hkernel : p.kernel ⊆ c.process.kernel) (fd : ℤ) :
    Routed ⟨p, c.opened.filter fun e => e.1 ≠ fd⟩ where
  same e he := by
    rw [backend_congr hi hf]
    exact h.same e (List.mem_filter.1 he).1
  disjoint d hd hmem := h.disjoint d (List.mem_filter.1 hd).1 (hkernel hmem)

theorem close_eq (hn : n < MAX_FD_COUNT) :
    p.close n rs = if p.initilized && (p.world.files n).isSome then
      (myfsClose n rs p.world).map fun q => (q.1, { p with world := q.2 }) else some (p.kernelClose n) := by
  rw [Process.close, backend_eq hn, Option.bind_some]
  split_ifs <;> rfl

theorem myfsClose_isSome {f : ℕ} (hn : n < MAX_FD_COUNT) (hf : w.files n = some f) :
    (myfsClose n rs w).isSome ↔ (operate .close rs f w).isSome := by
  simp only [Option.isSome_iff_exists, Prod.exists, myfsClose_some_iff]
  refine ⟨?_, ?_⟩
  · rintro ⟨r, w', m, g, b, v, -, hnm, hg, hv, -⟩
    obtain rfl : n = m := by exact_mod_cast hnm
    obtain rfl : f = g := Option.some.inj (hf.symm.trans hg)
    exact ⟨b, v, hv⟩
  · rintro ⟨b, v, hv⟩
    exact ⟨_, _, n, f, b, v, hn, rfl, hf, hv, rfl, rfl⟩

theorem close_isSome :
    (p.close fd rs).isSome ↔ 0 ≤ fd ∧ fd < MAX_FD_COUNT ∧
      ∀ f, p.initilized = true → p.world.files fd.toNat = some f → (operate .close rs f p.world).isSome := by
  by_cases hr : 0 ≤ fd ∧ fd < MAX_FD_COUNT
  · obtain ⟨n, rfl⟩ := Int.eq_ofNat_of_zero_le hr.1
    have hn : n < MAX_FD_COUNT := by exact_mod_cast hr.2
    rw [close_eq hn, Int.toNat_natCast]
    simp only [hr, true_and]
    split_ifs with hcond
    · rw [Bool.and_eq_true] at hcond
      obtain ⟨f, hf⟩ := Option.isSome_iff_exists.1 hcond.2
      rw [Option.isSome_map, myfsClose_isSome hn hf]
      simp [hcond.1, hf]
    · simp only [Option.isSome_some, true_iff]
      intro f hi hf
      simp [hi, hf] at hcond
  · have hnone : p.close fd rs = none := by
      simp only [Process.close, Process.backend, World.slot, hr, if_false, Option.map_none, Option.bind_none]
    simp only [hnone, Option.isSome_none, false_iff, Bool.false_eq_true]
    exact fun h => hr ⟨h.1, h.2.1⟩

/-- What `close` leaves alone: the slot of the descriptor, too. -/
theorem close_keeps {r : ℤ} (h : p.close fd rs = some (r, p')) :
    p'.initilized = p.initilized ∧ p'.world.files = p.world.files ∧ p'.kernel ⊆ p.kernel ∧
      ∀ d ∈ p.kernel, (d : ℤ) ≠ fd → d ∈ p'.kernel := by
  obtain ⟨b, hb, -⟩ := Option.bind_eq_some_iff.1 h
  obtain ⟨n, hn, rfl⟩ := backend_range hb
  rw [close_eq hn] at h
  split_ifs at h
  · obtain ⟨⟨r', w'⟩, hclose, heq⟩ := Option.map_eq_some_iff.1 h
    obtain ⟨-, rfl⟩ := Prod.mk.inj heq
    obtain ⟨m, f, b', v, -, -, -, hv, -, rfl⟩ := myfsClose_some_iff.1 hclose
    exact ⟨rfl, (operate_tables hv).2.1, subset_rfl, fun d hd _ => hd⟩
  · have hp : (p.kernelClose n).2 = p' := congrArg Prod.snd (Option.some.inj h)
    subst hp
    unfold Process.kernelClose
    split_ifs
    · refine ⟨rfl, rfl, Finset.erase_subset _ _, fun d hd hne => ?_⟩
      exact Finset.mem_erase.2 ⟨by simpa using hne, hd⟩
    · exact ⟨rfl, rfl, subset_rfl, fun d hd _ => hd⟩

theorem setup_world (kept : Finset ℕ) (p : Process) : (p.setup kept).world = p.world := by
  unfold Process.setup
  split_ifs <;> rfl

theorem setup_fs (kept : Finset ℕ) (p : Process) : (p.setup kept).fs = true := by
  unfold Process.setup
  split_ifs with h
  · exact h
  · rfl

theorem setup_kernel (kept : Finset ℕ) (p : Process) : p.kernel ⊆ (p.setup kept).kernel := by
  unfold Process.setup
  split_ifs
  · exact subset_rfl
  · exact Finset.subset_union_left

theorem Routed.not_myfs (h : Routed c) (hi : ¬c.process.initilized = true) (d : ℕ) :
    ((d : ℤ), Backend.myfs) ∉ c.opened :=
  fun hd => hi (h.slot_myfs hd).2.1

theorem routed_step (hinv : c.Inv) (h : Routed c) (call : PosixCall) :
    (∃ c', c.step call = some c' ∧ Routed c') ↔ c.Keeps call := by
  cases call with
  | creat d kept rs =>
    simp only [Client.step, Process.creat, Client.Keeps]
    split_ifs with hi
    · simpa using h.kernel_iff d
    · rw [Client.AddsMyfs, ← h.myfs_iff (k := .create) (p := { c.process.setup kept with initilized := true })
        hinv (setup_world _ _) (setup_kernel _ _) (fun d hd => absurd hd (h.not_myfs hi d)) rfl]
      simp [myfsCreate, myfsFileCreate]
  | «open» d kept rs =>
    simp only [Client.step, Process.open, Client.Keeps]
    split_ifs with hi
    · have hsetup : c.process.setup kept = c.process := if_pos (hinv.ready hi)
      rw [Client.AddsMyfs, hsetup, ← h.myfs_iff (k := .open) hinv rfl subset_rfl h.disjoint hi]
      simp [myfsOpen, myfsFileOpen]
    · simpa using h.kernel_iff d
  | close fd rs =>
    have hreturns : c.Keeps (.close fd rs) ↔ (c.process.close fd rs).isSome := by
      rw [close_isSome, Client.Keeps]
      simp only [operate_isSome hinv.sound.numbered (k := .close) (by simp)]
    rw [hreturns, Option.isSome_iff_exists]
    simp only [Client.step, Option.map_eq_some_iff]
    refine ⟨?_, ?_⟩
    · rintro ⟨c', ⟨q, hq, -⟩, -⟩
      exact ⟨q, hq⟩
    · rintro ⟨⟨r, p'⟩, hq⟩
      obtain ⟨hi, hf, hkernel, -⟩ := close_keeps hq
      exact ⟨_, ⟨_, hq, rfl⟩, h.filter hi hf hkernel fd⟩

theorem Client.Inv.kernelOpen (hinv : c.Inv) (d : ℕ) :
    Client.Inv ⟨(c.process.kernelOpen d).2, note (c.process.kernelOpen d).1 .kernel c.opened⟩ := by
  unfold Process.kernelOpen
  split_ifs with hd
  · exact hinv
  · refine ⟨hinv.sound, hinv.unused, hinv.ready, fun fd hfd => ?_⟩
    simp only [note, Int.natCast_nonneg, if_true, List.mem_cons, Prod.mk.injEq, and_true] at hfd
    rcases hfd with rfl | hfd
    · exact ⟨d, Finset.mem_insert_self _ _, rfl⟩
    · obtain ⟨d', hd', rfl⟩ := hinv.open_kernel fd hfd
      exact ⟨d', Finset.mem_insert_of_mem hd', rfl⟩

theorem Client.Inv.myfs (hinv : c.Inv) (hw : Sound p.world) (hi : p.initilized = true) (hfs : p.fs = true)
    (hkernel : c.process.kernel ⊆ p.kernel) (r : ℤ) : Client.Inv ⟨p, note r .myfs c.opened⟩ := by
  refine ⟨hw, fun hfalse => absurd (hi.symm.trans hfalse) (by decide), fun _ => hfs, fun fd hfd => ?_⟩
  have hmem : (fd, Backend.kernel) ∈ c.opened := by
    unfold note at hfd
    split_ifs at hfd
    · simpa using hfd
    · exact hfd
  obtain ⟨d, hd, rfl⟩ := hinv.open_kernel fd hmem
  exact ⟨d, hkernel hd, rfl⟩

theorem close_sound {r : ℤ} (hw : Sound p.world) (h : p.close fd rs = some (r, p')) :
    Sound p'.world ∧ p'.fs = p.fs := by
  obtain ⟨b, hb, hcall⟩ := Option.bind_eq_some_iff.1 h
  cases b with
  | myfs =>
    obtain ⟨⟨r', w'⟩, hclose, heq⟩ := Option.map_eq_some_iff.1 hcall
    obtain ⟨-, rfl⟩ := Prod.mk.inj heq
    exact ⟨hw.close hclose, rfl⟩
  | kernel =>
    have hp : (p.kernelClose fd).2 = p' := congrArg Prod.snd (Option.some.inj hcall)
    subst hp
    unfold Process.kernelClose
    split_ifs <;> exact ⟨hw, rfl⟩

theorem Client.Inv.step (hinv : c.Inv) {call : PosixCall} (h : c.step call = some c') : c'.Inv := by
  cases call with
  | creat d kept rs =>
    simp only [Client.step, Process.creat] at h
    split_ifs at h with hi
    · obtain rfl := Option.some.inj h
      exact hinv.kernelOpen d
    · rw [Option.map_map, Option.map_eq_some_iff] at h
      obtain ⟨q, hq, rfl⟩ := h
      have hw : Sound (c.process.setup kept).world := setup_world kept c.process ▸ hinv.sound
      exact hinv.myfs (p := { c.process.setup kept with initilized := true, world := q.2 }) (hw.add hq) rfl
        (setup_fs _ _) (setup_kernel _ _) q.1
  | «open» d kept rs =>
    simp only [Client.step, Process.open] at h
    split_ifs at h with hi
    · have hsetup : c.process.setup kept = c.process := if_pos (hinv.ready hi)
      rw [hsetup, Option.map_map, Option.map_eq_some_iff] at h
      obtain ⟨q, hq, rfl⟩ := h
      exact hinv.myfs (p := { c.process with world := q.2 }) (hinv.sound.add hq) hi (hinv.ready hi) subset_rfl q.1
    · obtain rfl := Option.some.inj h
      exact hinv.kernelOpen d
  | close fd rs =>
    obtain ⟨⟨r, p'⟩, hq, rfl⟩ := Option.map_eq_some_iff.1 h
    obtain ⟨hi, hf, -, hkernel⟩ := close_keeps hq
    obtain ⟨hw, hfs⟩ := close_sound hinv.sound hq
    refine ⟨hw, fun hfalse n => ?_, fun htrue => hfs.trans (hinv.ready (hi ▸ htrue)), fun fd' hfd' => ?_⟩
    · have hfalse : p'.initilized = false := hfalse
      have hunused := hinv.unused (hi ▸ hfalse) n
      rwa [← hf] at hunused
    · obtain ⟨hmem, hne⟩ := List.mem_filter.1 hfd'
      obtain ⟨d, hd, rfl⟩ := hinv.open_kernel fd' hmem
      exact ⟨d, hkernel d hd (by simpa using hne), rfl⟩

/-- In a run the open descriptors are routed after each call if and only if each call keeps
them so. -/
theorem run_routed_iff (unitSize : ℕ) (kernel : Finset ℕ) (calls : List PosixCall) :
    Along Client.step (Client.initial unitSize kernel) Routed calls ↔
      Meets Client.step (Client.initial unitSize kernel) Client.Keeps calls := by
  apply along_iff (I := Client.Inv)
  · exact ⟨by simp [Client.initial], by simp [Client.initial]⟩
  · exact ⟨sound_initial unitSize, fun _ _ => rfl, by simp [Client.initial], by simp [Client.initial]⟩
  · exact fun c call c' hinv h => hinv.step h
  · exact fun c call hinv h => routed_step hinv h call

/-- A file is created in `myfs`, a second one in the kernel, and both have the descriptor 3. -/
theorem creat_not_routed :
    ¬Along Client.step (Client.initial 512 {0, 1, 2}) Routed
      [.creat 3 ∅ (.always createReplies), .creat 3 ∅ (.always [])] := by
  intro h
  have hfirst : Client.step (.creat 3 ∅ (.always createReplies)) (Client.initial 512 {0, 1, 2}) =
      some ⟨⟨World.created, true, true, {0, 1, 2}⟩, [(3, .myfs)]⟩ := by
    simp [Client.step, Client.initial, Process.creat, Process.setup, create_initial, Client.note]
  have hsnoc : Along Client.step (Client.initial 512 {0, 1, 2}) Routed ([_] ++ [_]) := h
  obtain ⟨c, hc, hrouted⟩ := (along_snoc.1 hsnoc).2
  rw [attempt_snoc, attempt_singleton, hfirst, Option.bind_some] at hc
  have hsecond : c = ⟨⟨World.created, true, true, insert 3 {0, 1, 2}⟩, [(3, .kernel), (3, .myfs)]⟩ :=
    (Option.some.inj hc).symm
  subst hsecond
  exact hrouted.disjoint 3 (by simp) (Finset.mem_insert_self 3 _)

end Myfs

end LearnSpdk
