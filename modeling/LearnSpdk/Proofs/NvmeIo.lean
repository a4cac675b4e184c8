import LearnSpdk.Proofs.Nvme
import LearnSpdk.Spec.NvmeIo
import Mathlib.Algebra.GroupWithZero.Nat

/-! Whatever the devices answer, the programs write to the first block of the active namespaces and
to no other, and free the queue pairs of their commands; and where every command succeeds, the text
that was written comes back. -/

namespace LearnSpdk

open Lib

namespace Nvme

variable {size : ℕ → ℕ} {answers : ℕ → Answers} {ctrlr ns lba : ℕ} {a : Answers} {h h' h'' : Host} {N : List ℕ}

/-! ### What no command does -/

/-- From `h` to `h'` nothing is written but the first blocks of the namespaces `N`, and if the
program still runs it has as many queue pairs as before. -/
structure Confined (N : List ℕ) (h h' : Host) : Prop where
  blocks : ∀ ns lba, lba ≠ 0 ∨ ns ∉ N → h'.blocks ns lba = h.blocks ns lba
  runs : h'.stop = none → h.stop = none
  qpairs : h'.stop = none → h'.qpairs = h.qpairs

theorem Confined.refl (N : List ℕ) (h : Host) : Confined N h h := ⟨fun _ _ _ => rfl, id, fun _ => rfl⟩

theorem Confined.trans (h₁ : Confined N h h') (h₂ : Confined N h' h'') : Confined N h h'' where
  blocks ns lba hout := (h₂.blocks ns lba hout).trans (h₁.blocks ns lba hout)
  runs hstop := h₁.runs (h₂.runs hstop)
  qpairs hstop := (h₂.qpairs hstop).trans (h₁.qpairs (h₂.runs hstop))

theorem Confined.mono {M : List ℕ} (h₁ : Confined N h h') (hsub : N ⊆ M) : Confined M h h' where
  blocks ns lba hout := h₁.blocks ns lba (hout.imp id fun hns hmem => hns (hsub hmem))
  runs := h₁.runs
  qpairs := h₁.qpairs

@[simp] theorem blocks_getBuffer (ctrlr : ℕ) (h : Host) : (h.getBuffer ctrlr).2.blocks = h.blocks := by
  unfold Host.getBuffer
  split <;> rfl

@[simp] theorem qpairs_getBuffer (ctrlr : ℕ) (h : Host) : (h.getBuffer ctrlr).2.qpairs = h.qpairs := by
  unfold Host.getBuffer
  split <;> rfl

@[simp] theorem stop_getBuffer (ctrlr : ℕ) (h : Host) : (h.getBuffer ctrlr).2.stop = h.stop := by
  unfold Host.getBuffer
  split <;> rfl

/-- A command with a queue pair taken before it: what `done` does to the rest is what the command does,
or the program stops. -/
theorem submit_confined {c : Command} {done : Host → Host} (hrun : h.stop = none)
    (hblocks : ∀ ns lba, lba ≠ 0 ∨ ns ∉ N → h'.blocks ns lba = h.blocks ns lba)
    (hdone : ∀ g : Host, g.blocks = h'.blocks → g.qpairs = h.qpairs + 1 →
      (∀ ns lba, lba ≠ 0 ∨ ns ∉ N → (done g).blocks ns lba = g.blocks ns lba) ∧
        ((done g).stop = none → (done g).qpairs = h.qpairs))
    (hpairs : h'.qpairs = h.qpairs + 1) : Confined N h (h'.submit a c done) := by
  unfold Host.submit
  split_ifs
  · obtain ⟨hframe, hcount⟩ := hdone (h'.print (.cbFinished c)) rfl hpairs
    exact ⟨fun ns lba hout => (hframe ns lba hout).trans (hblocks ns lba hout), fun _ => hrun, hcount⟩
  · exact ⟨hblocks, fun _ => hrun, by simp [Host.halt]⟩
  · exact ⟨hblocks, fun _ => hrun, by simp [Host.halt]⟩

theorem setBlock_blocks {m : Memory} {ns' : ℕ} (hout : lba ≠ 0 ∨ ns' ∉ [ns]) :
    (h.setBlock ns 0 m).blocks ns' lba = h.blocks ns' lba := by
  rcases eq_or_ne ns' ns with rfl | hne
  · have hlba : lba ≠ 0 := by simpa using hout
    simp [Host.setBlock, hlba]
  · simp [Host.setBlock, hne]

theorem nvmeOperaWrite_confined (size : ℕ → ℕ) (answers : ℕ → Answers) (ctrlr ns : ℕ) (hrun : h.stop = none) :
    Confined [ns] h (nvmeOperaWrite size answers ctrlr ns h) := by
  unfold nvmeOperaWrite
  dsimp only
  split_ifs
  · exact ⟨by simp [Host.halt], fun _ => hrun, by simp [Host.halt]⟩
  · refine submit_confined hrun (by simp [Host.keep]) (fun g _ hpairs => ⟨?_, fun _ => ?_⟩) (by simp [Host.keep])
    · exact fun ns lba hout => setBlock_blocks hout
    · simp [Host.print, Host.freeQpair, Host.setBlock, hpairs]
  · exact ⟨fun _ _ _ => rfl, fun _ => hrun, fun _ => rfl⟩

theorem nvmeOperaRead_confined (hrun : h.stop = none) :
    Confined [ns] h (nvmeOperaRead size answers ctrlr ns h) := by
  unfold nvmeOperaRead
  dsimp only
  split_ifs
  · exact ⟨by simp [Host.halt], fun _ => hrun, by simp [Host.halt]⟩
  · refine submit_confined hrun (by simp) (fun g _ hpairs => ?_) (by simp)
    split
    · exact ⟨fun _ _ _ => rfl, by simp [Host.halt]⟩
    · exact ⟨fun _ _ _ => rfl, fun _ => by simp [Host.print, Host.freeQpair, Host.keep, hpairs]⟩
  · exact ⟨fun _ _ _ => rfl, fun _ => hrun, fun _ => rfl⟩

def Command.target : Command → ℕ
  | .write ns => ns
  | .read ns => ns

theorem perform_confined (size : ℕ → ℕ) (answers : ℕ → Answers) (ctrlr : ℕ) (h : Host) (c : Command) :
    Confined [c.target] h (perform size answers ctrlr h c) := by
  unfold perform
  split_ifs with hstop
  · exact .refl _ h
  · have hrun : h.stop = none := not_not.1 hstop
    cases c with
    | write ns => exact nvmeOperaWrite_confined size answers ctrlr ns hrun
    | read ns => exact nvmeOperaRead_confined hrun

theorem foldl_perform_confined {cs : List Command} (hcs : ∀ c ∈ cs, c.target ∈ N) :
    Confined N h (cs.foldl (perform size answers ctrlr) h) := by
  induction cs generalizing h with
  | nil => exact .refl N h
  | cons c cs ih =>
    have hfirst : Confined N h (perform size answers ctrlr h c) :=
      (perform_confined size answers ctrlr h c).mono (by simpa using hcs c List.mem_cons_self)
    exact hfirst.trans (ih fun d hd => hcs d (List.mem_cons_of_mem _ hd))

/-! ### The commands of the callback -/

def Ctrlr.namespaces (c : Ctrlr) : List ℕ := c.active.filterMap c.getNs

def commandsOf (ns : ℕ) : List Command := [.write ns, .read ns]

theorem visitAll_commands (c : Ctrlr) (ids : List UInt32) (commands : List Command) :
    visitAll c (fun _ ns commands => commands ++ commandsOf ns) ids commands =
      commands ++ (ids.filterMap c.getNs).flatMap commandsOf := by
  induction ids generalizing commands with
  | nil => simp [visitAll]
  | cons nsid ids ih =>
    refine (ih _).trans ?_
    cases hget : c.getNs nsid <;> simp [hget]

theorem nsLoop_more {σ : Type} {c : Ctrlr} {body : Int32 → ℕ → σ → σ} {n m : ℕ} {nsid : Int32} {s s' : σ}
    (hloop : nsLoop c body n nsid s = some s') (hle : n ≤ m) : nsLoop c body m nsid s = some s' := by
  induction n generalizing m nsid s with
  | zero => cases hloop
  | succ n ih =>
    obtain ⟨m, rfl⟩ : ∃ k, m = k + 1 := ⟨m - 1, by omega⟩
    have hle' : n ≤ m := Nat.le_of_succ_le_succ hle
    rw [nsLoop] at hloop ⊢
    split_ifs at hloop ⊢ with hne
    · cases hget : c.getNs nsid.toUInt32 with
      | none =>
        rw [hget] at hloop
        exact ih hloop hle'
      | some ns =>
        rw [hget] at hloop
        exact ih hloop hle'
    · exact hloop

theorem nvmeOperaAttachCallback_eq {c : Ctrlr} {fuel : ℕ} (hns : ∀ nsid ∈ c.active, c.getNs nsid ≠ none)
    (hfuel : c.active.length < fuel) :
    nvmeOperaAttachCallback fuel c = some (c.namespaces.flatMap commandsOf) := by
  have hall : c.active = [] ++ c.active := rfl
  have hends : nsLoop c (fun _ ns commands => commands ++ commandsOf ns) (c.active.length + 1)
      (c.active.headD 0).toInt32 [] =
      some (visitAll c (fun _ ns commands => commands ++ commandsOf ns) c.active []) := nsLoop_ends hall hns []
  rw [visitAll_commands, List.nil_append] at hends
  exact nsLoop_more hends hfuel

def namespaces (ctrlrs : List (ℕ × Ctrlr)) : List ℕ := ctrlrs.flatMap fun p => p.2.namespaces

/-- All active ids have namespaces, and the loops have fuel for them. -/
def Ready (fuel : ℕ) (c : Ctrlr) : Prop := (∀ nsid ∈ c.active, c.getNs nsid ≠ none) ∧ c.active.length < fuel

theorem nvmeOperaProbe_cons {fuel : ℕ} {c : Ctrlr} {ctrlrs : List (ℕ × Ctrlr)} (hready : Ready fuel c) :
    nvmeOperaProbe size answers fuel ((ctrlr, c) :: ctrlrs) h =
      nvmeOperaProbe size answers fuel ctrlrs
        ((c.namespaces.flatMap commandsOf).foldl (perform size answers ctrlr) h) := by
  rw [nvmeOperaProbe, List.foldlM_cons]
  simp only [nvmeOperaAttachCallback_eq hready.1 hready.2, Option.map_some, Option.bind_eq_bind,
    Option.bind_some]
  rfl

theorem nvmeOperaProbe_confined (size : ℕ → ℕ) (answers : ℕ → Answers) {fuel : ℕ} {ctrlrs : List (ℕ × Ctrlr)}
    (h : Host) (hready : ∀ p ∈ ctrlrs, Ready fuel p.2) :
    ∃ h', nvmeOperaProbe size answers fuel ctrlrs h = some h' ∧ Confined (namespaces ctrlrs) h h' := by
  induction ctrlrs generalizing h with
  | nil => exact ⟨h, rfl, .refl _ h⟩
  | cons p ctrlrs ih =>
    obtain ⟨ctrlr, c⟩ := p
    rw [nvmeOperaProbe_cons (hready _ List.mem_cons_self)]
    obtain ⟨h', hrest, hconfined⟩ := ih _ fun p hp => hready p (List.mem_cons_of_mem _ hp)
    refine ⟨h', hrest, .trans (foldl_perform_confined fun d hd => ?_) (hconfined.mono ?_)⟩
    · obtain ⟨ns, hns, hd⟩ := List.mem_flatMap.1 hd
      have htarget : d.target = ns := by
        simp only [commandsOf, List.mem_cons, List.not_mem_nil, or_false] at hd
        rcases hd with rfl | rfl <;> rfl
      rw [htarget, namespaces, List.flatMap_cons]
      exact List.mem_append_left _ hns
    · exact List.subset_append_right c.namespaces (namespaces ctrlrs)

/-! ### Commands that succeed -/

/-- The answers to a command that succeeds. -/
def Answers.Fine (a : Answers) : Prop := a.qpair = true ∧ a.accepted = true ∧ a.completes = true ∧ a.fault = none

/-- The text fits a block of the namespace, and the block fits the buffer for it. -/
structure Fits (size : ℕ → ℕ) (h : Host) (ctrlr ns : ℕ) : Prop where
  text_le : text.length ≤ size ns
  own : h.cmb ctrlr = none → size ns ≤ ALIGN_4k
  mapped : ∀ b, h.cmb ctrlr = some b → size ns ≤ b.size

/-- A block or a buffer begins with the text. -/
def HasText (m : Memory) : Prop := ∀ i < text.length, m i = text.getD i 0

theorem strcpy_hasText (m : Memory) : HasText (strcpy m) := by
  intro i hi
  have hcopy := Memory.copy_inside (w := text.length) m (fun i => text.getD i 0) 0 0 hi
  simpa [strcpy] using hcopy

theorem HasText.copy {m m' : Memory} {n : ℕ} (hm : HasText m') (hn : text.length ≤ n) :
    HasText (m.copy 0 m' 0 n) := by
  intro i hi
  have hcopy := Memory.copy_inside (w := n) m m' 0 0 (i := i) (by omega)
  rw [Nat.zero_add] at hcopy
  rw [hcopy, hm i hi]

def string : List UInt8 := text.dropLast

theorem HasText.cString {b : Buffer} (hb : HasText b.content) (hsize : text.length ≤ b.size) :
    cString b = some string := by
  obtain ⟨n, hn⟩ := Nat.exists_eq_add_of_le hsize
  have hfirst : (List.range text.length).map (fun i => b.content i) = text := by
    apply List.ext_getElem (by simp)
    intro i _ hi
    rw [List.getElem_map, List.getElem_range, hb i hi]
    simp [List.getD, hi]
  have hbytes : (List.range b.size).map (fun i => b.content i) =
      text ++ (List.range n).map fun i => b.content (text.length + i) := by
    rw [hn, List.range_add, List.map_append, List.map_map, hfirst]
    rfl
  have htext : text = string ++ [0] := by decide
  have hstring : string.all (· ≠ 0) = true := by decide
  unfold Nvme.cString
  simp only [hbytes]
  rw [if_pos (by simp [htext]), htext, List.append_assoc,
    List.takeWhile_append_of_pos (List.all_eq_true.1 hstring)]
  simp

def linesOf (ns : ℕ) : List Line :=
  [.cbFinished (.write ns), .writeSuccessful, .cbFinished (.read ns), .readSuccessful string]

/-- What a command that succeeds leaves alone, or counts. -/
structure Succeeds (ctrlr : ℕ) (lines : List Line) (h h' : Host) : Prop where
  stop : h'.stop = none
  ios : h'.ios = h.ios + 1
  zmallocs : h'.zmallocs = h.zmallocs + if h.cmb ctrlr = none then 1 else 0
  printed : h'.printed = h.printed ++ lines
  sizes : ∀ c, (h'.cmb c).map Buffer.size = (h.cmb c).map Buffer.size

theorem sizes_keep (m : Memory) (h : Host) (c : ℕ) :
    ((h.keep ctrlr m).cmb c).map Buffer.size = (h.cmb c).map Buffer.size := by
  unfold Host.keep
  rcases eq_or_ne c ctrlr with rfl | hne
  · cases h.cmb c <;> simp
  · simp [hne]

/-- The buffer for a command: what it changes to take one, and that the command fits. -/
theorem getBuffer_spec (hfits : Fits size h ctrlr ns) :
    ∃ b g, Host.getBuffer ctrlr { h with ios := h.ios + 1, qpairs := h.qpairs + 1 } = (b, g) ∧
      size ns ≤ b.size ∧ (∀ m, h.cmb ctrlr = some m → b = m) ∧
      g = { h with
        ios := h.ios + 1
        qpairs := h.qpairs + 1
        zmallocs := h.zmallocs + if h.cmb ctrlr = none then 1 else 0 } := by
  unfold Host.getBuffer
  cases hc : h.cmb ctrlr with
  | none => exact ⟨_, _, rfl, hfits.own hc, by simp, by simp⟩
  | some m => exact ⟨_, _, rfl, hfits.mapped m hc, fun m' hm' => Option.some_inj.1 hm', by simp⟩

/-- A write that succeeds leaves the text in the block, and in the memory buffer of the controller. -/
theorem write_succeeds (hfine : (answers h.ios).Fine) (hfits : Fits size h ctrlr ns) (hrun : h.stop = none) :
    Succeeds ctrlr [.cbFinished (.write ns), .writeSuccessful] h (nvmeOperaWrite size answers ctrlr ns h) ∧
      HasText ((nvmeOperaWrite size answers ctrlr ns h).blocks ns 0) := by
  obtain ⟨hpair, haccepted, hcompletes, hfault⟩ := hfine
  obtain ⟨b, g, hget, hsize, -, rfl⟩ := getBuffer_spec hfits
  have htext := hfits.text_le
  have hroom : ¬(b.size < text.length ∨ b.size < size ns) := by omega
  simp only [nvmeOperaWrite, hpair, if_true, hget, if_neg hroom, Host.submit, haccepted, hcompletes]
  refine ⟨⟨hrun, rfl, rfl, ?_, fun c => sizes_keep _ _ c⟩, ?_⟩
  · simp [Host.print, Host.freeQpair, Host.setBlock, Host.keep]
  · have hblock := (strcpy_hasText b.content).copy (m := h.blocks ns 0) htext
    simpa [Host.print, Host.freeQpair, Host.setBlock, Host.keep, written, hfault] using hblock

theorem read_succeeds (hfine : (answers h.ios).Fine) (hfits : Fits size h ctrlr ns) (hrun : h.stop = none)
    (htext : HasText (h.blocks ns 0)) :
    Succeeds ctrlr [.cbFinished (.read ns), .readSuccessful string] h (nvmeOperaRead size answers ctrlr ns h) ∧
      (nvmeOperaRead size answers ctrlr ns h).blocks = h.blocks := by
  obtain ⟨hpair, haccepted, hcompletes, hfault⟩ := hfine
  obtain ⟨b, g, hget, hsize, -, rfl⟩ := getBuffer_spec hfits
  have hreceived : HasText (b.content.copy 0 (h.blocks ns 0) 0 (size ns)) := htext.copy hfits.text_le
  have hstring := HasText.cString (b := { b with content := b.content.copy 0 (h.blocks ns 0) 0 (size ns) })
    hreceived (Nat.le_trans hfits.text_le hsize)
  simp only [nvmeOperaRead, hpair, if_true, hget, if_neg (Nat.not_lt.2 hsize), Host.submit, haccepted, hcompletes,
    received, hfault, Option.getD_none, Host.print, hstring]
  refine ⟨⟨hrun, rfl, rfl, ?_, fun c => sizes_keep _ _ c⟩, rfl⟩
  simp [Host.freeQpair, Host.keep]

/-- The commands for the namespaces `N` have all succeeded, with `own` buffers from `spdk_zmalloc`. -/
structure Passes (N : List ℕ) (own : ℕ) (h h' : Host) : Prop where
  stop : h'.stop = none
  ios : h'.ios = h.ios + 2 * N.length
  zmallocs : h'.zmallocs = h.zmallocs + own
  printed : h'.printed = h.printed ++ N.flatMap linesOf
  sizes : ∀ c, (h'.cmb c).map Buffer.size = (h.cmb c).map Buffer.size
  text : ∀ ns, ns ∈ N ∨ HasText (h.blocks ns 0) → HasText (h'.blocks ns 0)

theorem Passes.refl (hrun : h.stop = none) : Passes [] 0 h h :=
  ⟨hrun, rfl, rfl, (List.append_nil _).symm, fun _ => rfl, fun _ htext => htext.resolve_left List.not_mem_nil⟩

theorem Passes.trans {M : List ℕ} {m n : ℕ} (h₁ : Passes N n h h') (h₂ : Passes M m h' h'') :
    Passes (N ++ M) (n + m) h h'' where
  stop := h₂.stop
  ios := by rw [h₂.ios, h₁.ios, List.length_append, Nat.mul_add, Nat.add_assoc]
  zmallocs := by rw [h₂.zmallocs, h₁.zmallocs, Nat.add_assoc]
  printed := by rw [h₂.printed, h₁.printed, List.flatMap_append, List.append_assoc]
  sizes c := (h₂.sizes c).trans (h₁.sizes c)
  text ns htext := by
    rw [List.mem_append] at htext
    rcases htext with (hN | hM) | hbefore
    · exact h₂.text ns (.inr (h₁.text ns (.inl hN)))
    · exact h₂.text ns (.inl hM)
    · exact h₂.text ns (.inr (h₁.text ns (.inr hbefore)))

theorem cmb_eq_none {c : ℕ} (hsizes : (h'.cmb c).map Buffer.size = (h.cmb c).map Buffer.size) :
    h'.cmb c = none ↔ h.cmb c = none := by
  rw [← Option.map_eq_none_iff (f := Buffer.size), hsizes, Option.map_eq_none_iff]

theorem Fits.congr (hfits : Fits size h ctrlr ns)
    (hsizes : (h'.cmb ctrlr).map Buffer.size = (h.cmb ctrlr).map Buffer.size) : Fits size h' ctrlr ns where
  text_le := hfits.text_le
  own hnone := hfits.own ((cmb_eq_none hsizes).1 hnone)
  mapped b hb := by
    rw [hb, Option.map_some] at hsizes
    obtain ⟨m, hm, hsize⟩ := Option.map_eq_some_iff.1 hsizes.symm
    exact hsize ▸ hfits.mapped m hm

theorem perform_write (hrun : h.stop = none) :
    perform size answers ctrlr h (.write ns) = nvmeOperaWrite size answers ctrlr ns h := if_neg (not_not.2 hrun)

theorem perform_read (hrun : h.stop = none) :
    perform size answers ctrlr h (.read ns) = nvmeOperaRead size answers ctrlr ns h := if_neg (not_not.2 hrun)

theorem visit_passes (hfine : (answers h.ios).Fine) (hfine' : (answers (h.ios + 1)).Fine)
    (hfits : Fits size h ctrlr ns) (hrun : h.stop = none) :
    Passes [ns] (if h.cmb ctrlr = none then 2 else 0) h
      ((commandsOf ns).foldl (perform size answers ctrlr) h) := by
  obtain ⟨hwrite, htext⟩ := write_succeeds hfine hfits hrun
  have hother := (nvmeOperaWrite_confined size answers ctrlr ns hrun).blocks
  obtain ⟨g, hg⟩ : ∃ g, nvmeOperaWrite size answers ctrlr ns h = g := ⟨_, rfl⟩
  rw [hg] at hwrite htext hother
  obtain ⟨hread, hblocks⟩ :=
    read_succeeds (hwrite.ios ▸ hfine') (hfits.congr (hwrite.sizes ctrlr)) hwrite.stop htext
  have hrun' : (commandsOf ns).foldl (perform size answers ctrlr) h = nvmeOperaRead size answers ctrlr ns g := by
    rw [commandsOf, List.foldl_cons, List.foldl_cons, List.foldl_nil, perform_write hrun, hg,
      perform_read hwrite.stop]
  rw [hrun']
  refine ⟨hread.stop, ?_, ?_, ?_, fun c => (hread.sizes c).trans (hwrite.sizes c), fun ns' hns' => ?_⟩
  · rw [hread.ios, hwrite.ios]
    rfl
  · rw [hread.zmallocs, hwrite.zmallocs]
    simp only [cmb_eq_none (hwrite.sizes ctrlr)]
    split_ifs <;> rfl
  · rw [hread.printed, hwrite.printed, List.append_assoc]
    rfl
  · rw [hblocks]
    rcases eq_or_ne ns' ns with rfl | hne
    · exact htext
    · rw [hother ns' 0 (.inr (by simpa using hne))]
      exact hns'.resolve_left (by simpa using hne)

theorem foldl_perform_passes (hfine : ∀ i < 2 * N.length, (answers (h.ios + i)).Fine)
    (hfits : ∀ ns ∈ N, Fits size h ctrlr ns) (hrun : h.stop = none) :
    Passes N (if h.cmb ctrlr = none then 2 * N.length else 0) h
      ((N.flatMap commandsOf).foldl (perform size answers ctrlr) h) := by
  induction N generalizing h with
  | nil => simpa using Passes.refl hrun
  | cons ns N ih =>
    rw [List.length_cons] at hfine
    have hfirst := visit_passes (hfine 0 (by omega)) (hfine 1 (by omega)) (hfits ns List.mem_cons_self) hrun
    have hrest := ih (h := (commandsOf ns).foldl (perform size answers ctrlr) h)
      (fun i hi => by
        have hnext := hfine (2 + i) (by omega)
        rwa [← Nat.add_assoc, ← show _ = h.ios + 2 from hfirst.ios] at hnext)
      (fun ns' hns' => (hfits ns' (List.mem_cons_of_mem _ hns')).congr (hfirst.sizes ctrlr)) hfirst.stop
    simp only [cmb_eq_none (hfirst.sizes ctrlr)] at hrest
    have hcount : (if h.cmb ctrlr = none then 2 * (ns :: N).length else 0) =
        (if h.cmb ctrlr = none then 2 else 0) + if h.cmb ctrlr = none then 2 * N.length else 0 := by
      rw [List.length_cons]
      split <;> omega
    rw [hcount, List.flatMap_cons, List.foldl_append]
    exact hfirst.trans hrest

/-- The number of buffers that the controllers without a memory buffer take. -/
def ownBuffers (ctrlrs : List (ℕ × Ctrlr)) (h : Host) : ℕ :=
  (ctrlrs.map fun p => if h.cmb p.1 = none then 2 * p.2.namespaces.length else 0).sum

theorem nvmeOperaProbe_passes {fuel : ℕ} {ctrlrs : List (ℕ × Ctrlr)} (hready : ∀ p ∈ ctrlrs, Ready fuel p.2)
    (hfine : ∀ i < 2 * (namespaces ctrlrs).length, (answers (h.ios + i)).Fine)
    (hfits : ∀ p ∈ ctrlrs, ∀ ns ∈ p.2.namespaces, Fits size h p.1 ns) (hrun : h.stop = none)
    (hprobe : nvmeOperaProbe size answers fuel ctrlrs h = some h') :
    Passes (namespaces ctrlrs) (ownBuffers ctrlrs h) h h' := by
  induction ctrlrs generalizing h with
  | nil =>
    obtain rfl := Option.some_inj.1 hprobe
    exact .refl hrun
  | cons p ctrlrs ih =>
    obtain ⟨ctrlr, c⟩ := p
    rw [nvmeOperaProbe_cons (hready _ List.mem_cons_self)] at hprobe
    have hlength : (namespaces ((ctrlr, c) :: ctrlrs)).length =
        c.namespaces.length + (namespaces ctrlrs).length := by
      rw [namespaces, List.flatMap_cons, List.length_append]
      rfl
    rw [hlength] at hfine
    have hfirst := foldl_perform_passes (N := c.namespaces) (fun i hi => hfine i (by omega))
      (hfits (ctrlr, c) List.mem_cons_self) hrun
    have hrest := ih (fun q hq => hready q (List.mem_cons_of_mem _ hq))
      (fun i hi => by
        have hnext := hfine (2 * c.namespaces.length + i) (by omega)
        rwa [← Nat.add_assoc, ← hfirst.ios] at hnext)
      (fun q hq ns hns => (hfits q (List.mem_cons_of_mem _ hq) ns hns).congr (hfirst.sizes q.1)) hfirst.stop hprobe
    have hown : ownBuffers ctrlrs ((c.namespaces.flatMap commandsOf).foldl (perform size answers ctrlr) h) =
        ownBuffers ctrlrs h := by
      simp only [ownBuffers, cmb_eq_none (hfirst.sizes _)]
    rw [hown] at hrest
    exact hfirst.trans hrest

/-- The run of `nvme_opera.c` over all controllers of a probe whose active ids have namespaces.
Whatever the devices answer, only the first blocks of these namespaces are written, and a run to
the end leaves no queue pair behind; but the buffers from `spdk_zmalloc` are not given back. Where
every command succeeds, the text is in the first block of each namespace, and was read from it. -/
theorem opera_run (size : ℕ → ℕ) (answers : ℕ → Answers) (fuel : ℕ) (ctrlrs : List (ℕ × Ctrlr)) (h : Host)
    (hready : ∀ p ∈ ctrlrs, Ready fuel p.2) :
    ∃ h', nvmeOperaProbe size answers fuel ctrlrs h = some h' ∧
      (∀ ns lba, lba ≠ 0 ∨ ns ∉ namespaces ctrlrs → h'.blocks ns lba = h.blocks ns lba) ∧
      (h'.stop = none → h'.qpairs = h.qpairs) ∧
      (h.stop = none → (∀ i < 2 * (namespaces ctrlrs).length, (answers (h.ios + i)).Fine) →
        (∀ p ∈ ctrlrs, ∀ ns ∈ p.2.namespaces, Fits size h p.1 ns) →
        h'.stop = none ∧ h'.printed = h.printed ++ (namespaces ctrlrs).flatMap linesOf ∧
          h'.zmallocs = h.zmallocs + ownBuffers ctrlrs h ∧
          ∀ ns ∈ namespaces ctrlrs, HasText (h'.blocks ns 0)) := by
  obtain ⟨h', hprobe, hconfined⟩ := nvmeOperaProbe_confined size answers h hready
  refine ⟨h', hprobe, hconfined.blocks, hconfined.qpairs, fun hrun hfine hfits => ?_⟩
  have hpasses := nvmeOperaProbe_passes hready hfine hfits hrun hprobe
  exact ⟨hpasses.stop, hpasses.printed, hpasses.zmallocs, fun ns hns => hpasses.text ns (.inl hns)⟩

def twoNamespaces : Ctrlr := ⟨[1, 2], by simp, by simp, fun nsid => some nsid.toNat⟩

def idle : Host := ⟨fun _ _ _ => 0, fun _ => none, 0, 0, 0, [], none⟩

theorem opera_run_of_two :
    ∃ h', nvmeOperaProbe (fun _ => 512) (fun _ => ⟨true, true, true, none⟩) 3 [(0, twoNamespaces)] idle = some h' ∧
      h'.printed = [1, 2].flatMap linesOf ∧ h'.zmallocs = 4 ∧ HasText (h'.blocks 2 0) := by
  obtain ⟨h', hprobe, -, -, hsuccess⟩ := opera_run (fun _ => 512) (fun _ => ⟨true, true, true, none⟩) 3
    [(0, twoNamespaces)] idle (by simp [Ready, twoNamespaces])
  obtain ⟨-, hprinted, hown, htext⟩ := hsuccess rfl (fun _ _ => ⟨rfl, rfl, rfl, rfl⟩)
    (fun _ _ _ _ => ⟨by decide, fun _ => by decide, by simp [idle]⟩)
  exact ⟨h', hprobe, hprinted, hown, htext 2 (by decide)⟩

/-! ### `kv_main.cpp` -/

theorem nvmeAttachCb_eq {fuel : ℕ} {c : Ctrlr} (hready : Ready fuel c) (traddr : List UInt8) (qpair : Option ℕ)
    (g : Globals) :
    nvmeAttachCb fuel traddr ctrlr c qpair g = some {
      gctrlr := some ctrlr
      gns := c.getNs c.getFirstActiveNs
      gCtrlr := g.gCtrlr ++ [⟨ctrlr, qpair, traddr.take (nameLength - 1)⟩]
      gNs := g.gNs ++ c.entries g.gCtrlr.length } := by
  have hall : c.active = [] ++ c.active := rfl
  have hends : nsLoop c (fun nsid ns entries => entries ++ [⟨ns, g.gCtrlr.length, nsid⟩])
      (c.active.length + 1) (c.active.headD 0).toInt32 g.gNs =
      some (visitAll c (fun nsid ns entries => entries ++ [⟨ns, g.gCtrlr.length, nsid⟩]) c.active g.gNs) :=
    nsLoop_ends hall hready.1 g.gNs
  rw [visitAll_entries] at hends
  have hloop := nsLoop_more hends hready.2
  rw [nvmeAttachCb]
  simp only [List.length_append, List.length_singleton, Nat.add_sub_cancel, UInt32.toUInt32_toInt32]
  rw [Ctrlr.getFirstActiveNs, hloop]
  rfl

/-- The entries of the namespaces of several controllers, with the position of each controller. -/
def entriesFrom (n : ℕ) : List Attached → List NamespaceEntry
  | [] => []
  | a :: attached => a.c.entries n ++ entriesFrom (n + 1) attached

theorem kvProbe_eq {fuel : ℕ} {attached : List Attached} (hready : ∀ a ∈ attached, Ready fuel a.c) (g : Globals) :
    ∃ g', kvProbe fuel attached g = some g' ∧
      g'.gCtrlr = g.gCtrlr ++ attached.map (fun a => ⟨a.ctrlr, a.qpair, a.traddr.take (nameLength - 1)⟩) ∧
      g'.gNs = g.gNs ++ entriesFrom g.gCtrlr.length attached ∧
      ∀ a, attached.getLast? = some a → g'.gctrlr = some a.ctrlr ∧ g'.gns = a.c.getNs a.c.getFirstActiveNs := by
  induction attached generalizing g with
  | nil => exact ⟨g, rfl, by simp, by simp [entriesFrom], by simp⟩
  | cons a attached ih =>
    obtain ⟨g', hprobe, hctrlrs, hns, hlast⟩ := ih (fun b hb => hready b (List.mem_cons_of_mem _ hb)) _
    refine ⟨g', ?_, ?_, ?_, ?_⟩
    · rw [kvProbe, List.foldlM_cons, nvmeAttachCb_eq (hready a List.mem_cons_self)]
      exact hprobe
    · simpa using hctrlrs
    · simpa [entriesFrom] using hns
    · intro b hb
      cases attached with
      | nil =>
        obtain rfl : a = b := by simpa using hb
        obtain rfl := Option.some_inj.1 hprobe
        exact ⟨rfl, rfl⟩
      | cons c attached => exact hlast b (by simpa using hb)

theorem mainWrite_confined (size : ℕ → ℕ) (a : Answers) (ctrlr ns mmapIo : ℕ) (b : Buffer) {g : Host}
    (hrun : h.stop = none) (hblocks : g.blocks = h.blocks) (hpairs : g.qpairs = h.qpairs + 1) :
    Confined [ns] h (mainWrite size a ctrlr ns mmapIo b g) := by
  unfold mainWrite
  split_ifs
  · exact ⟨by simp [Host.halt, hblocks], fun _ => hrun, by simp [Host.halt]⟩
  all_goals
    refine submit_confined hrun (by simp [Host.keep, hblocks]) (fun g' _ hpairs' => ⟨?_, fun _ => ?_⟩)
      (by simpa [Host.keep] using hpairs)
    · exact fun ns' lba hout => setBlock_blocks hout
    · simp [Host.freeQpair, Host.setBlock, hpairs']

theorem mainBuffer_spec (ctrlr : ℕ) (h : Host) :
    ∃ b mmapIo g, mainBuffer ctrlr { h with ios := h.ios + 1, qpairs := h.qpairs + 1 } = (b, mmapIo, g) ∧
      g.blocks = h.blocks ∧ g.qpairs = h.qpairs + 1 := by
  unfold mainBuffer
  cases h.cmb ctrlr with
  | none => exact ⟨_, _, _, rfl, rfl, rfl⟩
  | some b =>
    dsimp only
    split_ifs
    · exact ⟨_, _, _, rfl, rfl, rfl⟩
    · exact ⟨_, _, _, rfl, rfl, rfl⟩

theorem kvMain_confined (size : ℕ → ℕ) (answers : ℕ → Answers) {g : Globals}
    (hctrlr : g.gctrlr = some ctrlr) (hns : g.gns = some ns) (hrun : h.stop = none) :
    ∃ r h', kvMain size answers g h = some (r, h') ∧ Confined [ns] h h' := by
  unfold kvMain
  by_cases hpair : (answers h.ios).qpair = true
  · obtain ⟨b, mmapIo, g', hbuffer, hblocks, hpairs⟩ := mainBuffer_spec ctrlr h
    have hwrite := mainWrite_confined size (answers h.ios) ctrlr ns mmapIo b hrun hblocks hpairs
    have hall := hwrite.trans (perform_confined size answers ctrlr _ (.read ns))
    simp only [hctrlr, hns, hpair, hbuffer, Option.bind_eq_bind, Option.bind_some, if_true]
    refine ⟨_, _, rfl, ?_⟩
    split
    · exact hall
    · exact ⟨hall.blocks, hall.runs, hall.qpairs⟩
  · simp only [hctrlr, hpair, Option.bind_eq_bind, Option.bind_some]
    exact ⟨_, _, rfl, fun _ _ _ => rfl, fun _ => hrun, fun _ => rfl⟩

theorem mainWrite_succeeds (ctrlr mmapIo : ℕ) {g : Host} {b : Buffer} (hfine : a.Fine)
    (htext : text.length ≤ size ns) (hsize : size ns ≤ b.size) (hrun : g.stop = none) :
    (mainWrite size a ctrlr ns mmapIo b g).stop = none ∧ (mainWrite size a ctrlr ns mmapIo b g).ios = g.ios ∧
      (mainWrite size a ctrlr ns mmapIo b g).printed = g.printed ++ [.cbFinished (.write ns)] ∧
      (∀ c, ((mainWrite size a ctrlr ns mmapIo b g).cmb c).map Buffer.size = (g.cmb c).map Buffer.size) ∧
      ∀ i < size ns, (mainWrite size a ctrlr ns mmapIo b g).blocks ns 0 i = text.getD i 0 := by
  obtain ⟨-, haccepted, hcompletes, hfault⟩ := hfine
  have hroom : ¬(b.size < text.length ∨ b.size < size ns) := by omega
  have hcontent (m : Memory) (i : ℕ) (hi : i < size ns) :
      m.copy 0 (strcpy fun i => if i < b.size then 0 else b.content i) 0 (size ns) i = text.getD i 0 := by
    have hcopy := Memory.copy_inside m (strcpy fun i => if i < b.size then 0 else b.content i) 0 0 hi
    rw [Nat.zero_add] at hcopy
    rw [hcopy]
    by_cases hlong : i < text.length
    · exact strcpy_hasText _ i hlong
    · have hzero : i < b.size := by omega
      simp [strcpy, Memory.copy, hlong, hzero, List.getD]
  simp only [mainWrite, if_neg hroom, Host.submit, haccepted, hcompletes, if_true]
  split
  · refine ⟨hrun, rfl, rfl, fun c => sizes_keep _ _ c, fun i hi => ?_⟩
    simpa [Host.freeQpair, Host.setBlock, Host.keep, Host.print, written, hfault] using hcontent _ i hi
  · refine ⟨hrun, rfl, rfl, fun _ => rfl, fun i hi => ?_⟩
    simpa [Host.freeQpair, Host.setBlock, Host.print, written, hfault] using hcontent _ i hi

/-- What `main` prints; `own` is whether it has taken its buffer from `spdk_zmalloc`. -/
def mainLines (own : Bool) (ns : ℕ) : List Line :=
  (if own then [.switchZmalloc] else []) ++
    [.cbFinished (.write ns), .cbFinished (.read ns), .readSuccessful string, .mmapIo (if own then 0 else 1)]

/-- The buffer of `main` for a block that fits: the memory buffer of the controller, or one from
`spdk_zmalloc`, with what is printed in the end. -/
theorem mainBuffer_fits (hfits : Fits size h ctrlr ns) (hrun : h.stop = none) :
    ∃ b mmapIo g, mainBuffer ctrlr { h with ios := h.ios + 1, qpairs := h.qpairs + 1 } = (b, mmapIo, g) ∧
      size ns ≤ b.size ∧ g.stop = none ∧ g.ios = h.ios + 1 ∧ g.cmb = h.cmb ∧
      g.printed ++ [.cbFinished (.write ns), .cbFinished (.read ns), .readSuccessful string, .mmapIo mmapIo] =
        h.printed ++ mainLines (h.cmb ctrlr).isNone ns := by
  have htext := hfits.text_le
  have hlength : 0 < text.length := by decide
  unfold mainBuffer
  cases hc : h.cmb ctrlr with
  | none => exact ⟨_, _, _, rfl, hfits.own hc, hrun, rfl, rfl, by simp [Host.print, mainLines]⟩
  | some b =>
    have hb := hfits.mapped b hc
    have hne : b.size ≠ 0 := by omega
    simp only [if_neg hne]
    exact ⟨_, _, _, rfl, hb, hrun, rfl, rfl, by simp [mainLines]⟩

theorem kvMain_succeeds {g : Globals} (hctrlr : g.gctrlr = some ctrlr) (hns : g.gns = some ns)
    (hrun : h.stop = none) (hfine : (answers h.ios).Fine) (hfine' : (answers (h.ios + 1)).Fine)
    (hfits : Fits size h ctrlr ns) :
    ∃ h', kvMain size answers g h = some (0, h') ∧ h'.stop = none ∧
      h'.printed = h.printed ++ mainLines (h.cmb ctrlr).isNone ns ∧
      ∀ i < size ns, h'.blocks ns 0 i = text.getD i 0 := by
  obtain ⟨b, mmapIo, g', hbuffer, hsize, hstop, hios, hcmb, hprinted⟩ := mainBuffer_fits hfits hrun
  obtain ⟨hstop₁, hios₁, hprinted₁, hsizes₁, hblock⟩ :=
    mainWrite_succeeds ctrlr mmapIo hfine hfits.text_le hsize hstop
  have hsame : ∀ c, ((mainWrite size (answers h.ios) ctrlr ns mmapIo b g').cmb c).map Buffer.size =
      (h.cmb c).map Buffer.size := fun c => (hsizes₁ c).trans (by rw [hcmb])
  obtain ⟨hread, hblocks⟩ := read_succeeds (by rw [hios₁, hios]; exact hfine') (hfits.congr (hsame ctrlr)) hstop₁
    (fun i hi => hblock i (Nat.lt_of_lt_of_le hi hfits.text_le))
  refine ⟨(nvmeOperaRead size answers ctrlr ns (mainWrite size (answers h.ios) ctrlr ns mmapIo b g')).print
    (.mmapIo mmapIo), ?_, hread.stop, ?_, ?_⟩
  · unfold kvMain
    simp only [hctrlr, hns, hfine.1, hbuffer, Option.bind_eq_bind, Option.bind_some, if_true, perform_read hstop₁,
      hread.stop]
    rfl
  · rw [← hprinted]
    simp [Host.print, hread.printed, hprinted₁]
  · intro i hi
    simpa [Host.print, hblocks] using hblock i hi

/-- The run of `kv_main.cpp` over controllers whose active ids have namespaces, if the one attached last
has some: only the first block of the first namespace of this controller is written, and the
queue pairs of the commands are freed, those of the controllers are not; where both commands succeed,
the block has the text and zeros behind it, and the text was read from it. -/
theorem kv_main_run (size : ℕ → ℕ) (answers : ℕ → Answers) (fuel : ℕ) (attached : List Attached) (a : Attached)
    (ns : ℕ) (h : Host) (hready : ∀ b ∈ attached, Ready fuel b.c) (hlast : attached.getLast? = some a)
    (hns : a.c.getNs a.c.getFirstActiveNs = some ns) (hrun : h.stop = none) :
    ∃ g r h', kvProbe fuel attached ⟨none, none, [], []⟩ = some g ∧ kvMain size answers g h = some (r, h') ∧
      g.gCtrlr.map CtrlrEntry.qpair = attached.map Attached.qpair ∧ g.gNs = entriesFrom 0 attached ∧
      (∀ ns' lba, lba ≠ 0 ∨ ns' ≠ ns → h'.blocks ns' lba = h.blocks ns' lba) ∧
      (h'.stop = none → h'.qpairs = h.qpairs) ∧
      ((answers h.ios).Fine → (answers (h.ios + 1)).Fine → Fits size h a.ctrlr ns →
        r = 0 ∧ h'.stop = none ∧ h'.printed = h.printed ++ mainLines (h.cmb a.ctrlr).isNone ns ∧
          ∀ i < size ns, h'.blocks ns 0 i = text.getD i 0) := by
  obtain ⟨g, hprobe, hctrlrs, hentries, hglobals⟩ := kvProbe_eq hready ⟨none, none, [], []⟩
  obtain ⟨hctrlr, hgns⟩ := hglobals a hlast
  rw [hns] at hgns
  obtain ⟨r, h', hmain, hconfined⟩ := kvMain_confined size answers hctrlr hgns hrun
  refine ⟨g, r, h', hprobe, hmain, ?_, ?_, ?_, hconfined.qpairs, fun hfine hfine' hfits => ?_⟩
  · simp [hctrlrs]
  · simpa using hentries
  · exact fun ns' lba hout => hconfined.blocks ns' lba (by simpa using hout)
  · obtain ⟨h'', hmain', hstop, hprinted, hblock⟩ := kvMain_succeeds hctrlr hgns hrun hfine hfine' hfits
    obtain ⟨rfl, rfl⟩ := Prod.mk.inj (Option.some_inj.1 (hmain.symm.trans hmain'))
    exact ⟨rfl, hstop, hprinted, hblock⟩

theorem kv_main_run_of_one :
    ∃ g r h', kvProbe 3 [⟨[], 0, twoNamespaces, some 9⟩] ⟨none, none, [], []⟩ = some g ∧
      kvMain (fun _ => 512) (fun _ => ⟨true, true, true, none⟩) g idle = some (r, h') ∧ r = 0 ∧
      h'.printed = mainLines true 1 ∧ g.gCtrlr.map CtrlrEntry.qpair = [some 9] := by
  obtain ⟨g, r, h', hprobe, hmain, hpairs, -, -, -, hsuccess⟩ := kv_main_run (fun _ => 512)
    (fun _ => ⟨true, true, true, none⟩) 3 [⟨[], 0, twoNamespaces, some 9⟩] ⟨[], 0, twoNamespaces, some 9⟩ 1 idle
    (by simp [Ready, twoNamespaces]) rfl rfl rfl
  obtain ⟨hr, -, hprinted, -⟩ := hsuccess ⟨rfl, rfl, rfl, rfl⟩ ⟨rfl, rfl, rfl, rfl⟩
    ⟨by decide, fun _ => by decide, by simp [idle]⟩
  exact ⟨g, r, h', hprobe, hmain, hr, hprinted, hpairs⟩

end Nvme

end LearnSpdk
