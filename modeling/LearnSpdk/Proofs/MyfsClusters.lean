import LearnSpdk.Lib.Attempt
import LearnSpdk.Spec.MyfsClusters

/-! When opening a blob takes no clusters from it and creating a file gives it some. An opened
blob is resized to the number of clusters that are free then, which its own are not. -/

namespace LearnSpdk

open Lib

namespace Myfs

variable {s s' : Disk} {f op b : ℕ}

theorem Blobstore.resize_free (s : Blobstore) (h : b ∈ s.blobs) :
    (s.resize b s.freeClusterCount).total = s.total ∧ (s.resize b s.freeClusterCount).blobs = s.blobs ∧
      (s.resize b s.freeClusterCount).clusters = Function.update s.clusters b s.freeClusterCount := by
  have hsplit := Finset.sum_sdiff (f := s.clusters) (Finset.singleton_subset_iff.2 h)
  have hfits := s.fits
  have hroom : ∑ c ∈ s.blobs, Function.update s.clusters b s.freeClusterCount c ≤ s.total := by
    rw [Finset.sum_update_of_mem h, Blobstore.freeClusterCount]
    omega
  rw [Blobstore.resize, dif_pos hroom]
  exact ⟨rfl, rfl, rfl⟩

theorem step_create (h : Disk.step (.create f op b) s = some s') :
    b ∉ s.store.blobs ∧ s'.log = s.log ++ [.create f op b] ∧ s'.store.total = s.store.total ∧
      s'.store.blobs = insert b s.store.blobs ∧ s'.store.clusters = Function.update s.store.clusters b 0 := by
  simp only [Disk.step] at h
  split_ifs at h with hb
  obtain rfl := Option.some.inj h
  exact ⟨hb, rfl, rfl, rfl, rfl⟩

theorem step_open (h : Disk.step (.open f op b) s = some s') :
    b ∈ s.store.blobs ∧ s'.log = s.log ++ [.open f op b] ∧ s'.store.total = s.store.total ∧
      s'.store.blobs = s.store.blobs ∧
      s'.store.clusters = Function.update s.store.clusters b s.store.freeClusterCount := by
  simp only [Disk.step] at h
  split_ifs at h with hb
  obtain ⟨w, hw, rfl⟩ := Option.map_eq_some_iff.1 h
  obtain rfl := Option.some.inj hw
  refine ⟨hb, rfl, ?_⟩
  simp only [World.submit, World.setFile, Function.update_self, Option.elim_some, Blobstore.carryOut]
  exact s.store.resize_free hb

theorem exists_step_open (f op : ℕ) (hb : b ∈ s.store.blobs) : ∃ s', Disk.step (.open f op b) s = some s' := by
  simp [Disk.step, hb, myfsBlobOpenComplete]

def Created (s : Disk) (b : ℕ) : Prop := ∃ f op, .create f op b ∈ s.log

def Opened (s : Disk) (b : ℕ) : Prop := ∃ f op, .open f op b ∈ s.log

/-- While the store has as many clusters as files, each file that was created, and then opened
as the end of its creation, owns a cluster. -/
def Usable (s : Disk) : Prop :=
  s.store.blobs.card ≤ s.store.total → ∀ b, Created s b → Opened s b → 0 < s.store.clusters b

/-- A completion leaves every blob at least the clusters it had. -/
def Keeps (s : Disk) (c : Completion) : Prop :=
  ∀ s', Disk.step c s = some s' → ∀ b ∈ s.store.blobs, s.store.clusters b ≤ s'.store.clusters b

/-- At least as many clusters are free as the opened blob owns, and at least one if the blob
was created in the run while the store has as many clusters as files. -/
def Roomy (s : Disk) (c : Completion) : Prop :=
  ∀ f op b, c = .open f op b → b ∈ s.store.blobs →
    s.store.clusters b ≤ s.store.freeClusterCount ∧
      (Created s b → s.store.blobs.card ≤ s.store.total → 0 < s.store.freeClusterCount)

theorem Roomy.keeps {c : Completion} (h : Roomy s c) : Keeps s c := by
  intro s' hs' d hd
  cases c with
  | create f op b =>
    obtain ⟨hb, -, -, -, hclusters⟩ := step_create hs'
    rw [hclusters, Function.update_of_ne (ne_of_mem_of_not_mem hd hb)]
  | «open» f op b =>
    obtain ⟨hb, -, -, -, hclusters⟩ := step_open hs'
    rw [hclusters, Function.update_apply]
    split_ifs with hdb
    · rw [hdb]
      exact (h f op b rfl hb).1
    · exact le_rfl

/-- Blobs that were opened are blobs of the store. -/
def LogSound (s : Disk) : Prop := ∀ b, Opened s b → b ∈ s.store.blobs

theorem LogSound.step {c : Completion} (h : LogSound s) (hs' : Disk.step c s = some s') : LogSound s' := by
  rintro d ⟨f', op', hd⟩
  cases c with
  | create f op b =>
    obtain ⟨-, hlog, -, hblobs, -⟩ := step_create hs'
    rw [hlog] at hd
    rw [hblobs]
    exact Finset.mem_insert_of_mem (h d ⟨f', op', by simpa using hd⟩)
  | «open» f op b =>
    obtain ⟨hb, hlog, -, hblobs, -⟩ := step_open hs'
    rw [hlog, List.mem_append, List.mem_singleton] at hd
    rw [hblobs]
    rcases hd with hd | hd
    · exact h d ⟨f', op', hd⟩
    · cases hd
      exact hb

theorem Usable.step {c : Completion} (hlog : LogSound s) (h : Usable s) (hroomy : Roomy s c)
    (hs' : Disk.step c s = some s') : Usable s' := by
  rintro hcard d ⟨f₁, op₁, hcreated⟩ ⟨f₂, op₂, hopened⟩
  cases c with
  | create f op b =>
    obtain ⟨hb, hlog', htotal, hblobs, hclusters⟩ := step_create hs'
    rw [hlog', List.mem_append, List.mem_singleton] at hcreated hopened
    have hopened' : Opened s d := ⟨f₂, op₂, by simpa using hopened⟩
    -- the new blob has not been opened yet
    have hne : d ≠ b := ne_of_mem_of_not_mem (hlog d hopened') hb
    have hcreated' : Created s d := by
      rcases hcreated with hcreated | heq
      · exact ⟨f₁, op₁, hcreated⟩
      · cases heq
        exact absurd rfl hne
    rw [hblobs, Finset.card_insert_of_notMem hb, htotal] at hcard
    rw [hclusters, Function.update_of_ne hne]
    exact h (by omega) d hcreated' hopened'
  | «open» f op b =>
    obtain ⟨hb, hlog', htotal, hblobs, hclusters⟩ := step_open hs'
    rw [hlog', List.mem_append, List.mem_singleton] at hcreated hopened
    rw [hblobs, htotal] at hcard
    have hcreated' : Created s d := ⟨f₁, op₁, by simpa using hcreated⟩
    rw [hclusters, Function.update_apply]
    split_ifs with hdb
    · subst hdb
      exact (hroomy f op d rfl hb).2 hcreated' hcard
    · have hopened' : Opened s d := by
        rcases hopened with hopened | heq
        · exact ⟨f₂, op₂, hopened⟩
        · cases heq
          exact absurd rfl hdb
      exact h hcard d hcreated' hopened'

/-- In every run of completions opening takes no clusters from a blob and each file created
owns a cluster, if and only if each opened blob finds enough free clusters. -/
theorem clusters_iff (w : World) (store : Blobstore) (cs : List Completion) :
    (Meets Disk.step ⟨w, store, []⟩ Keeps cs ∧ Throughout Disk.step ⟨w, store, []⟩ Usable cs) ↔
      Meets Disk.step ⟨w, store, []⟩ Roomy cs := by
  refine ⟨?_, ?_⟩
  · rintro ⟨hkeeps, husable⟩ k hk s hs f op b hc hb
    obtain ⟨s', hs'⟩ := exists_step_open f op hb
    rw [← hc] at hs'
    have hkept := hkeeps k hk s hs s' hs' b hb
    have hlast := husable (k + 1) hk s' (by rw [attempt_take_succ hk hs, hs'])
    rw [hc] at hs'
    obtain ⟨-, hlog, htotal, hblobs, hclusters⟩ := step_open hs'
    rw [hclusters, Function.update_self] at hkept
    refine ⟨hkept, ?_⟩
    rintro ⟨f', op', hcreated⟩ hcard
    have hpos := hlast (by rwa [hblobs, htotal]) b ⟨f', op', by simp [hlog, hcreated]⟩ ⟨f, op, by simp [hlog]⟩
    rwa [hclusters, Function.update_self] at hpos
  · intro h
    refine ⟨fun k hk s hs => (h k hk s hs).keeps, fun k _ s hs => ?_⟩
    have hinv := (h.take k).induct (I := fun s => LogSound s ∧ Usable s)
      ⟨by simp [LogSound, Opened], by simp [Usable, Created]⟩
      (fun s c s' hI hs' hc => ⟨hI.1.step hs', hI.2.step hI.1 hc hs'⟩) hs
    exact hinv.2

def emptyStore : Blobstore := ⟨10, ∅, fun _ => 0, by simp⟩

/-- The first file takes all clusters: a second one is created without any, and opening the
first once more takes all clusters from it. -/
theorem clusters_lost :
    (¬Throughout Disk.step ⟨World.initial 512, emptyStore, []⟩ Usable
      [.create 0 0 1, .open 0 0 1, .create 1 1 2, .open 1 1 2]) ∧
    ¬Meets Disk.step ⟨World.initial 512, emptyStore, []⟩ Keeps [.create 0 0 1, .open 0 0 1, .open 1 1 1] := by
  refine ⟨fun h => ?_, fun h => ?_⟩
  · obtain ⟨s, hs, hcard, hlog, hclusters⟩ : ∃ s, attempt Disk.step ⟨World.initial 512, emptyStore, []⟩
        [.create 0 0 1, .open 0 0 1, .create 1 1 2, .open 1 1 2] = some s ∧
          s.store.blobs.card ≤ s.store.total ∧
          s.log = [.create 0 0 1, .open 0 0 1, .create 1 1 2, .open 1 1 2] ∧ s.store.clusters 2 = 0 :=
      ⟨_, rfl, by decide, rfl, rfl⟩
    have hpos := h 4 le_rfl s hs hcard 2 ⟨1, 1, by simp [hlog]⟩ ⟨1, 1, by simp [hlog]⟩
    omega
  · obtain ⟨s, s', hs, hs', hb, hbefore, hafter⟩ : ∃ s s', attempt Disk.step ⟨World.initial 512, emptyStore, []⟩
        [.create 0 0 1, .open 0 0 1] = some s ∧ Disk.step (.open 1 1 1) s = some s' ∧ 1 ∈ s.store.blobs ∧
          s.store.clusters 1 = 10 ∧ s'.store.clusters 1 = 0 := ⟨_, _, rfl, rfl, by decide, rfl, rfl⟩
    have hle := h 2 (by simp) s hs s' hs' 1 hb
    omega

end Myfs

end LearnSpdk
