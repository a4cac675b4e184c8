import LearnSpdk.Spec.Nvme

/-! The walk over the namespaces ends for the controllers whose active ids all have a
namespace: at one that has none it stays for ever. -/

namespace LearnSpdk

namespace Nvme

variable {c : Ctrlr} {σ : Type} {body : Int32 → ℕ → σ → σ}

theorem toInt32_ne_zero {nsid : UInt32} (h : nsid ≠ 0) : nsid.toInt32 ≠ 0 :=
  fun heq => h (congrArg Int32.toUInt32 heq)

theorem getNextActiveNs_eq {before after : List UInt32} {nsid : UInt32}
    (h : c.active = before ++ nsid :: after) : c.getNextActiveNs nsid = after.headD 0 := by
  have hinc := c.increasing
  rw [h, List.pairwise_append, List.pairwise_cons] at hinc
  obtain ⟨-, ⟨hafter, -⟩, hbefore⟩ := hinc
  have hskip : before.find? (nsid < ·) = none := by
    rw [List.find?_eq_none]
    intro id hid
    simpa using UInt32.le_of_lt (hbefore id hid nsid (by simp))
  rw [Ctrlr.getNextActiveNs, h, List.find?_append, hskip, Option.none_or,
    List.find?_cons_of_neg (by simp)]
  cases after with
  | nil => rfl
  | cons next after => simp [hafter next (by simp)]

/-- What the loop leaves behind if every id has a namespace. -/
def visitAll (c : Ctrlr) (body : Int32 → ℕ → σ → σ) (ids : List UInt32) (s : σ) : σ :=
  ids.foldl (fun s nsid => (c.getNs nsid).elim s fun ns => body nsid.toInt32 ns s) s

/-- The loop visits the ids from `after` on, with one unit of fuel for each and one to stop. -/
theorem nsLoop_ends {before after : List UInt32} (h : c.active = before ++ after)
    (hns : ∀ nsid ∈ after, c.getNs nsid ≠ none) (s : σ) :
    nsLoop c body (after.length + 1) (after.headD 0).toInt32 s = some (visitAll c body after s) := by
  induction after generalizing before s with
  | nil => rfl
  | cons nsid after ih =>
    obtain ⟨ns, hget⟩ := Option.ne_none_iff_exists'.1 (hns nsid (by simp))
    have hne := toInt32_ne_zero (c.ne_zero nsid (by simp [h]))
    have h' : c.active = (before ++ [nsid]) ++ after := by simp [h]
    rw [List.headD_cons, nsLoop, if_pos hne, UInt32.toUInt32_toInt32, hget]
    simp only [getNextActiveNs_eq h, List.length_cons]
    rw [ih h' fun id hid => hns id (by simp [hid])]
    simp [visitAll, hget]

theorem nsLoop_stuck {before after : List UInt32} (h : c.active = before ++ after)
    (hns : ∃ nsid ∈ after, c.getNs nsid = none) (fuel : ℕ) (s : σ) :
    nsLoop c body fuel (after.headD 0).toInt32 s = none := by
  induction fuel generalizing before after s with
  | zero => rfl
  | succ fuel ih =>
    cases after with
    | nil => simp at hns
    | cons nsid after =>
      have hne := toInt32_ne_zero (c.ne_zero nsid (by simp [h]))
      rw [List.headD_cons, nsLoop, if_pos hne, UInt32.toUInt32_toInt32]
      cases hget : c.getNs nsid with
      | none => exact ih h hns s
      | some ns =>
        have h' : c.active = (before ++ [nsid]) ++ after := by simp [h]
        simp only [getNextActiveNs_eq h]
        refine ih h' ?_ _
        obtain ⟨id, hid, hnone⟩ := hns
        rcases List.mem_cons.1 hid with rfl | hid
        · simp [hget] at hnone
        · exact ⟨id, hid, hnone⟩

theorem nsLoop_iff (c : Ctrlr) (body : Int32 → ℕ → σ → σ) (s : σ) :
    (∃ fuel s', nsLoop c body fuel c.getFirstActiveNs.toInt32 s = some s') ↔
      ∀ nsid ∈ c.active, c.getNs nsid ≠ none := by
  have h : c.active = [] ++ c.active := rfl
  refine ⟨?_, ?_⟩
  · rintro ⟨fuel, s', hs'⟩ nsid hmem hnone
    rw [Ctrlr.getFirstActiveNs, nsLoop_stuck h ⟨nsid, hmem, hnone⟩] at hs'
    cases hs'
  · intro hns
    exact ⟨_, _, nsLoop_ends h hns s⟩

/-- The entries for the active ids that have a namespace, in the order of the ids. -/
def Ctrlr.entries (c : Ctrlr) (entry : ℕ) : List NamespaceEntry :=
  c.active.filterMap fun nsid => (c.getNs nsid).map fun ns => ⟨ns, entry, nsid.toInt32⟩

theorem visitAll_entries (entry : ℕ) (ids : List UInt32) (entries : List NamespaceEntry) :
    visitAll c (fun nsid ns entries => entries ++ [⟨ns, entry, nsid⟩]) ids entries =
      entries ++ ids.filterMap fun nsid => (c.getNs nsid).map fun ns => ⟨ns, entry, nsid.toInt32⟩ := by
  induction ids generalizing entries with
  | nil => simp [visitAll]
  | cons nsid ids ih =>
    refine (ih _).trans ?_
    cases hget : c.getNs nsid <;> simp [hget]

theorem nvmeAttachCb_gNs (fuel : ℕ) (traddr : List UInt8) (ctrlr : ℕ) (c : Ctrlr) (qpair : Option ℕ)
    (g : Globals) :
    (nvmeAttachCb fuel traddr ctrlr c qpair g).map Globals.gNs =
      nsLoop c (fun nsid ns entries => entries ++ [⟨ns, g.gCtrlr.length, nsid⟩]) fuel
        c.getFirstActiveNs.toInt32 g.gNs := by
  simp [nvmeAttachCb, Function.comp_def]

/-- Both callbacks end, and `nvme_attach_cb` adds the entries of the active namespaces, if and
only if no active id is without a namespace. -/
theorem enumeration_iff (traddr : List UInt8) (ctrlr : ℕ) (c : Ctrlr) (qpair : Option ℕ) (g : Globals) :
    ((∃ fuel g', nvmeAttachCb fuel traddr ctrlr c qpair g = some g' ∧
        g'.gNs = g.gNs ++ c.entries g.gCtrlr.length) ∧
      ∃ fuel commands, nvmeOperaAttachCallback fuel c = some commands) ↔
    ∀ nsid ∈ c.active, c.getNs nsid ≠ none := by
  refine ⟨fun h => (nsLoop_iff c _ _).1 h.2, fun hns => ⟨?_, (nsLoop_iff c _ _).2 hns⟩⟩
  have h : c.active = [] ++ c.active := rfl
  refine ⟨c.active.length + 1, Option.map_eq_some_iff.1 ?_⟩
  rw [nvmeAttachCb_gNs, Ctrlr.getFirstActiveNs, nsLoop_ends h hns, visitAll_entries, Ctrlr.entries]

def missing : Ctrlr := ⟨[1], by simp, by simp, fun _ => none⟩

theorem enumeration_stuck :
    (¬∃ fuel g', nvmeAttachCb fuel [] 0 missing none ⟨none, none, [], []⟩ = some g') ∧
      ¬∃ fuel commands, nvmeOperaAttachCallback fuel missing = some commands := by
  have hnone : ¬∀ nsid ∈ missing.active, missing.getNs nsid ≠ none := by simp [missing]
  refine ⟨?_, fun h => hnone ((nsLoop_iff missing _ _).1 h)⟩
  rintro ⟨fuel, g', hg'⟩
  have hloop := nvmeAttachCb_gNs fuel [] 0 missing none ⟨none, none, [], []⟩
  rw [hg', Option.map_some] at hloop
  exact hnone ((nsLoop_iff missing _ _).1 ⟨fuel, _, hloop.symm⟩)

end Nvme

end LearnSpdk
