import LearnSpdk.Lib.SortedList

/-! Rows of blocks with a separating key between each two neighbours. All order
conditions on such a row say one thing: the keys of the blocks, written down with the
separators between them, are sorted. -/

namespace Lib

variable {κ β : Type*} {f g : β → List κ}

/-- The keys of a row of blocks, each followed by its separator. -/
def before (f : β → List κ) : List κ → List β → List κ
  | s :: ks, p :: ps => f p ++ s :: before f ks ps
  | _, _ => []

/-- The keys of a row of blocks, each preceded by its separator. -/
def after (f : β → List κ) : List κ → List β → List κ
  | s :: ks, p :: ps => s :: (f p ++ after f ks ps)
  | _, ps => ps.flatMap f

/-- The keys of a row of blocks with separators between the blocks. -/
def weave (f : β → List κ) (ks : List κ) : List β → List κ
  | [] => []
  | p :: ps => f p ++ after f ks ps

theorem before_congr {ps : List β} (h : ∀ p ∈ ps, f p = g p) (ks : List κ) :
    before f ks ps = before g ks ps := by
  induction ps generalizing ks with
  | nil => cases ks <;> rfl
  | cons p ps ih =>
    cases ks with
    | nil => rfl
    | cons s ks => simp only [before, h p (by simp), ih (fun q hq => h q (by simp [hq])) ks]

theorem after_congr {ps : List β} (h : ∀ p ∈ ps, f p = g p) (ks : List κ) :
    after f ks ps = after g ks ps := by
  induction ps generalizing ks with
  | nil => cases ks <;> rfl
  | cons p ps ih =>
    have hps : ∀ q ∈ ps, f q = g q := fun q hq => h q (by simp [hq])
    cases ks with
    | nil =>
      have hflat := ih hps []
      simp only [after] at hflat ⊢
      simp only [List.flatMap_cons, h p (by simp), hflat]
    | cons s ks => simp only [after, h p (by simp), ih hps ks]

theorem mem_before {ks : List κ} {ps : List β} (hlen : ks.length = ps.length) {x : κ} :
    x ∈ before f ks ps ↔ x ∈ ks ∨ x ∈ ps.flatMap f := by
  induction ks generalizing ps with
  | nil =>
    obtain rfl := List.length_eq_zero_iff.1 hlen.symm
    simp [before]
  | cons s ks ih =>
    cases ps with
    | nil => simp at hlen
    | cons p ps =>
      simp only [before, List.mem_append, List.mem_cons, List.flatMap_cons,
        ih (Nat.succ_inj.1 hlen)]
      tauto

theorem mem_after {ks : List κ} {ps : List β} (hlen : ks.length = ps.length) {x : κ} :
    x ∈ after f ks ps ↔ x ∈ ks ∨ x ∈ ps.flatMap f := by
  induction ks generalizing ps with
  | nil =>
    obtain rfl := List.length_eq_zero_iff.1 hlen.symm
    simp [after]
  | cons s ks ih =>
    cases ps with
    | nil => simp at hlen
    | cons p ps =>
      simp only [after, List.mem_append, List.mem_cons, List.flatMap_cons,
        ih (Nat.succ_inj.1 hlen)]
      tauto

theorem sublist_after {ks : List κ} {ps : List β} (hlen : ks.length = ps.length) :
    ks.Sublist (after f ks ps) := by
  induction ks generalizing ps with
  | nil => exact List.nil_sublist _
  | cons s ks ih =>
    cases ps with
    | nil => simp at hlen
    | cons p ps =>
      exact .cons_cons s ((ih (Nat.succ_inj.1 hlen)).trans (List.sublist_append_right _ _))

/-- The keys of the blocks alone, in their order. -/
theorem flatMap_sublist_weave (ks : List κ) (ps : List β) : (ps.flatMap f).Sublist (weave f ks ps) := by
  have hafter (ks : List κ) (ps : List β) : (ps.flatMap f).Sublist (after f ks ps) := by
    induction ps generalizing ks with
    | nil => cases ks <;> simp [after]
    | cons p ps ih =>
      cases ks with
      | nil => exact List.Sublist.refl _
      | cons s ks => exact ((List.Sublist.refl (f p)).append (ih ks)).cons s
  cases ps with
  | nil => exact List.Sublist.refl _
  | cons p ps => exact (List.Sublist.refl (f p)).append (hafter ks ps)

/-- A row opened at one of its blocks. -/
theorem weave_append {ks₁ ks₂ : List κ} {ps₁ ps₂ : List β} {p : β} (hlen : ks₁.length = ps₁.length) :
    weave f (ks₁ ++ ks₂) (ps₁ ++ p :: ps₂) = before f ks₁ ps₁ ++ (f p ++ after f ks₂ ps₂) := by
  induction ks₁ generalizing ps₁ p with
  | nil =>
    obtain rfl := List.length_eq_zero_iff.1 hlen.symm
    simp [before, weave]
  | cons s ks₁ ih =>
    cases ps₁ with
    | nil => simp at hlen
    | cons q ps₁ =>
      have hrest := ih (p := p) (Nat.succ_inj.1 hlen)
      cases ps₁ with
      | nil =>
        obtain rfl := List.length_eq_zero_iff.1 (Nat.succ_inj.1 hlen)
        simp [weave, before, after]
      | cons r ps₁ =>
        simp only [weave, List.cons_append] at hrest ⊢
        simp only [after, before, hrest, List.append_assoc, List.cons_append]

variable [LinearOrder κ]

theorem lt_of_mem_before {ks : List κ} {ps : List β} {k : κ}
    (hs : (before f ks ps).Pairwise (· ≤ ·)) (hk : ∀ s ∈ ks, s < k) :
    ∀ x ∈ before f ks ps, x < k := by
  induction ks generalizing ps with
  | nil => simp [before]
  | cons s ks ih =>
    cases ps with
    | nil => simp [before]
    | cons p ps =>
      simp only [before, List.pairwise_append, List.pairwise_cons] at hs
      obtain ⟨-, ⟨-, hrest⟩, hle⟩ := hs
      have hsk : s < k := hk s (by simp)
      intro x hx
      simp only [before, List.mem_append, List.mem_cons] at hx
      rcases hx with hx | rfl | hx
      · exact lt_of_le_of_lt (hle x hx s (by simp)) hsk
      · exact hsk
      · exact ih hrest (fun s hs => hk s (by simp [hs])) x hx

theorem le_of_mem_after {ks : List κ} {ps : List β} {k : κ} (hlen : ks.length = ps.length)
    (hs : (after f ks ps).Pairwise (· ≤ ·)) (hk : ∀ s ∈ ks, k ≤ s) :
    ∀ x ∈ after f ks ps, k ≤ x := by
  cases ks with
  | nil =>
    obtain rfl := List.length_eq_zero_iff.1 hlen.symm
    simp [after]
  | cons s ks =>
    cases ps with
    | nil => simp at hlen
    | cons p ps =>
      have hsk : k ≤ s := hk s (by simp)
      intro x hx
      rcases List.mem_cons.1 hx with rfl | hx
      · exact hsk
      · exact le_trans hsk ((List.pairwise_cons.1 hs).1 x hx)

/-- The block of a row that a search for `x` ends in: it goes right of the separators
below `x`. -/
def route (x : κ) : List κ → List β → Option β
  | s :: ks, p :: ps => if s < x then route x ks ps else some p
  | _, ps => ps.head?

theorem route_eq_getElem? (x : κ) (ks : List κ) (ps : List β) :
    route x ks ps = ps[(ks.takeWhile (· < x)).length]? := by
  induction ks generalizing ps with
  | nil => simp [route, List.head?_eq_getElem?]
  | cons s ks ih =>
    cases ps with
    | nil => simp [route]
    | cons p ps =>
      by_cases hs : s < x
      · simp [route, hs, ih]
      · simp [route, hs]

theorem mem_of_route {x : κ} {ks : List κ} {ps : List β} {p : β} (h : route x ks ps = some p) :
    p ∈ ps := by
  rw [route_eq_getElem?] at h
  exact List.mem_of_getElem? h

/-- A search for a key between the separators on both sides of a block. -/
theorem route_append {ks₁ ks₂ : List κ} {ps₁ ps₂ : List β} {p : β} {x : κ}
    (hlen : ks₁.length = ps₁.length) (h₁ : ∀ u ∈ ks₁, u < x) (h₂ : ∀ u ∈ ks₂, x ≤ u) :
    route x (ks₁ ++ ks₂) (ps₁ ++ p :: ps₂) = some p := by
  induction ks₁ generalizing ps₁ with
  | nil =>
    obtain rfl := List.length_eq_zero_iff.1 hlen.symm
    cases ks₂ with
    | nil => rfl
    | cons u ks₂ =>
      have hu : ¬u < x := not_lt.2 (h₂ u (by simp))
      simp [route, hu]
  | cons u ks₁ ih =>
    cases ps₁ with
    | nil => simp at hlen
    | cons r ps₁ =>
      have hu : u < x := h₁ u (by simp)
      simpa [route, hu] using ih (Nat.succ_inj.1 hlen) fun w hw => h₁ w (by simp [hw])

/-- A search after the block `p` was split in two, with `s` between them. -/
theorem route_split [DecidableEq β] {ks₁ ks₂ : List κ} {ps₁ ps₂ : List β} {p q : β} {s : κ}
    (hlen : ks₁.length = ps₁.length) (hs : ∀ u ∈ ks₂, s ≤ u) (hp₁ : p ∉ ps₁) (hp₂ : p ∉ ps₂) (x : κ) :
    route x (ks₁ ++ s :: ks₂) (ps₁ ++ p :: q :: ps₂) =
      (route x (ks₁ ++ ks₂) (ps₁ ++ p :: ps₂)).map fun r => if r = p ∧ s < x then q else r := by
  induction ks₁ generalizing ps₁ with
  | nil =>
    obtain rfl := List.length_eq_zero_iff.1 hlen.symm
    cases ks₂ with
    | nil => by_cases hsx : s < x <;> simp [route, hsx]
    | cons u ks₂ =>
      by_cases hux : u < x
      · have hsx : s < x := lt_of_le_of_lt (hs u (by simp)) hux
        cases hr : route x ks₂ ps₂ with
        | none => simp [route, hsx, hux, hr]
        | some r =>
          have hne : r ≠ p := by
            rintro rfl
            exact hp₂ (mem_of_route hr)
          simp [route, hsx, hux, hr, hne]
      · by_cases hsx : s < x <;> simp [route, hsx, hux]
  | cons u ks₁ ih =>
    cases ps₁ with
    | nil => simp at hlen
    | cons r ps₁ =>
      obtain ⟨hr, hp₁⟩ := not_or.1 (List.mem_cons.not.1 hp₁)
      have hrest := ih (Nat.succ_inj.1 hlen) hp₁
      by_cases hux : u < x
      · simpa [route, hux] using hrest
      · simp [route, hux, Ne.symm hr]

/-- The row `ks`, `ps` opened at the block `p` that a search for `k` ends in. -/
structure Cut (f : β → List κ) (k : κ) (ks : List κ) (ps : List β) (ks₁ ks₂ : List κ)
    (ps₁ : List β) (p : β) (ps₂ : List β) : Prop where
  keys : ks = ks₁ ++ ks₂
  blocks : ps = ps₁ ++ p :: ps₂
  length₁ : ks₁.length = ps₁.length
  length₂ : ks₂.length = ps₂.length
  takeWhile : ks.takeWhile (· < k) = ks₁
  lt : ∀ x ∈ before f ks₁ ps₁, x < k
  le : ∀ x ∈ after f ks₂ ps₂, k ≤ x

theorem Cut.weave {k : κ} {ks ks₁ ks₂ : List κ} {ps ps₁ ps₂ : List β} {p : β}
    (c : Cut f k ks ps ks₁ ks₂ ps₁ p ps₂) :
    weave f ks ps = before f ks₁ ps₁ ++ (f p ++ after f ks₂ ps₂) := by
  rw [c.keys, c.blocks, weave_append c.length₁]

theorem Cut.route {k : κ} {ks ks₁ ks₂ : List κ} {ps ps₁ ps₂ : List β} {p : β}
    (c : Cut f k ks ps ks₁ ks₂ ps₁ p ps₂) : route k ks ps = some p := by
  rw [route_eq_getElem?, c.takeWhile, c.length₁, c.blocks]
  simp

theorem exists_weave_cut {ks : List κ} {ps : List β} (hs : (weave f ks ps).Pairwise (· ≤ ·))
    (hlen : ps.length = ks.length + 1) (k : κ) :
    ∃ ks₁ ks₂ ps₁ p ps₂, Cut f k ks ps ks₁ ks₂ ps₁ p ps₂ := by
  have hks : ks.Pairwise (· ≤ ·) := by
    cases ps with
    | nil => simp at hlen
    | cons p ps =>
      have hsub : ks.Sublist (after f ks ps) := sublist_after (Nat.succ_inj.1 hlen).symm
      exact hs.sublist (hsub.trans (List.sublist_append_right _ _))
  obtain ⟨ks₁, ks₂, rfl, htake, hlt, hle⟩ := exists_cut hks k
  have hcut : (ks₁ ++ (ks₂ ++ [k])).length = ps.length := by
    rw [hlen, ← List.append_assoc, List.length_append, List.length_singleton]
  obtain ⟨ps₁, qs, rfl, hlen₁, hlen₂⟩ := exists_append_of_length hcut
  cases qs with
  | nil => simp at hlen₂
  | cons p ps₂ =>
    have hlen₂' : ks₂.length = ps₂.length := by simpa using hlen₂
    rw [weave_append hlen₁] at hs
    obtain ⟨h₁, h₂, -⟩ := List.pairwise_append.1 hs
    refine ⟨ks₁, ks₂, ps₁, p, ps₂, rfl, rfl, hlen₁, hlen₂', htake, lt_of_mem_before h₁ hlt, ?_⟩
    exact le_of_mem_after hlen₂' (List.pairwise_append.1 h₂).2.1 hle

end Lib
