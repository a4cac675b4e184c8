import LearnSpdk.Lib.Attempt
import LearnSpdk.Proofs.MyfsAnswers

/-! Which operation a poll reports on. The operations on a file share its `done` flag, so a
callback of an operation that was given up ends the polling of a later one. -/

namespace LearnSpdk

open Lib

namespace Myfs

variable {w w' v u : World} {rs : List Reply} {k : FileOp} {st : Status} {s s' : Stage} {f i : ℕ} {p : Replies}
  {b : Bool}

/-- A callback of the call, or of a call it leads to, may end the polling. -/
def Finishes (st : Status) : Stage → Prop
  | .closeBlob => st = .close ∨ st = .release
  | _ => True

/-- No request of an earlier operation on the file can end the polling of the next one: neither
before its message, with the status that the file has, nor after it. -/
def Quiet (w : World) (k : FileOp) (f : ℕ) : Prop :=
  ∀ i s, w.ledger.waits i = some (f, s) →
    ¬Finishes (w.heap f).status s ∧ ¬Finishes (k.statusOn (w.heap f)) s

/-- Such a request is a close that finds another status: its callback does nothing. -/
theorem next_of_not_finishes (h : ¬Finishes st s) (e : ℤ) :
    ¬Answer.SetsDone ⟨s, st, e⟩ ∧ Answer.next ⟨s, st, e⟩ = none := by
  cases s with
  | closeBlob =>
    simp only [Finishes, not_or] at h
    simp [Answer.SetsDone, Answer.next, h.1, h.2]
  | _ => exact absurd trivial h

theorem answers_of_not_finishes (h : ¬Finishes st s) {es : List ℤ} {a : Answer}
    (ha : a ∈ answers st (some s) es) : ¬a.SetsDone := by
  cases es with
  | nil => simp at ha
  | cons e es =>
    obtain ⟨hdone, hnext⟩ := next_of_not_finishes h e
    rw [answers, hnext, answers_none, List.mem_singleton] at ha
    rwa [ha]

theorem rest_of_not_finishes (h : ¬Finishes st s) {es : List ℤ} (hs : rest st (some s) es = some s') : s' = s := by
  cases es with
  | nil => exact (Option.some.inj hs).symm
  | cons e es => simp [rest, (next_of_not_finishes h e).2] at hs

theorem statusOn_cases (k : FileOp) (file file' : File) (h : file'.status = file.status) :
    k.statusOn file' = file.status ∨ k.statusOn file' = .open ∨ k.statusOn file' = k.statusOn file := by
  unfold FileOp.statusOn
  split_ifs with hk hk' hk' <;> simp_all [FileOp.status]

theorem Quiet.statusOn (h : Quiet w k f) (hi : w.ledger.waits i = some (f, s)) {file : File}
    (hfile : file.status = (w.heap f).status) : ¬Finishes (k.statusOn file) s := by
  obtain ⟨hold, hnew⟩ := h i s hi
  rcases statusOn_cases k (w.heap f) file hfile with heq | heq | heq
  · rwa [heq]
  · rw [heq]
    cases s <;> simp_all [Finishes]
  · rwa [heq]

theorem operate_completed (hw : Numbered w) (hquiet : Quiet w k f) (h : operate k p f w = some (true, w')) :
    Completed w' w.ops k := by
  obtain ⟨hdone, -, v, u, n, hv, hu, -, -, hstop⟩ := operate_eq_some_iff.1 h
  have hlate := poll_polled hstop.poll
  have hledger := begun_ledger hv hu hw
  rcases (hlate.done f).1 hdone.symm with hold | ⟨i, s, hi, a, ha, hset⟩
  · -- an old request that was answered before the message
    obtain ⟨i, s, hi, a, ha, hset⟩ := (begun_done hv hu).1 hold
    rw [Ledger.answersTo_of_some hi] at ha
    exact absurd hset (answers_of_not_finishes (hquiet i s hi).1 ha)
  by_cases hown : i = w.ops
  · subst hown
    have hlast : a.stage = k.last := by
      rw [hledger] at ha
      exact (begin_setsDone ha).1 hset
    refine completed_iff.2 ⟨a.bserrno, ?_⟩
    rw [hlate.ran, begun_answered hv hu hw, List.nil_append, ← hlast]
    exact List.mem_map_of_mem (f := fun a => (a.stage, a.bserrno)) ha
  · -- an old request that was answered after the message
    have hafter : (w.ledger.after p.early).waits i = some (f, s) := by
      rw [hledger] at hi
      simpa [Ledger.begin, Function.update_of_ne hown] using hi
    obtain ⟨s', hi'⟩ := Ledger.waits_of_after hafter
    have hs : s = s' := by
      rw [Ledger.after_of_some hi', Option.map_eq_some_iff] at hafter
      obtain ⟨s'', hrest, heq⟩ := hafter
      obtain rfl := (Prod.mk.inj heq).2
      exact rest_of_not_finishes (hquiet i s' hi').1 hrest
    subst hs
    have hstatus : (v.heap f).status = (w.heap f).status :=
      congrArg (fun l : Ledger => l.status f) (early_ledger hv)
    rw [Ledger.answersTo_of_some hi, hledger] at ha
    simp only [Ledger.begin, Function.update_self] at ha
    exact absurd hset (answers_of_not_finishes (hquiet.statusOn hi' hstatus) ha)

def Stage.BeforeBlob (s : Stage) : Prop := s = .getSuper ∨ s = .createBlob ∨ s = .openBlob

/-- Answers without an error to a call that can end the polling and to those it leads to. -/
theorem answers_finish (h : Finishes st s) :
    (∃ a ∈ answers st (some s) [0, 0, 0], a.SetsDone) ∧
      (s.BeforeBlob → ∃ a ∈ answers st (some s) [0, 0, 0], a.Opens) := by
  cases s with
  | closeBlob =>
    rcases h with rfl | rfl <;>
      simp [answers, Answer.next, Answer.SetsDone, Stage.BeforeBlob]
  | _ => simp [answers, Answer.next, Answer.SetsDone, Answer.Opens, Stage.BeforeBlob]

theorem bserrno_mem_of_answers {st : Status} {s : Option Stage} {es : List ℤ} {a : Answer} (h : a ∈ answers st s es) :
    a.bserrno ∈ es := by
  induction es generalizing s with
  | nil => simp at h
  | cons e es ih =>
    cases s with
    | none => simp at h
    | some s =>
      rw [answers, List.mem_cons] at h
      rcases h with rfl | h
      · exact List.mem_cons_self
      · exact List.mem_cons_of_mem _ (ih h)

/-- The file of a request that comes after the opening of the blob has its blob. -/
def Blobbed (w : World) : Prop :=
  ∀ i f s, w.ledger.waits i = some (f, s) → ¬s.BeforeBlob → (w.heap f).blob.isSome

theorem rest_opens {es : List ℤ} (hs : rest st (some s) es = some s') (hs' : ¬s'.BeforeBlob) :
    ¬s.BeforeBlob ∨ ∃ a ∈ answers st (some s) es, a.Opens := by
  induction es generalizing s with
  | nil =>
    obtain rfl := Option.some.inj hs
    exact .inl hs'
  | cons e es ih =>
    rw [rest] at hs
    cases hnext : Answer.next ⟨s, st, e⟩ with
    | none => simp [hnext] at hs
    | some t =>
      rw [hnext] at hs
      rw [answers, hnext]
      rcases ih hs with ht | ⟨a, ha, hopens⟩
      · cases s <;> simp_all [Stage.BeforeBlob, Answer.next, Answer.Opens]
        grind
      · exact .inr ⟨a, List.mem_cons_of_mem _ ha, hopens⟩

theorem Polled.blobbed (h : Polled w rs w') (hw : Blobbed w) : Blobbed w' := by
  intro i f s hi hs
  rw [h.ledger] at hi
  obtain ⟨s', hi'⟩ := Ledger.waits_of_after hi
  rw [Ledger.after_of_some hi', Option.map_eq_some_iff] at hi
  obtain ⟨t, hrest, heq⟩ := hi
  obtain rfl := (Prod.mk.inj heq).2
  rw [h.blob]
  rcases rest_opens hrest hs with hs' | ⟨a, ha, hopens⟩
  · exact .inl (hw i f s' hi' hs')
  · exact .inr ⟨i, s', hi', a, by rwa [Ledger.answersTo_of_some hi'], hopens⟩

theorem begun_blobbed (hv : poll p.early (w.cleared f) = some v) (hu : k.message f w.ops v = some u)
    (hw : Numbered w) (hblob : Blobbed w) : Blobbed u := by
  have hcleared : Blobbed (w.cleared f) := by
    intro i g s hi hs
    rw [cleared_ledger] at hi
    have hg := hblob i g s hi hs
    by_cases hgf : g = f
    · subst hgf
      simpa [World.cleared, World.setDone, heap_setFile] using hg
    · simpa [World.cleared, World.setDone, heap_setFile, hgf] using hg
  have hearly := (poll_polled hv).blobbed hcleared
  intro i g s hi hs
  rw [(message_begun hu).blob]
  rw [begun_ledger hv hu hw] at hi
  simp only [Ledger.begin, Function.update_apply] at hi
  split_ifs at hi with hown
  · -- the first call of the operation follows the blob, or comes before there is one
    obtain ⟨t, hfirst, heq⟩ := Option.map_eq_some_iff.1 hi
    obtain ⟨rfl, rfl⟩ := Prod.mk.inj heq
    refine message_isSome.1 (Option.isSome_iff_exists.2 ⟨u, hu⟩) ?_
    cases k <;> simp_all [FileOp.first, Stage.BeforeBlob, FileOp.UsesBlob]
  · rw [← early_ledger hv] at hi
    exact hearly i g s hi hs

theorem Blobbed.operate (hw : Numbered w) (hblob : Blobbed w) (h : operate k p f w = some (b, w')) :
    Blobbed w' := by
  obtain ⟨-, -, v, u, n, hv, hu, -, -, hstop⟩ := operate_eq_some_iff.1 h
  exact (poll_polled hstop.poll).blobbed (begun_blobbed hv hu hw hblob)

/-- The same replies in each poll, and none before the message. -/
def Replies.always (rs : List Reply) : Replies := ⟨[], fun _ => rs⟩

theorem operate_of_poll (hk : k.Asserts) (hv : poll p.early (w.cleared f) = some v)
    (hu : k.message f w.ops v = some u) (hpoll : poll (p.polls 0) u = some w') (hdone : (w'.heap f).done = true) :
    operate k p f w = some (true, w') := by
  have hfirst : p.upTo 1 = p.polls 0 := by simp [Replies.upTo]
  refine operate_eq_some_iff.2 ⟨hdone.symm, hk, v, u, 1, hv, hu, by omega, by decide, ?_⟩
  exact ⟨hfirst ▸ hpoll, by omega, .inl hdone⟩

def zeros (i : ℕ) : List Reply := List.replicate 3 ⟨i, 0, 0, 0⟩

theorem errors_zeros (i j : ℕ) : errors j (zeros i) = if i = j then [0, 0, 0] else [] := by
  unfold errors zeros
  split_ifs with h <;> simp [h]

theorem poll_zeros (w : World) (i : ℕ) : ∃ v, poll (zeros i) w = some v := by
  rw [← Option.isSome_iff_exists, poll_isSome]
  rintro g ⟨j, s, hj, a, ha, -, he⟩
  rw [Ledger.answersTo_of_some hj] at ha
  have hmem := bserrno_mem_of_answers ha
  rw [errors_zeros] at hmem
  split_ifs at hmem <;> simp_all

theorem answersTo_zeros {l : Ledger} (h : l.waits i = some (f, s)) :
    l.answersTo (zeros i) i = answers (l.status f) (some s) [0, 0, 0] := by
  rw [Ledger.answersTo_of_some h, errors_zeros, if_pos rfl]

theorem answersTo_zeros_of_ne {l : Ledger} {j : ℕ} (h : i ≠ j) : l.answersTo (zeros i) j = [] := by
  cases hj : l.waits j with
  | none => exact Ledger.answersTo_of_none hj _
  | some x => rw [Ledger.answersTo_of_some hj, errors_zeros, if_neg h, answers_nil]

/-- An old request ends the polling before the message, or after it; the operation itself gets
no answer. -/
theorem operate_misled (hw : Numbered w) (hblob : Blobbed w) (hk : k.Asserts) (h : ¬Quiet w k f) :
    ∃ p w', operate k p f w = some (true, w') ∧ ¬Completed w' w.ops k := by
  simp only [Quiet, not_forall, not_and_or, not_not] at h
  obtain ⟨i, s, hi, hfin⟩ := h
  have hne : i ≠ w.ops := by
    rintro rfl
    simp [(hw w.ops le_rfl).1] at hi
  by_cases hold : Finishes (w.heap f).status s
  · obtain ⟨hset, hopens⟩ := answers_finish hold
    have hgets : ∀ {P : Answer → Prop}, (∃ a ∈ answers (w.heap f).status (some s) [0, 0, 0], P a) →
        w.ledger.Gets f (zeros i) P := by
      intro P hP
      refine ⟨i, s, hi, ?_⟩
      rwa [answersTo_zeros hi]
    obtain ⟨v, hv⟩ := poll_zeros (w.cleared f) i
    have hblob' : (v.heap f).blob.isSome := by
      rw [(poll_polled hv).blob, cleared_ledger]
      by_cases hs : s.BeforeBlob
      · exact .inr (hgets (hopens hs))
      · left
        simpa [World.cleared, World.setDone, heap_setFile] using hblob i f s hi hs
    obtain ⟨u, hu⟩ : ∃ u, k.message f w.ops v = some u :=
      Option.isSome_iff_exists.1 (message_isSome.2 fun _ => hblob')
    let p : Replies := ⟨zeros i, fun _ => []⟩
    have hv : poll p.early (w.cleared f) = some v := hv
    refine ⟨p, u, operate_of_poll hk hv hu rfl ((begun_done hv hu).2 (hgets hset)), ?_⟩
    rw [completed_iff, begun_answered hv hu hw]
    simp
  · have hnew : Finishes (k.statusOn (w.heap f)) s := hfin.resolve_left hold
    have hs : s = .closeBlob := by cases s <;> first | rfl | exact absurd trivial hold
    subst hs
    have hblob' : ((w.cleared f).heap f).blob.isSome := by
      have h := hblob i f _ hi (by simp [Stage.BeforeBlob])
      simpa [World.cleared, World.setDone, heap_setFile] using h
    obtain ⟨u, hu⟩ : ∃ u, k.message f w.ops (w.cleared f) = some u :=
      Option.isSome_iff_exists.1 (message_isSome.2 fun _ => hblob')
    obtain ⟨x, hx⟩ := poll_zeros u i
    let p : Replies := .always (zeros i)
    have hv : poll p.early (w.cleared f) = some (w.cleared f) := rfl
    have hwaits : u.ledger.waits i = some (f, .closeBlob) := by
      rw [begun_ledger hv hu hw]
      simp only [Ledger.begin, Function.update_of_ne hne]
      rw [show p.early = [] from rfl, Ledger.after_nil, hi]
    have hstatus : u.ledger.status f = k.statusOn (w.heap f) := by
      rw [begun_ledger hv hu hw]
      simp [Ledger.begin, FileOp.statusOn, World.cleared, World.setDone, heap_setFile]
    have hset : (x.heap f).done = true := by
      refine ((poll_polled hx).done f).2 (.inr ⟨i, .closeBlob, hwaits, ?_⟩)
      rw [answersTo_zeros hwaits, hstatus]
      exact (answers_finish hnew).1
    refine ⟨p, x, operate_of_poll hk hv hu hx hset, ?_⟩
    rw [completed_iff, (poll_polled hx).ran, begun_answered hv hu hw, answersTo_zeros_of_ne hne]
    simp

/-- `poller` returns `true` for an operation only if its completion callback has run. -/
def TrueTo (w : World) (o : Operation) : Prop :=
  ∀ w', operate o.op o.replies o.file w = some (true, w') → Completed w' w.ops o.op

/-- An operation that starts when nothing old can end its polling. -/
def Undisturbed (w : World) (o : Operation) : Prop := Quiet w o.op o.file

theorem run_numbered {unitSize : ℕ} {ops : List Operation}
    (h : attempt perform (World.initial unitSize) ops = some w) : Numbered w ∧ Blobbed w := by
  apply attempt_induct (I := fun w => Numbered w ∧ Blobbed w) ⟨fun _ _ => ⟨rfl, rfl⟩, by simp [Blobbed, World.initial,
    World.ledger]⟩ _ h
  rintro w o w' ⟨hw, hblob⟩ ho
  obtain ⟨⟨b, v⟩, hv, rfl⟩ := Option.map_eq_some_iff.1 ho
  exact ⟨hw.operate hv, hblob.operate hw hv⟩

/-- In a run without disturbed operations `poller` returns `true` only for what has completed,
and the blob layer may make it fail at any disturbed operation. -/
theorem run_trueTo (unitSize : ℕ) :
    (∀ ops, Meets perform (World.initial unitSize) Undisturbed ops →
      Meets perform (World.initial unitSize) TrueTo ops) ∧
    ∀ ops w f (k : FileOp), attempt perform (World.initial unitSize) ops = some w → k.Asserts →
      ((∀ p, TrueTo w ⟨f, k, p⟩) ↔ Quiet w k f) := by
  refine ⟨fun ops h k hk w hw w' ho => ?_, fun ops w f k hw hk => ⟨fun h => ?_, ?_⟩⟩
  · exact operate_completed (run_numbered hw).1 (h k hk w hw) ho
  · by_contra hquiet
    obtain ⟨hnumbered, hblob⟩ := run_numbered hw
    obtain ⟨p, w', ho, hnot⟩ := operate_misled hnumbered hblob hk hquiet
    exact hnot (h p w' ho)
  · intro hquiet p w' ho
    exact operate_completed (run_numbered hw).1 hquiet ho

theorem operate_idle (hk : k.Asserts) (hu : k.message f w.ops (w.cleared f) = some u)
    (hdone : (u.heap f).done = false) : operate k (.always []) f w = some (false, u) := by
  have hupTo : ∀ n, (Replies.always []).upTo n = [] := by simp [Replies.upTo, Replies.always]
  refine operate_eq_some_iff.2 ⟨hdone.symm, hk, _, u, POLLER_MAX_TIME, rfl, hu, by decide, le_rfl, ?_⟩
  refine ⟨by rw [hupTo]; rfl, fun m _ _ v hv => ?_, .inr rfl⟩
  rw [hupTo] at hv
  obtain rfl := Option.some.inj hv
  exact hdone

/-- The answers to the requests of a create, which is the first operation: there is no super
blob, and blob 7 is created, opened and resized. -/
def createReplies : List Reply := [⟨0, -ENOENT, 0, 0⟩, ⟨0, 0, 7, 0⟩, ⟨0, 0, 7, 4⟩, ⟨0, 0, 0, 0⟩]

/-- A file is created, a write to it times out, and the callback of the write runs while a read
is polled. -/
theorem read_trueTo_write :
    ¬Meets perform (World.initial 512) TrueTo
      [⟨0, .create, .always createReplies⟩, ⟨0, .write 1 8, .always []⟩,
        ⟨0, .read 1 8, .always [⟨1, 0, 0, 0⟩]⟩] := by
  intro h
  obtain ⟨u₁, w₁, u₂, u₃, w₃, hu₁, hw₁, hdone₁, hu₂, hdone₂, hu₃, hw₃, hdone₃, hops, hran⟩ :
      ∃ u₁ w₁ u₂ u₃ w₃, FileOp.message .create 0 (World.initial 512).ops ((World.initial 512).cleared 0) = some u₁ ∧
        poll createReplies u₁ = some w₁ ∧ (w₁.heap 0).done = true ∧
        FileOp.message (.write 1 8) 0 w₁.ops (w₁.cleared 0) = some u₂ ∧ (u₂.heap 0).done = false ∧
        FileOp.message (.read 1 8) 0 u₂.ops (u₂.cleared 0) = some u₃ ∧ poll [⟨1, 0, 0, 0⟩] u₃ = some w₃ ∧
        (w₃.heap 0).done = true ∧ u₂.ops = 2 ∧ w₃.ran.map Answered.op = [0, 0, 0, 0, 1] :=
    ⟨_, _, _, _, _, rfl, rfl, rfl, rfl, rfl, rfl, rfl, rfl, rfl, rfl⟩
  have hop₁ : operate .create (.always createReplies) 0 (World.initial 512) = some (true, w₁) :=
    operate_of_poll (by decide) rfl hu₁ hw₁ hdone₁
  have hop₃ : operate (.read 1 8) (.always [⟨1, 0, 0, 0⟩]) 0 u₂ = some (true, w₃) :=
    operate_of_poll (by decide) rfl hu₃ hw₃ hdone₃
  have hfirst : perform ⟨0, .create, .always createReplies⟩ (World.initial 512) = some w₁ := by
    simp only [perform, hop₁, Option.map_some]
  have hsecond : perform ⟨0, .write 1 8, .always []⟩ w₁ = some u₂ := by
    simp only [perform, operate_idle (k := .write 1 8) (by decide) hu₂ hdone₂, Option.map_some]
  have hrun : attempt perform (World.initial 512) ([⟨0, .create, .always createReplies⟩] ++
      [⟨0, .write 1 8, .always []⟩]) = some u₂ := by
    rw [attempt_snoc, attempt_singleton, hfirst, Option.bind_some, hsecond]
  have hsnoc : Meets perform (World.initial 512) TrueTo ([_] ++ [_] ++ [_]) := h
  have hlast : TrueTo u₂ ⟨0, .read 1 8, .always [⟨1, 0, 0, 0⟩]⟩ := hsnoc.of_snoc.2 _ hrun
  obtain ⟨a, ha, hop, -⟩ := hlast w₃ hop₃
  have hmem : a.op ∈ w₃.ran.map Answered.op := List.mem_map_of_mem ha
  rw [hran, hop, hops] at hmem
  exact absurd hmem (by decide)

end Myfs

end LearnSpdk
