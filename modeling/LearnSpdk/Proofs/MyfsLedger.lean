import LearnSpdk.Spec.MyfsAnswers
import Mathlib.Data.List.Basic

/-! The callbacks do what the ledger of the operations says: what a poll does to the world is
read off the replies. -/

namespace LearnSpdk

namespace Myfs

variable {w w' v : World} {r : Reply} {rs rs' : List Reply} {q : Request} {f i : ℕ} {l : Ledger}
  {P : Answer → Prop}

@[simp] theorem answers_none (st : Status) (es : List ℤ) : answers st none es = [] := by
  unfold answers
  rfl

@[simp] theorem rest_none (st : Status) (es : List ℤ) : rest st none es = none := by
  unfold rest
  rfl

@[simp] theorem answers_nil (st : Status) (s : Option Stage) : answers st s [] = [] := by
  cases s <;> rfl

@[simp] theorem rest_nil (st : Status) (s : Option Stage) : rest st s [] = s := by
  cases s <;> rfl

theorem answers_append (st : Status) (s : Option Stage) (es es' : List ℤ) :
    answers st s (es ++ es') = answers st s es ++ answers st (rest st s es) es' := by
  induction es generalizing s with
  | nil => simp
  | cons e es ih =>
    cases s with
    | none => simp
    | some s => simp [answers, rest, ih]

theorem rest_append (st : Status) (s : Option Stage) (es es' : List ℤ) :
    rest st s (es ++ es') = rest st (rest st s es) es' := by
  induction es generalizing s with
  | nil => simp
  | cons e es ih =>
    cases s with
    | none => simp
    | some s => simp [rest, ih]

@[simp] theorem errors_nil (i : ℕ) : errors i [] = [] := rfl

theorem errors_append (i : ℕ) (rs rs' : List Reply) : errors i (rs ++ rs') = errors i rs ++ errors i rs' := by
  simp [errors]

theorem errors_singleton (i : ℕ) (r : Reply) : errors i [r] = if r.op = i then [r.bserrno] else [] := by
  unfold errors
  split_ifs with h <;> simp [h]

namespace Ledger

theorem answersTo_of_none (h : l.waits i = none) (rs : List Reply) : l.answersTo rs i = [] := by
  simp [answersTo, h]

theorem answersTo_of_some {s : Stage} (h : l.waits i = some (f, s)) (rs : List Reply) :
    l.answersTo rs i = answers (l.status f) (some s) (errors i rs) := by
  simp [answersTo, h]

theorem after_of_none (h : l.waits i = none) (rs : List Reply) : (l.after rs).waits i = none := by
  simp [after, h]

theorem after_of_some {s : Stage} (h : l.waits i = some (f, s)) (rs : List Reply) :
    (l.after rs).waits i = (rest (l.status f) (some s) (errors i rs)).map fun s => (f, s) := by
  simp [after, h]

@[simp] theorem after_status (l : Ledger) (rs : List Reply) : (l.after rs).status = l.status := rfl

@[simp] theorem answersTo_nil (l : Ledger) (i : ℕ) : l.answersTo [] i = [] := by
  unfold answersTo
  split <;> simp

@[simp] theorem after_nil (l : Ledger) : l.after [] = l := by
  obtain ⟨waits, status⟩ := l
  simp only [after, mk.injEq, and_true]
  funext i
  cases h : waits i <;> simp

theorem answersTo_append (l : Ledger) (rs rs' : List Reply) (i : ℕ) :
    l.answersTo (rs ++ rs') i = l.answersTo rs i ++ (l.after rs).answersTo rs' i := by
  cases h : l.waits i with
  | none => simp only [answersTo_of_none h, answersTo_of_none (after_of_none h rs), List.append_nil]
  | some x =>
    obtain ⟨f, s⟩ := x
    rw [answersTo_of_some h, answersTo_of_some h, errors_append, answers_append]
    have hafter := after_of_some h rs
    cases hrest : rest (l.status f) (some s) (errors i rs) with
    | none => rw [answersTo_of_none (by rw [hafter, hrest]; rfl), answers_none]
    | some s' => rw [answersTo_of_some (by rw [hafter, hrest]; rfl), after_status]

theorem after_append (l : Ledger) (rs rs' : List Reply) : l.after (rs ++ rs') = (l.after rs).after rs' := by
  have hwaits : ∀ i, (l.after (rs ++ rs')).waits i = ((l.after rs).after rs').waits i := by
    intro i
    cases h : l.waits i with
    | none => rw [after_of_none h, after_of_none (after_of_none h rs)]
    | some x =>
      obtain ⟨f, s⟩ := x
      rw [after_of_some h, errors_append, rest_append]
      have hafter := after_of_some h rs
      cases hrest : rest (l.status f) (some s) (errors i rs) with
      | none => rw [after_of_none (by rw [hafter, hrest]; rfl), rest_none]; rfl
      | some s' => rw [after_of_some (by rw [hafter, hrest]; rfl), after_status]
  simp only [Ledger.ext_iff, after_status, and_true]
  exact funext hwaits

theorem waits_of_after {s : Stage} (h : (l.after rs).waits i = some (f, s)) : ∃ s', l.waits i = some (f, s') := by
  cases hi : l.waits i with
  | none => simp [after_of_none hi] at h
  | some x =>
    obtain ⟨g, s'⟩ := x
    rw [after_of_some hi, Option.map_eq_some_iff] at h
    obtain ⟨s'', -, heq⟩ := h
    obtain rfl := (Prod.mk.inj heq).1
    exact ⟨s', rfl⟩

theorem not_gets_nil : ¬l.Gets f [] P := by
  rintro ⟨i, s, -, a, ha, -⟩
  simp at ha

theorem gets_append : l.Gets f (rs ++ rs') P ↔ l.Gets f rs P ∨ (l.after rs).Gets f rs' P := by
  refine ⟨?_, ?_⟩
  · rintro ⟨i, s, hi, a, ha, hP⟩
    rw [answersTo_append, List.mem_append] at ha
    rcases ha with ha | ha
    · exact .inl ⟨i, s, hi, a, ha, hP⟩
    · cases hafter : (l.after rs).waits i with
      | none => simp [answersTo_of_none hafter] at ha
      | some x =>
        obtain ⟨g, s'⟩ := x
        obtain ⟨s'', hi'⟩ := waits_of_after hafter
        obtain rfl := (Prod.mk.inj (Option.some.inj (hi.symm.trans hi'))).1
        exact .inr ⟨i, s', hafter, a, ha, hP⟩
  · rintro (⟨i, s, hi, a, ha, hP⟩ | ⟨i, s, hi, a, ha, hP⟩)
    · exact ⟨i, s, hi, a, by rw [answersTo_append]; exact List.mem_append_left _ ha, hP⟩
    · obtain ⟨s', hi'⟩ := waits_of_after hi
      exact ⟨i, s', hi', a, by rw [answersTo_append]; exact List.mem_append_right _ ha, hP⟩

theorem answersTo_singleton (l : Ledger) (r : Reply) (i : ℕ) :
    l.answersTo [r] i = if r.op = i then
      (l.waits r.op).toList.map fun x => ⟨x.2, l.status x.1, r.bserrno⟩ else [] := by
  cases h : l.waits i with
  | none =>
    rw [answersTo_of_none h]
    split_ifs with hi
    · simp [hi, h]
    · rfl
  | some x =>
    obtain ⟨f, s⟩ := x
    rw [answersTo_of_some h, errors_singleton]
    split_ifs with hi
    · simp [hi, h, answers]
    · simp

theorem gets_singleton : l.Gets f [r] P ↔ ∃ s, l.waits r.op = some (f, s) ∧ P ⟨s, l.status f, r.bserrno⟩ := by
  refine ⟨?_, ?_⟩
  · rintro ⟨i, s, hi, a, ha, hP⟩
    rw [answersTo_singleton] at ha
    split_ifs at ha with hr
    · subst hr
      simp only [hi, Option.toList_some, List.map_cons, List.map_nil, List.mem_singleton] at ha
      exact ⟨s, hi, ha ▸ hP⟩
    · simp at ha
  · rintro ⟨s, hi, hP⟩
    exact ⟨r.op, s, hi, _, by simp [answersTo_singleton, hi], hP⟩

theorem after_singleton_of_none (h : l.waits r.op = none) : l.after [r] = l := by
  obtain ⟨waits, status⟩ := l
  simp only [after, mk.injEq, and_true]
  funext i
  by_cases hi : r.op = i
  · subst hi
    have h : waits r.op = none := h
    simp [h]
  · cases waits i <;> simp [errors_singleton, hi]

theorem after_singleton_of_some {s : Stage} (h : l.waits r.op = some (f, s)) : (l.after [r]).waits =
    Function.update l.waits r.op ((Answer.next ⟨s, l.status f, r.bserrno⟩).map fun s => (f, s)) := by
  funext i
  by_cases hi : i = r.op
  · subst hi
    rw [after_of_some h, errors_singleton, if_pos rfl, Function.update_self]
    simp [rest]
  · rw [Function.update_of_ne hi]
    cases hw : l.waits i with
    | none => exact after_of_none hw _
    | some x => rw [after_of_some hw, errors_singleton, if_neg (Ne.symm hi), rest_nil]; rfl

end Ledger

@[simp] def Request.answer (q : Request) (r : Reply) (w : World) : Answer :=
  ⟨q.call.stage, (w.heap q.file).status, r.bserrno⟩

/-- A callback changes its file, and makes the next call of the operation if there is one. -/
def World.proceed (w : World) (q : Request) (op : ℕ) (file : File) : Option BlobCall → World
  | none => w.setFile q.file file
  | some call => (w.setFile q.file file).submit q.file op call

/-- What the answer `a` comes to for the file and the next call. -/
structure Effect (a : Answer) (old file : File) (call : Option BlobCall) : Prop where
  ret : file.ret = old.ret
  status : file.status = old.status
  done : file.done = true ↔ old.done = true ∨ a.SetsDone
  blob : file.blob.isSome ↔ old.blob.isSome ∨ a.Opens
  next : call.map BlobCall.stage = a.next

theorem setFile_heap_self (w : World) (f : ℕ) : w.setFile f (w.heap f) = w := by
  simp [World.setFile]

theorem Effect.unchanged {a : Answer} {file : File} {call : Option BlobCall} (hdone : ¬a.SetsDone)
    (hopens : ¬a.Opens) (hnext : call.map BlobCall.stage = a.next) : Effect a file file call :=
  ⟨rfl, rfl, by simp [hdone], by simp [hopens], hnext⟩

theorem Effect.flag {a : Answer} {file : File} (hdone : a.SetsDone) (hopens : ¬a.Opens) (hnext : a.next = none) :
    Effect a file { file with done := true } none :=
  ⟨rfl, rfl, by simp [hdone], by simp [hopens], hnext.symm⟩

theorem proceed_none (w : World) (q : Request) (op : ℕ) : w.proceed q op (w.heap q.file) none = w :=
  setFile_heap_self w q.file

theorem proceed_submit (w : World) (q : Request) (op : ℕ) (c : BlobCall) :
    w.proceed q op (w.heap q.file) (some c) = w.submit q.file op c := by
  rw [World.proceed, setFile_heap_self]

theorem callback_effect (h : callback q r w = some w') :
    ∃ file call, w' = w.proceed q r.op file call ∧ Effect (q.answer r w) (w.heap q.file) file call := by
  obtain ⟨f, call⟩ := q
  cases call with
  | getSuper =>
    obtain rfl := Option.some.inj h
    have hopens : ¬(Request.answer ⟨f, .getSuper⟩ r w).Opens := by simp [Answer.Opens]
    unfold myfsBsGetSuperComplete
    split_ifs with he he'
    · refine ⟨_, some .createBlob, (proceed_submit w _ _ _).symm, .unchanged id hopens ?_⟩
      simp [Answer.next, he', ENOENT]
    · refine ⟨_, none, (proceed_none w _ _).symm, .unchanged id hopens ?_⟩
      simp [Answer.next, he, he']
    · refine ⟨_, some (.openBlob r.blobid), (proceed_submit w _ _ _).symm, .unchanged id hopens ?_⟩
      simp_all [Answer.next]
  | createBlob =>
    obtain rfl := Option.some.inj h
    refine ⟨_, some (.openBlob r.blobid), rfl, rfl, rfl, ?_, ?_, rfl⟩
    · simp [Answer.SetsDone]
    · simp [Answer.Opens]
  | openBlob blobid =>
    simp only [callback, myfsBlobOpenComplete] at h
    split_ifs at h with he
    obtain rfl := Option.some.inj h
    refine ⟨_, some (.resize r.blobid r.freeClusters), rfl, rfl, rfl, ?_, ?_, ?_⟩
    · simp [Answer.SetsDone]
    · simp [Answer.Opens, he]
    · simp [Answer.next, he]
  | closeBlob blob =>
    obtain rfl := Option.some.inj h
    have hopens : ¬(Request.answer ⟨f, .closeBlob blob⟩ r w).Opens := by simp [Answer.Opens]
    unfold myfsFileCloseComplete
    split
    case h_1 hst =>
      have hst : (w.heap f).status = .close := hst
      exact ⟨_, none, rfl, .flag hst hopens (by simp [Answer.next, hst])⟩
    case h_2 hst =>
      have hst : (w.heap f).status = .release := hst
      refine ⟨_, some (.deleteBlob (w.heap f).blobid), (proceed_submit w _ _ _).symm, .unchanged ?_ hopens ?_⟩
      · simp [Answer.SetsDone, hst]
      · simp [Answer.next, hst]
    case h_3 hclose hrelease =>
      refine ⟨_, none, (proceed_none w _ _).symm, .unchanged hclose hopens ?_⟩
      have hrelease : (w.heap f).status ≠ .release := hrelease
      simp [Answer.next, hrelease]
  | resize | ioWrite | ioRead | deleteBlob =>
    obtain rfl := Option.some.inj h
    exact ⟨_, none, rfl, .flag trivial (by simp [Answer.Opens]) rfl⟩

theorem callback_isSome : (callback q r w).isSome ↔ ¬(q.answer r w).Crashes := by
  obtain ⟨f, call⟩ := q
  cases call with
  | openBlob blobid =>
    by_cases he : r.bserrno = 0 <;>
      simp [callback, myfsBlobOpenComplete, Answer.Crashes, he]
  | _ => simp [callback, Answer.Crashes]

/-- What the callbacks leave alone. -/
structure Kept (w w' : World) : Prop where
  unitSize : w'.unitSize = w.unitSize
  fdTable : w'.fdTable = w.fdTable
  files : w'.files = w.files
  mallocs : w'.mallocs = w.mallocs
  ops : w'.ops = w.ops
  ret : ∀ g, (w'.heap g).ret = (w.heap g).ret

theorem Kept.refl (w : World) : Kept w w := ⟨rfl, rfl, rfl, rfl, rfl, fun _ => rfl⟩

theorem Kept.trans (h : Kept w v) (h' : Kept v w') : Kept w w' where
  unitSize := h'.unitSize.trans h.unitSize
  fdTable := h'.fdTable.trans h.fdTable
  files := h'.files.trans h.files
  mallocs := h'.mallocs.trans h.mallocs
  ops := h'.ops.trans h.ops
  ret g := (h'.ret g).trans (h.ret g)

def World.answered (w : World) (i : ℕ) : List (Stage × ℤ) :=
  (w.ran.filter fun a => a.op = i).map fun a => (a.call.stage, a.bserrno)

/-- What the replies do to the world is what they do to its ledger. -/
structure Polled (w : World) (rs : List Reply) (w' : World) : Prop where
  kept : Kept w w'
  ledger : w'.ledger = w.ledger.after rs
  done : ∀ f, (w'.heap f).done = true ↔ (w.heap f).done = true ∨ w.ledger.Gets f rs Answer.SetsDone
  blob : ∀ f, (w'.heap f).blob.isSome ↔ (w.heap f).blob.isSome ∨ w.ledger.Gets f rs Answer.Opens
  ran : ∀ i, w'.answered i =
    w.answered i ++ (w.ledger.answersTo rs i).map fun a => (a.stage, a.bserrno)
  idle : ∀ f, (∀ i s, w.ledger.waits i ≠ some (f, s)) → w'.heap f = w.heap f

theorem Polled.refl (w : World) : Polled w [] w where
  kept := .refl w
  ledger := (w.ledger.after_nil).symm
  done f := by simp [Ledger.not_gets_nil]
  blob f := by simp [Ledger.not_gets_nil]
  ran i := by simp
  idle _ _ := rfl

theorem Polled.trans (h : Polled w rs v) (h' : Polled v rs' w') : Polled w (rs ++ rs') w' where
  kept := h.kept.trans h'.kept
  ledger := by rw [h'.ledger, h.ledger, Ledger.after_append]
  done f := by rw [h'.done, h.done, h.ledger, Ledger.gets_append, or_assoc]
  blob f := by rw [h'.blob, h.blob, h.ledger, Ledger.gets_append, or_assoc]
  ran i := by rw [h'.ran, h.ran, h.ledger, Ledger.answersTo_append, List.map_append, List.append_assoc]
  idle f hf := by
    refine (h'.idle f fun i s hi => ?_).trans (h.idle f hf)
    rw [h.ledger] at hi
    obtain ⟨s', hi'⟩ := Ledger.waits_of_after hi
    exact hf i s' hi'

/-- The state in which the callback of an answered request starts. -/
def World.taken (w : World) (r : Reply) (q : Request) : World :=
  { w with pending := Function.update w.pending r.op none, ran := w.ran ++ [⟨r.op, q.call, r.bserrno⟩] }

theorem heap_setFile (w : World) (f g : ℕ) (file : File) :
    (w.setFile f file).heap g = if g = f then file else w.heap g := by
  simp [World.setFile, Function.update_apply]

@[simp] theorem heap_proceed (w : World) (q : Request) (op : ℕ) (file : File) (call : Option BlobCall) :
    (w.proceed q op file call).heap = Function.update w.heap q.file file := by
  cases call <;> rfl

@[simp] theorem ran_proceed (w : World) (q : Request) (op : ℕ) (file : File) (call : Option BlobCall) :
    (w.proceed q op file call).ran = w.ran := by
  cases call <;> rfl

theorem pending_proceed (h : w.pending i = none) (q : Request) (file : File) (call : Option BlobCall) :
    (w.proceed q i file call).pending = Function.update w.pending i (call.map fun c => ⟨q.file, c⟩) := by
  cases call with
  | none => simp [World.proceed, World.setFile, ← h]
  | some c => rfl

theorem Effect.kept {op : ℕ} {file : File} {call : Option BlobCall} {a : Answer}
    (h : Effect a (w.heap q.file) file call) : Kept w (w.proceed q op file call) := by
  have hret : ∀ g, ((w.proceed q op file call).heap g).ret = (w.heap g).ret := by
    intro g
    rw [heap_proceed, Function.update_apply]
    split_ifs with hg
    · rw [hg, h.ret]
    · rfl
  cases call <;> exact ⟨rfl, rfl, rfl, rfl, rfl, hret⟩

theorem ledger_waits (h : w.pending i = some q) : w.ledger.waits i = some (q.file, q.call.stage) := by
  simp [World.ledger, h, Request.stage]

theorem ledger_waits_none : w.ledger.waits i = none ↔ w.pending i = none := by
  simp [World.ledger]

theorem answer_cases (h : answer r w = some w') :
    (w.pending r.op = none ∧ w' = w) ∨ ∃ q file call, w.pending r.op = some q ∧
      w' = (w.taken r q).proceed q r.op file call ∧ Effect (q.answer r w) (w.heap q.file) file call := by
  unfold answer at h
  split at h
  · exact .inl ⟨‹_›, (Option.some.inj h).symm⟩
  · obtain ⟨file, call, hw', heff⟩ := callback_effect h
    exact .inr ⟨_, file, call, ‹_›, hw', heff⟩

theorem answer_polled (h : answer r w = some w') : Polled w [r] w' := by
  rcases answer_cases h with ⟨hnone, rfl⟩ | ⟨q, file, call, hq, rfl, heff⟩
  · have hwaits : w'.ledger.waits r.op = none := ledger_waits_none.2 hnone
    have hgets : ∀ {f P}, ¬w'.ledger.Gets f [r] P := by simp [Ledger.gets_singleton, hwaits]
    refine ⟨.refl w', (Ledger.after_singleton_of_none hwaits).symm, by simp [hgets], by simp [hgets], fun i => ?_,
      fun _ _ => rfl⟩
    simp [Ledger.answersTo_singleton, hwaits]
  have hwaits := ledger_waits hq
  have hgets : ∀ {f P}, w.ledger.Gets f [r] P ↔ f = q.file ∧ P (q.answer r w) := by
    intro f P
    rw [Ledger.gets_singleton, hwaits]
    refine ⟨?_, ?_⟩
    · rintro ⟨s, hs, hP⟩
      obtain ⟨rfl, rfl⟩ := Prod.mk.inj (Option.some.inj hs)
      exact ⟨rfl, hP⟩
    · rintro ⟨rfl, hP⟩
      exact ⟨_, rfl, hP⟩
  refine ⟨?_, ?_, fun f => ?_, fun f => ?_, fun i => ?_, fun f hf => ?_⟩
  · have hkept : Kept (w.taken r q) ((w.taken r q).proceed q r.op file call) := heff.kept (w := w.taken r q)
    exact { hkept with }
  · apply Ledger.ext
    · rw [Ledger.after_singleton_of_some hwaits]
      funext i
      have hnext : call.map BlobCall.stage = Answer.next ⟨q.call.stage, (w.heap q.file).status, r.bserrno⟩ := heff.next
      simp only [World.ledger, pending_proceed (w := w.taken r q) (Function.update_self ..)]
      by_cases hi : i = r.op
      · subst hi
        simp only [Function.update_self, Option.map_map]
        rw [← hnext, Option.map_map]
        rfl
      · simp [Function.update_of_ne hi, World.taken]
    · funext f
      simp only [World.ledger, Ledger.after_status, heap_proceed, Function.update_apply]
      split_ifs with hf
      · rw [hf, heff.status]
      · rfl
  · rw [hgets, heap_proceed, Function.update_apply]
    split_ifs with hf
    · rw [hf, heff.done]
      simp
    · simp [hf, World.taken]
  · rw [hgets, heap_proceed, Function.update_apply]
    split_ifs with hf
    · rw [hf, heff.blob]
      simp
    · simp [hf, World.taken]
  · rw [Ledger.answersTo_singleton, hwaits]
    simp only [World.answered, ran_proceed, World.taken, List.filter_append, List.map_append]
    congr 1
    split_ifs with hi <;> simp [hi]
  · have hne : f ≠ q.file := by
      rintro rfl
      exact hf r.op _ hwaits
    rw [heap_proceed, Function.update_of_ne hne]
    rfl

theorem poll_polled (h : poll rs w = some w') : Polled w rs w' := by
  induction rs generalizing w with
  | nil =>
    obtain rfl := Option.some.inj h
    exact .refl w
  | cons r rs ih =>
    obtain ⟨v, hv, hrest⟩ := Option.bind_eq_some_iff.1 h
    exact (answer_polled hv).trans (ih hrest)

theorem answer_isSome : (answer r w).isSome ↔ ∀ f, ¬w.ledger.Gets f [r] Answer.Crashes := by
  unfold answer
  split
  · have hwaits : w.ledger.waits r.op = none := ledger_waits_none.2 ‹_›
    simp [Ledger.gets_singleton, hwaits]
  · rw [callback_isSome]
    simp [Ledger.gets_singleton, ledger_waits ‹_›, Request.answer]
    rfl

/-- A poll goes through if no open callback gets an error. -/
theorem poll_isSome : (poll rs w).isSome ↔ ∀ f, ¬w.ledger.Gets f rs Answer.Crashes := by
  induction rs generalizing w with
  | nil => simp [poll, Ledger.not_gets_nil]
  | cons r rs ih =>
    rw [poll, ← List.singleton_append]
    simp only [Ledger.gets_append, not_or, forall_and, ← answer_isSome]
    cases hv : answer r w with
    | none => simp
    | some v => simp [ih, (answer_polled hv).ledger]

end Myfs

end LearnSpdk
