import LearnSpdk.Spec.Myfs

/-! The operations of `myfs.c` seen from the blob layer: each of them makes one call after the
other, as the answers to it tell, and the operations meet only in the status and the flag of
their file. What becomes of an operation is read off the answers, without its callbacks. -/

namespace LearnSpdk

namespace Myfs

inductive Stage where
  | getSuper
  | createBlob
  | openBlob
  | resize
  | ioWrite
  | ioRead
  | closeBlob
  | deleteBlob
deriving DecidableEq

@[simp] def BlobCall.stage : BlobCall → Stage
  | .getSuper => .getSuper
  | .createBlob => .createBlob
  | .openBlob _ => .openBlob
  | .resize _ _ => .resize
  | .ioWrite _ _ _ _ => .ioWrite
  | .ioRead _ _ _ _ => .ioRead
  | .closeBlob _ => .closeBlob
  | .deleteBlob _ => .deleteBlob

/-- The answer to a call, when the file has a status. -/
structure Answer where
  stage : Stage
  status : Status
  bserrno : ℤ

namespace Answer

/-- The call that the operation makes after the answer. -/
def next (a : Answer) : Option Stage :=
  match a.stage with
  | .getSuper =>
    if a.bserrno = 0 then some .openBlob else if a.bserrno = -ENOENT then some .createBlob else none
  | .createBlob => some .openBlob
  | .openBlob => if a.bserrno = 0 then some .resize else none
  | .closeBlob => if a.status = .release then some .deleteBlob else none
  | _ => none

/-- The answer ends the polling. -/
def SetsDone (a : Answer) : Prop :=
  match a.stage with
  | .resize | .ioWrite | .ioRead | .deleteBlob => True
  | .closeBlob => a.status = .close
  | _ => False

instance : DecidablePred SetsDone := fun ⟨s, st, e⟩ => by cases s <;> unfold SetsDone <;> infer_instance

def Opens (a : Answer) : Prop := a.stage = .openBlob ∧ a.bserrno = 0

def Crashes (a : Answer) : Prop := a.stage = .openBlob ∧ a.bserrno ≠ 0

/-- An error is reported. That there is no super blob is none. -/
def Reports (a : Answer) : Prop := a.bserrno ≠ 0 ∧ ¬(a.stage = .getSuper ∧ a.bserrno = -ENOENT)

end Answer

/-- The answers that an operation gets, one call after the other, if `es` are the error
numbers in the replies to it. -/
def answers (st : Status) : Option Stage → List ℤ → List Answer
  | none, _ => []
  | some _, [] => []
  | some s, e :: es => ⟨s, st, e⟩ :: answers st (Answer.next ⟨s, st, e⟩) es

/-- The call that is pending then. -/
def rest (st : Status) : Option Stage → List ℤ → Option Stage
  | none, _ => none
  | some s, [] => some s
  | some s, e :: es => rest st (Answer.next ⟨s, st, e⟩) es

/-- The error numbers in the replies to the operation `i`. -/
def errors (i : ℕ) (rs : List Reply) : List ℤ := (rs.filter fun r => r.op = i).map Reply.bserrno

/-- What each operation waits for and on which file, and the status of each file. -/
@[ext]
structure Ledger where
  waits : ℕ → Option (ℕ × Stage)
  status : ℕ → Status

namespace Ledger

/-- The answers to the operation `i` among the replies. -/
def answersTo (l : Ledger) (rs : List Reply) (i : ℕ) : List Answer :=
  match l.waits i with
  | none => []
  | some (f, s) => answers (l.status f) (some s) (errors i rs)

/-- The ledger after the replies. -/
def after (l : Ledger) (rs : List Reply) : Ledger where
  waits i :=
    match l.waits i with
    | none => none
    | some (f, s) => (rest (l.status f) (some s) (errors i rs)).map fun s => (f, s)
  status := l.status

/-- An operation on the file `f` gets an answer with the property. -/
def Gets (l : Ledger) (f : ℕ) (rs : List Reply) (P : Answer → Prop) : Prop :=
  ∃ i s, l.waits i = some (f, s) ∧ ∃ a ∈ l.answersTo rs i, P a

end Ledger

def Request.stage (q : Request) : ℕ × Stage := (q.file, q.call.stage)

def World.ledger (w : World) : Ledger where
  waits i := (w.pending i).map Request.stage
  status f := (w.heap f).status

/-- The status that the message of an operation sets. -/
def FileOp.status : FileOp → Status
  | .create => .create
  | .open => .open
  | .write _ _ => .write
  | .read _ _ => .read
  | .close => .close
  | .release => .release

/-- The status of the file once the message was run; a rejected open does not set it. -/
def FileOp.statusOn (k : FileOp) (file : File) : Status :=
  if k = .open ∧ file.blobid = 0 then file.status else k.status

/-- The first call of an operation; a rejected open makes none. -/
def FileOp.first (k : FileOp) (file : File) : Option Stage :=
  match k with
  | .create => some .getSuper
  | .open => if file.blobid = 0 then none else some .openBlob
  | .write _ _ => some .ioWrite
  | .read _ _ => some .ioRead
  | .close | .release => some .closeBlob

/-- The last call: its callback is the completion callback of the operation. -/
def FileOp.last : FileOp → Stage
  | .create | .open => .resize
  | .write _ _ => .ioWrite
  | .read _ _ => .ioRead
  | .close => .closeBlob
  | .release => .deleteBlob

/-- The message of the operation follows the blob of the file. -/
def FileOp.UsesBlob : FileOp → Prop
  | .create | .open => False
  | _ => True

instance : DecidablePred FileOp.UsesBlob := fun k => by cases k <;> unfold FileOp.UsesBlob <;> infer_instance

/-- The ledger once the message of the operation `op` was run. -/
def Ledger.begin (l : Ledger) (k : FileOp) (f op : ℕ) (file : File) : Ledger where
  waits := Function.update l.waits op ((k.first file).map fun s => (f, s))
  status := Function.update l.status f (k.statusOn file)

namespace Replies

variable (p : Replies) (k : FileOp) (f : ℕ) (w : World)

/-- The replies in the first `n` polls, from the message on. -/
def upTo (n : ℕ) : List Reply := (List.range n).flatMap p.polls

/-- The ledger when the message was run. -/
def begun : Ledger := (w.ledger.after p.early).begin k f w.ops (w.heap f)

/-- Some operation on the file `g` gets an answer with the property, until the poll `n`. -/
def Gets (n g : ℕ) (P : Answer → Prop) : Prop :=
  w.ledger.Gets g p.early P ∨ (p.begun k f w).Gets g (p.upTo n) P

/-- The answers to the operation itself, until the poll `n`. -/
def own (n : ℕ) : List Answer := (p.begun k f w).answersTo (p.upTo n) w.ops

/-- The polling ends with the poll `n`: there is a buffer and a blob, no open callback has got
an error, and the flag of the file is set first in this poll, or there are no more polls. -/
structure EndsAt (n : ℕ) : Prop where
  asserts : k.Asserts
  blob : k.UsesBlob → (w.heap f).blob.isSome ∨ w.ledger.Gets f p.early Answer.Opens
  pos : 0 < n
  le : n ≤ POLLER_MAX_TIME
  defined : ∀ g, ¬p.Gets k f w n g Answer.Crashes
  first : ∀ m, 0 < m → m < n → ¬p.Gets k f w m f Answer.SetsDone
  last : p.Gets k f w n f Answer.SetsDone ∨ n = POLLER_MAX_TIME

def Returns : Prop := ∃ n, p.EndsAt k f w n

/-- The operation returns, its last call was answered, and none of the answers to it reports an
error. -/
def Completes : Prop :=
  ∃ n, p.EndsAt k f w n ∧ (∃ a ∈ p.own k f w n, a.SetsDone) ∧ ∀ a ∈ p.own k f w n, ¬a.Reports

end Replies

end Myfs

end LearnSpdk
