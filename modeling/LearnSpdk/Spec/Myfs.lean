import LearnSpdk.Lib.Schedule
import Mathlib.Algebra.Group.Int.Defs
import Mathlib.Algebra.Group.Nat.Defs
import Mathlib.Data.Int.Notation
import Mathlib.Data.Nat.Notation
import Mathlib.Logic.Function.Basic

/-! The file operations of `spdk_filesystem/myfs.c` over a blob layer that is not in the
repository. A call into the blob layer leaves a request behind; at any later poll, at most
once, it is answered by the callback that was given with it. What each poll answers is an
input. `none` is the end of the defined behaviour: a `NULL` that is followed, a failed
`assert`, an index outside of an array. `malloc` always finds room. -/

namespace LearnSpdk

namespace Myfs

def MAX_FD_COUNT : ℕ := 1024

def DEFAULT_FD_NUM : ℕ := 3

def POLLER_MAX_TIME : ℕ := 100000000

def ENOENT : ℤ := 2

/-- `fd_table`, eight descriptors to a byte. -/
abbrev FdTable := ℕ → UInt8

/-- `0x1 << (fd % 8)`. -/
def mask (fd : ℕ) : UInt8 := 1 <<< UInt8.ofNat (fd % 8)

/-- The loop of `get_fd_from_bitmap` from `fd` on, with `n` descriptors left. -/
def scan (t : FdTable) : ℕ → ℕ → ℤ × FdTable
  | 0, _ => (-1, t)
  | n + 1, fd =>
    if t (fd / 8) &&& mask fd = 0 then (fd, Function.update t (fd / 8) (t (fd / 8) ||| mask fd))
    else scan t n (fd + 1)

def getFdFromBitmap (t : FdTable) : ℤ × FdTable := scan t (MAX_FD_COUNT - DEFAULT_FD_NUM) DEFAULT_FD_NUM

def setFdToBitmap (fd : ℕ) (t : FdTable) : ℤ × FdTable :=
  if fd ≥ MAX_FD_COUNT then (-1, t)
  else (0, Function.update t (fd / 8) (t (fd / 8) &&& ~~~mask fd))

/-- A call on the bitmap. -/
inductive FdCall where
  | get
  | set (fd : Fin MAX_FD_COUNT)

/-- What a call did: the answer of `get_fd_from_bitmap`, or the descriptor released. -/
inductive FdEvent where
  | got (fd : ℤ)
  | released (fd : ℕ)
deriving DecidableEq

/-- The bitmap with a log of the calls; no call reads the log. -/
structure Bitmap where
  table : FdTable
  log : List FdEvent

namespace Bitmap

def step : FdCall → Bitmap → Bitmap
  | .get, b =>
    let (fd, t) := getFdFromBitmap b.table
    ⟨t, b.log ++ [.got fd]⟩
  | .set fd, b => ⟨(setFdToBitmap fd b.table).2, b.log ++ [.released fd]⟩

/-- A run of calls on the table as it is loaded, with all bits clear. -/
def run (calls : List FdCall) : Bitmap := Lib.sched step ⟨fun _ => 0, []⟩ calls

end Bitmap

/-- `myfs_file_status_t`. -/
inductive Status where
  | create
  | open
  | write
  | read
  | close
  | release
deriving DecidableEq

/-- The fields of `myfs_file_s` that are read. A handle of a blob is the id of the blob. -/
structure File where
  blobid : ℕ
  blob : Option ℕ
  ret : Int32
  status : Status
  done : Bool
deriving DecidableEq

/-- A file after `memset`. -/
def File.zero : File := ⟨0, none, 0, .create, false⟩

/-- The calls into the blob layer that have a callback. -/
inductive BlobCall where
  | getSuper
  | createBlob
  | openBlob (blobid : ℕ)
  | resize (blob clusters : ℕ)
  | ioWrite (blob buf offset count : ℕ)
  | ioRead (blob buf offset count : ℕ)
  | closeBlob (blob : ℕ)
  | deleteBlob (blobid : ℕ)
deriving DecidableEq

/-- A call that is to be answered, and the file that its callback gets. -/
structure Request where
  file : ℕ
  call : BlobCall
deriving DecidableEq

/-- The answer to the request of the operation `op`, with the arguments of its callback:
`blobid` is the id, or that of the opened blob. The callback of an open reads `freeClusters`. -/
structure Reply where
  op : ℕ
  bserrno : ℤ
  blobid : ℕ
  freeClusters : ℕ

/-- What the blob layer answers while an operation is polled: before its message is run, and in
each poll from then on. -/
structure Replies where
  early : List Reply
  polls : ℕ → List Reply

/-- A call that was answered, in the course of the operation `op`. -/
structure Answered where
  op : ℕ
  call : BlobCall
  bserrno : ℤ

/-- The descriptor tables, the allocated files and the requests of the blob layer. Operations
are numbered, and each has at most one request that is pending. No step reads `ran`. -/
structure World where
  unitSize : ℕ
  fdTable : FdTable
  files : ℕ → Option ℕ
  heap : ℕ → File
  mallocs : ℕ
  pending : ℕ → Option Request
  ops : ℕ
  ran : List Answered

namespace World

def setFile (w : World) (f : ℕ) (file : File) : World := { w with heap := Function.update w.heap f file }

def setDone (w : World) (f : ℕ) (done : Bool) : World := w.setFile f { w.heap f with done := done }

def submit (w : World) (f op : ℕ) (call : BlobCall) : World :=
  { w with pending := Function.update w.pending op (some ⟨f, call⟩) }

end World

def myfsBlobResizeComplete (f : ℕ) (w : World) : World := w.setDone f true

/-- The callback reads `blob->id`, and `blob` is `NULL` after an error. -/
def myfsBlobOpenComplete (f op : ℕ) (blob : Option ℕ) (numfreed : ℕ) (w : World) : Option World :=
  match blob with
  | none => none
  | some id =>
    some ((w.setFile f { w.heap f with blob := some id, blobid := id }).submit f op (.resize id numfreed))

def myfsBlobCreateComplete (f op blobid : ℕ) (w : World) : World :=
  (w.setFile f { w.heap f with blobid := blobid }).submit f op (.openBlob blobid)

def myfsBsGetSuperComplete (f op blobid : ℕ) (bserrno : ℤ) (w : World) : World :=
  if bserrno ≠ 0 then
    if bserrno = -ENOENT then w.submit f op .createBlob else w
  else w.submit f op (.openBlob blobid)

def myfsFileWriteComplete (f : ℕ) (w : World) : World := w.setDone f true

def myfsFileReadComplete (f : ℕ) (w : World) : World := w.setDone f true

def myfsFileReleaseComplete (f : ℕ) (w : World) : World := w.setDone f true

def myfsFileCloseComplete (f op : ℕ) (w : World) : World :=
  match (w.heap f).status with
  | .close => w.setDone f true
  | .release => w.submit f op (.deleteBlob (w.heap f).blobid)
  | _ => w

def callback (q : Request) (r : Reply) (w : World) : Option World :=
  match q.call with
  | .getSuper => some (myfsBsGetSuperComplete q.file r.op r.blobid r.bserrno w)
  | .createBlob => some (myfsBlobCreateComplete q.file r.op r.blobid w)
  | .openBlob _ =>
    myfsBlobOpenComplete q.file r.op (if r.bserrno = 0 then some r.blobid else none) r.freeClusters w
  | .resize _ _ => some (myfsBlobResizeComplete q.file w)
  | .ioWrite _ _ _ _ => some (myfsFileWriteComplete q.file w)
  | .ioRead _ _ _ _ => some (myfsFileReadComplete q.file w)
  | .closeBlob _ => some (myfsFileCloseComplete q.file r.op w)
  | .deleteBlob _ => some (myfsFileReleaseComplete q.file w)

/-- The blob layer answers the request of an operation, which is then no longer pending. -/
def answer (r : Reply) (w : World) : Option World :=
  match w.pending r.op with
  | none => some w
  | some q =>
    callback q r
      { w with pending := Function.update w.pending r.op none, ran := w.ran ++ [⟨r.op, q.call, r.bserrno⟩] }

/-- `spdk_thread_poll`. -/
def poll : List Reply → World → Option World
  | [], w => some w
  | r :: rs, w => (answer r w).bind (poll rs)

/-- The loop of `poller` on the flag of the file `f`, after `count` of its polls and with `n`
polls left until the time-out. -/
def pollLoop (polls : ℕ → List Reply) (f : ℕ) : ℕ → ℕ → World → Option (Bool × World)
  | 0, _, w => some ((w.heap f).done, w)
  | n + 1, count, w =>
    (poll (polls count) w).bind fun w =>
      if (w.heap f).done then some (true, w) else pollLoop polls f n (count + 1) w

/-- The message `fn` is run in the first poll, in which requests may be answered before it. -/
def poller (fn : World → Option World) (p : Replies) (f : ℕ) (w : World) : Option (Bool × World) :=
  (poll p.early w).bind fun w => (fn w).bind (pollLoop p.polls f POLLER_MAX_TIME 0)

def doCreate (f op : ℕ) (w : World) : Option World :=
  some ((w.setFile f { w.heap f with status := .create }).submit f op .getSuper)

def doOpen (f op : ℕ) (w : World) : Option World :=
  if (w.heap f).blobid = 0 then some (w.setFile f { w.heap f with ret := -1 })
  else some ((w.setFile f { w.heap f with status := .open }).submit f op (.openBlob (w.heap f).blobid))

/-- The blob layer follows the blob of the file, here and in the messages below. -/
def doWrite (buf size : ℕ) (f op : ℕ) (w : World) : Option World :=
  (w.heap f).blob.map fun blob =>
    (w.setFile f { w.heap f with status := .write }).submit f op (.ioWrite blob buf 0 (size / w.unitSize + 1))

def doRead (buf size : ℕ) (f op : ℕ) (w : World) : Option World :=
  (w.heap f).blob.map fun blob =>
    (w.setFile f { w.heap f with status := .read }).submit f op (.ioRead blob buf 0 (size / w.unitSize + 1))

def doClose (f op : ℕ) (w : World) : Option World :=
  (w.heap f).blob.map fun blob =>
    (w.setFile f { w.heap f with status := .close }).submit f op (.closeBlob blob)

def doRelease (f op : ℕ) (w : World) : Option World :=
  (w.heap f).blob.map fun blob =>
    (w.setFile f { w.heap f with status := .release }).submit f op (.closeBlob blob)

inductive FileOp where
  | create
  | open
  | write (buf size : ℕ)
  | read (buf size : ℕ)
  | close
  | release
deriving DecidableEq

namespace FileOp

def message : FileOp → ℕ → ℕ → World → Option World
  | .create => doCreate
  | .open => doOpen
  | .write buf size => doWrite buf size
  | .read buf size => doRead buf size
  | .close => doClose
  | .release => doRelease

/-- The assertions of an operation: a buffer, and a size. -/
def Asserts : FileOp → Prop
  | .write buf size => buf ≠ 0 ∧ size > 0
  | .read buf size => buf ≠ 0 ∧ size > 0
  | _ => True

instance : DecidablePred Asserts
  | .write buf size => inferInstanceAs (Decidable (buf ≠ 0 ∧ size > 0))
  | .read buf size => inferInstanceAs (Decidable (buf ≠ 0 ∧ size > 0))
  | .create | .open | .close | .release => inferInstanceAs (Decidable True)

end FileOp

/-- An operation clears the flag of the file first. -/
def World.cleared (w : World) (f : ℕ) : World := { w.setDone f false with ops := w.ops + 1 }

/-- The call of `poller` in an operation. -/
def operate (k : FileOp) (p : Replies) (f : ℕ) (w : World) : Option (Bool × World) :=
  if k.Asserts then poller (k.message f w.ops) p f (w.cleared f) else none

/-- An operation ignores what `poller` returns. -/
def myfsFile (k : FileOp) (f : ℕ) (p : Replies) (w : World) : Option (Int32 × World) :=
  (operate k p f w).map fun (_, w) => ((w.heap f).ret, w)

def myfsFileCreate := myfsFile .create

def myfsFileOpen := myfsFile .open

def myfsFileWrite (buf size : ℕ) := myfsFile (.write buf size)

def myfsFileRead (buf size : ℕ) := myfsFile (.read buf size)

def myfsFileClose := myfsFile .close

def myfsFileRelease := myfsFile .release

namespace World

/-- A file from `malloc`, cleared. -/
def malloc (w : World) : ℕ × World :=
  (w.mallocs, { w.setFile w.mallocs File.zero with mallocs := w.mallocs + 1 })

/-- `files[fd]`. -/
def slot (w : World) (fd : ℤ) : Option (Option ℕ) :=
  if 0 ≤ fd ∧ fd < MAX_FD_COUNT then some (w.files fd.toNat) else none

/-- `files[fd] = file`. -/
def setSlot (w : World) (fd : ℤ) (f : ℕ) : Option World :=
  if 0 ≤ fd ∧ fd < MAX_FD_COUNT then some { w with files := Function.update w.files fd.toNat (some f) }
  else none

/-- The file that a call on `fd` follows. -/
def fileAt (w : World) (fd : ℤ) : Option ℕ := (w.slot fd).join

end World

/-- What `myfs_create` and `myfs_open` have in common. -/
def addFile (operation : ℕ → Replies → World → Option (Int32 × World)) (p : Replies)
    (w : World) : Option (ℤ × World) :=
  let (fd, t) := getFdFromBitmap w.fdTable
  let (f, w) := { w with fdTable := t }.malloc
  (operation f p w).bind fun (_, w) =>
    (w.setSlot fd f).map fun w => (fd, w)

def myfsCreate := addFile myfsFileCreate

def myfsOpen := addFile myfsFileOpen

/-- The conversion of an `int` to a `size_t`. -/
def sizeT (n : Int32) : ℕ := (n.toInt % 2 ^ 64).toNat

/-- A `size_t` read as a `ssize_t`, as the hooks do. -/
def ssizeT (n : ℕ) : ℤ := if n < 2 ^ 63 then n else n - 2 ^ 64

def myfsWrite (fd : ℤ) (buf count : ℕ) (p : Replies) (w : World) : Option (ℕ × World) :=
  (w.fileAt fd).bind fun f =>
    (myfsFileWrite buf count f p w).map fun (_, w) => (sizeT (w.heap f).ret, w)

def myfsRead (fd : ℤ) (buf count : ℕ) (p : Replies) (w : World) : Option (ℕ × World) :=
  (w.fileAt fd).bind fun f =>
    (myfsFileRead buf count f p w).map fun (_, w) => (sizeT (w.heap f).ret, w)

def myfsClose (fd : ℤ) (p : Replies) (w : World) : Option (ℤ × World) :=
  (w.fileAt fd).bind fun f =>
    (myfsFileClose f p w).map fun (_, w) =>
      ((w.heap f).ret.toInt, { w with fdTable := (setFdToBitmap fd.toNat w.fdTable).2 })

/-- An operation on a file, and what the blob layer does while it is polled. -/
structure Operation where
  file : ℕ
  op : FileOp
  replies : Replies

def perform (o : Operation) (w : World) : Option World := (operate o.op o.replies o.file w).map Prod.snd

/-- The world after `myfs_setup`, with all files cleared. -/
def World.initial (unitSize : ℕ) : World where
  unitSize := unitSize
  fdTable := fun _ => 0
  files := fun _ => none
  heap := fun _ => File.zero
  mallocs := 0
  pending := fun _ => none
  ops := 0
  ran := []

/-- A call from outside, and what the blob layer does while it is polled. -/
inductive ApiCall where
  | create (p : Replies)
  | open (p : Replies)
  | write (fd : ℤ) (buf count : ℕ) (p : Replies)
  | read (fd : ℤ) (buf count : ℕ) (p : Replies)
  | close (fd : ℤ) (p : Replies)

def ApiCall.step : ApiCall → World → Option World
  | .create p, w => (myfsCreate p w).map Prod.snd
  | .open p, w => (myfsOpen p w).map Prod.snd
  | .write fd buf count p, w => (myfsWrite fd buf count p w).map Prod.snd
  | .read fd buf count p, w => (myfsRead fd buf count p w).map Prod.snd
  | .close fd p, w => (myfsClose fd p w).map Prod.snd

/-- A call on the descriptors, and what the blob layer does while it is polled. -/
inductive Call where
  | create (p : Replies)
  | open (p : Replies)
  | close (fd : ℤ) (p : Replies)

/-- The descriptors that were returned and not closed since. -/
structure Session where
  world : World
  opened : List ℤ

/-- Only descriptors that are open are closed. -/
def Session.step : Call → Session → Option Session
  | .create p, s => (myfsCreate p s.world).map fun (fd, w) => ⟨w, fd :: s.opened⟩
  | .open p, s => (myfsOpen p s.world).map fun (fd, w) => ⟨w, fd :: s.opened⟩
  | .close fd p, s =>
    if fd ∈ s.opened then (myfsClose fd p s.world).map fun (_, w) => ⟨w, s.opened.erase fd⟩
    else some s

def Session.initial (unitSize : ℕ) : Session := ⟨World.initial unitSize, []⟩

end Myfs

end LearnSpdk
