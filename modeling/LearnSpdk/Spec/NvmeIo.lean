import LearnSpdk.Lib.ByteMemory
import LearnSpdk.Spec.Nvme

/-! The reads and writes of `spdk_nvme/nvme_opera.c` and `KV_Store/kv_main.cpp`. The device is not
in the repository: what it answers to each of the commands is an input. A command that completes
without an error has copied the block between the namespace and the buffer, one that completes
with an error leaves anything in its target. `spdk_zmalloc` always finds room. -/

namespace LearnSpdk

open Lib

namespace Nvme

/-- The string that is written, with its NUL. -/
def text : List UInt8 :=
  ['T', 'h', 'e', ' ', 't', 'e', 's', 't', ' ', 'f', 'o', 'r', ' ', 's', 'p', 'd', 'k', ',', ' ',
    '5', '5', '5', ',', ' ', '1', '0', '2', '5', ',', ' ', 'K', 'K', 'K'].map Char.toUInt8 ++ [0]

def ALIGN_4k : ℕ := 0x1000

/-- The answers around one command: `spdk_nvme_ctrlr_alloc_io_qpair` returns a queue pair, the
command is accepted, it completes, and what it leaves in its target if it fails. -/
structure Answers where
  qpair : Bool
  accepted : Bool
  completes : Bool
  fault : Option Memory

/-- A buffer for a command. -/
structure Buffer where
  size : ℕ
  content : Memory

/-- What is printed. The names are those of the functions, without their prefix. Which namespace a
command is for is not printed. -/
inductive Line where
  | startingFailed (c : Command)
  | cbFinished (c : Command)
  | writeSuccessful
  | readSuccessful (string : List UInt8)
  | switchZmalloc
  | mmapIo (n : ℕ)

/-- How the program stops in the middle: in `exit`, in a loop that polls for ever, or with an access
outside of a buffer. -/
inductive Stop where
  | exits
  | hangs
  | overruns
deriving DecidableEq

/-- The state of the program and of the devices. Namespaces and controllers are handles; a
controller may have a memory buffer that is mapped, and keeps what is put there. -/
structure Host where
  blocks : ℕ → ℕ → Memory
  cmb : ℕ → Option Buffer
  ios : ℕ
  qpairs : ℕ
  zmallocs : ℕ
  printed : List Line
  stop : Option Stop

namespace Host

def print (l : Line) (h : Host) : Host := { h with printed := h.printed ++ [l] }

def halt (s : Stop) (h : Host) : Host := { h with stop := some s }

def setBlock (ns lba : ℕ) (m : Memory) (h : Host) : Host :=
  { h with blocks := Function.update h.blocks ns (Function.update (h.blocks ns) lba m) }

/-- A new content of the memory buffer, if the controller has one. No other buffer is read again. -/
def keep (ctrlr : ℕ) (m : Memory) (h : Host) : Host :=
  { h with cmb := Function.update h.cmb ctrlr ((h.cmb ctrlr).map fun b => { b with content := m }) }

/-- `spdk_nvme_ctrlr_map_cmb`, or else `spdk_zmalloc`. -/
def getBuffer (ctrlr : ℕ) (h : Host) : Buffer × Host :=
  match h.cmb ctrlr with
  | some b => (b, h)
  | none => (⟨ALIGN_4k, fun _ => 0⟩, { h with zmallocs := h.zmallocs + 1 })

/-- A command is sent and polled until its callback has set `finished`; `done` is what follows. -/
def submit (a : Answers) (c : Command) (done : Host → Host) (h : Host) : Host :=
  if a.accepted then
    if a.completes then done (h.print (.cbFinished c)) else h.halt .hangs
  else (h.print (.startingFailed c)).halt .exits

def freeQpair (h : Host) : Host := { h with qpairs := h.qpairs - 1 }

end Host

/-- `strcpy` of the text. -/
def strcpy (m : Memory) : Memory := m.copy 0 (fun i => text.getD i 0) 0 text.length

/-- The string at the beginning of a buffer, if it ends there. -/
def cString (b : Buffer) : Option (List UInt8) :=
  let bytes := (List.range b.size).map fun i => b.content i
  if 0 ∈ bytes then some (bytes.takeWhile (· ≠ 0)) else none

section Commands
variable (size : ℕ → ℕ) (answers : ℕ → Answers)

/-- What a write of one block leaves in it. -/
def written (a : Answers) (ns : ℕ) (m : Memory) (h : Host) : Memory :=
  a.fault.getD ((h.blocks ns 0).copy 0 m 0 (size ns))

/-- What a read of one block leaves in the buffer. -/
def received (a : Answers) (ns : ℕ) (m : Memory) (h : Host) : Memory :=
  a.fault.getD (m.copy 0 (h.blocks ns 0) 0 (size ns))

/-- `nvme_opera_write`. The blocks of the namespace `ns` have `size ns` bytes. -/
def nvmeOperaWrite (ctrlr ns : ℕ) (h : Host) : Host :=
  let a := answers h.ios
  let h := { h with ios := h.ios + 1 }
  if a.qpair then
    let (wmem, h) := { h with qpairs := h.qpairs + 1 }.getBuffer ctrlr
    if wmem.size < text.length ∨ wmem.size < size ns then h.halt .overruns
    else
      let content := strcpy wmem.content
      (h.keep ctrlr content).submit a (.write ns) fun h =>
        ((h.setBlock ns 0 (written size a ns content h)).freeQpair).print .writeSuccessful
  else h

/-- `nvme_opera_read` of both files. -/
def nvmeOperaRead (ctrlr ns : ℕ) (h : Host) : Host :=
  let a := answers h.ios
  let h := { h with ios := h.ios + 1 }
  if a.qpair then
    let (rmem, h) := { h with qpairs := h.qpairs + 1 }.getBuffer ctrlr
    if rmem.size < size ns then h.halt .overruns
    else
      h.submit a (.read ns) fun h =>
        let content := received size a ns rmem.content h
        let h := (h.keep ctrlr content).freeQpair
        match cString { rmem with content } with
        | none => h.halt .overruns
        | some string => h.print (.readSuccessful string)
  else h

/-- A command of the callback, if the program still runs. -/
def perform (ctrlr : ℕ) (h : Host) (c : Command) : Host :=
  if h.stop ≠ none then h
  else
    match c with
    | .write ns => nvmeOperaWrite size answers ctrlr ns h
    | .read ns => nvmeOperaRead size answers ctrlr ns h

/-- `spdk_nvme_probe` of `nvme_opera.c`: the callback is called with each controller, and carries out
its commands. A callback whose loop does not end is `none`, also if the program has stopped in it. -/
def nvmeOperaProbe (fuel : ℕ) (ctrlrs : List (ℕ × Ctrlr)) (h : Host) : Option Host :=
  ctrlrs.foldlM (fun h (ctrlr, c) =>
    (nvmeOperaAttachCallback fuel c).map (·.foldl (perform size answers ctrlr) h)) h

/-- The buffer that `main` of `kv_main.cpp` takes, and `mmap_io`. -/
def mainBuffer (ctrlr : ℕ) (h : Host) : Buffer × ℕ × Host :=
  let own : Buffer × ℕ × Host :=
    (⟨ALIGN_4k, fun _ => 0⟩, 0, { h.print .switchZmalloc with zmallocs := h.zmallocs + 1 })
  match h.cmb ctrlr with
  | some b => if b.size = 0 then own else (b, 1, h)
  | none => own

/-- What `main` of `kv_main.cpp` writes with a buffer: `memset` over all of it, `snprintf`, and the
command. -/
def mainWrite (a : Answers) (ctrlr ns mmapIo : ℕ) (buf : Buffer) (h : Host) : Host :=
  if buf.size < text.length ∨ buf.size < size ns then h.halt .overruns
  else
    let content := strcpy fun i => if i < buf.size then 0 else buf.content i
    let h := if mmapIo = 1 then h.keep ctrlr content else h
    h.submit a (.write ns) fun h => (h.setBlock ns 0 (written size a ns content h)).freeQpair

/-- `main` of `kv_main.cpp` behind the probe, with what it returns if the program does not stop
before. A `NULL` that is followed is `none`. -/
def kvMain (g : Globals) (h : Host) : Option (ℤ × Host) := do
  let ctrlr ← g.gctrlr
  let a := answers h.ios
  let h := { h with ios := h.ios + 1 }
  if a.qpair then
    let (buf, mmapIo, h) := mainBuffer ctrlr { h with qpairs := h.qpairs + 1 }
    let ns ← g.gns
    let h := mainWrite size a ctrlr ns mmapIo buf h
    let h := perform size answers ctrlr h (.read ns)
    return (0, if h.stop ≠ none then h else h.print (.mmapIo mmapIo))
  else return (-1, h)

end Commands

/-- A controller that is attached: its address and handle, and the queue pair that the callback gets
from it. -/
structure Attached where
  traddr : List UInt8
  ctrlr : ℕ
  c : Ctrlr
  qpair : Option ℕ

/-- `spdk_nvme_probe` of `kv_main.cpp`. -/
def kvProbe (fuel : ℕ) (attached : List Attached) (g : Globals) : Option Globals :=
  attached.foldlM (fun g a => nvmeAttachCb fuel a.traddr a.ctrlr a.c a.qpair g) g

end Nvme

end LearnSpdk
