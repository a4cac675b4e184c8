import LearnSpdk.Lib.ByteMemory
import LearnSpdk.Spec.Myfs

/-! The bytes that the requests of `myfs.c` move between the memory of the caller and the
blobs. A request has moved its bytes when it is answered without an error. -/

namespace LearnSpdk

open Lib

namespace Myfs

/-- The memory of the caller, and the content of each blob. -/
structure Bytes where
  memory : Memory
  blobs : ℕ → Memory

namespace Bytes

/-- `spdk_blob_io_write`: `count` units from `buf` to the units of the blob from `offset` on. -/
def ioWrite (d : Bytes) (unitSize blob buf offset count : ℕ) : Bytes :=
  let content := (d.blobs blob).copy (offset * unitSize) d.memory buf (count * unitSize)
  { d with blobs := Function.update d.blobs blob content }

/-- `spdk_blob_io_read`, the other way. -/
def ioRead (d : Bytes) (unitSize blob buf offset count : ℕ) : Bytes :=
  { d with memory := d.memory.copy buf (d.blobs blob) (offset * unitSize) (count * unitSize) }

/-- What an answered request has moved. -/
def serve (unitSize : ℕ) (d : Bytes) (a : Answered) : Bytes :=
  if a.bserrno = 0 then
    match a.call with
    | .ioWrite blob buf offset count => d.ioWrite unitSize blob buf offset count
    | .ioRead blob buf offset count => d.ioRead unitSize blob buf offset count
    | _ => d
  else d

/-- What the requests moved that were answered between two worlds of a run. -/
def moved (w w' : World) (d : Bytes) : Bytes := (w'.ran.drop w.ran.length).foldl (serve w.unitSize) d

end Bytes

end Myfs

end LearnSpdk
