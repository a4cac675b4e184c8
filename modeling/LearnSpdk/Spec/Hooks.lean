import LearnSpdk.Spec.Myfs
import Mathlib.Data.Finset.Basic

/-! The POSIX calls of `spdk_filesystem/myfs.c`, which go to `myfs` or to the kernel. What the
kernel answers is an input: a `creat` or an `open` of it gets a descriptor that is not open in
the kernel, or fails. Of `myfs_setup` the pointer `fs` that it sets is read, and the descriptors
that it leaves open in the kernel. -/

namespace LearnSpdk

namespace Myfs

inductive Backend where
  | myfs
  | kernel
deriving DecidableEq

/-- The globals of the file, where `fs` tells if the pointer is set, and the descriptors that
are open in the kernel. -/
structure Process where
  world : World
  initilized : Bool
  fs : Bool
  kernel : Finset ℕ

namespace Process

/-- The kernel's `creat` and `open`; a descriptor that is open stands for a failed call. -/
def kernelOpen (d : ℕ) (p : Process) : ℤ × Process :=
  if d ∈ p.kernel then (-1, p) else (d, { p with kernel := insert d p.kernel })

def kernelClose (fd : ℤ) (p : Process) : ℤ × Process :=
  if fd.toNat ∈ p.kernel then (0, { p with kernel := p.kernel.erase fd.toNat }) else (-1, p)

def setup (kept : Finset ℕ) (p : Process) : Process :=
  if p.fs then p else { p with fs := true, kernel := p.kernel ∪ kept }

def creat (d : ℕ) (kept : Finset ℕ) (rs : Replies) (p : Process) : Option (ℤ × Process) :=
  if p.initilized then some (p.kernelOpen d)
  else
    let p := { p.setup kept with initilized := true }
    (myfsCreate rs p.world).map fun (ret, w) => (ret, { p with world := w })

def «open» (d : ℕ) (kept : Finset ℕ) (rs : Replies) (p : Process) : Option (ℤ × Process) :=
  if p.initilized then
    let p := p.setup kept
    (myfsOpen rs p.world).map fun (ret, w) => (ret, { p with world := w })
  else some (p.kernelOpen d)

/-- The test of `read`, `write` and `close`. -/
def backend (fd : ℤ) (p : Process) : Option Backend :=
  (p.world.slot fd).map fun file => if p.initilized && file.isSome then .myfs else .kernel

def read (fd : ℤ) (buf count : ℕ) (rs : Replies) (answer : ℤ) (p : Process) : Option (ℤ × Process) :=
  (p.backend fd).bind fun
    | .myfs => (myfsRead fd buf count rs p.world).map fun (n, w) => (ssizeT n, { p with world := w })
    | .kernel => some (answer, p)

def write (fd : ℤ) (buf count : ℕ) (rs : Replies) (answer : ℤ) (p : Process) : Option (ℤ × Process) :=
  (p.backend fd).bind fun
    | .myfs => (myfsWrite fd buf count rs p.world).map fun (n, w) => (ssizeT n, { p with world := w })
    | .kernel => some (answer, p)

def close (fd : ℤ) (rs : Replies) (p : Process) : Option (ℤ × Process) :=
  (p.backend fd).bind fun
    | .myfs => (myfsClose fd rs p.world).map fun (ret, w) => (ret, { p with world := w })
    | .kernel => some (p.kernelClose fd)

end Process

/-- A call with the descriptor `d` that the kernel has for it, those that a set-up keeps open,
and what the blob layer does. -/
inductive PosixCall where
  | creat (d : ℕ) (kept : Finset ℕ) (rs : Replies)
  | open (d : ℕ) (kept : Finset ℕ) (rs : Replies)
  | close (fd : ℤ) (rs : Replies)

/-- The descriptors that were returned and not closed since, each with the backend that
returned it. -/
structure Client where
  process : Process
  opened : List (ℤ × Backend)

namespace Client

def note (ret : ℤ) (b : Backend) (opened : List (ℤ × Backend)) : List (ℤ × Backend) :=
  if 0 ≤ ret then (ret, b) :: opened else opened

def step : PosixCall → Client → Option Client
  | .creat d kept rs, c =>
    (c.process.creat d kept rs).map fun (ret, p) =>
      ⟨p, note ret (if c.process.initilized then .kernel else .myfs) c.opened⟩
  | .open d kept rs, c =>
    (c.process.open d kept rs).map fun (ret, p) =>
      ⟨p, note ret (if c.process.initilized then .myfs else .kernel) c.opened⟩
  | .close fd rs, c =>
    (c.process.close fd rs).map fun (_, p) => ⟨p, c.opened.filter fun e => e.1 ≠ fd⟩

/-- A process before its first call, with some descriptors open in the kernel. -/
def initial (unitSize : ℕ) (kernel : Finset ℕ) : Client where
  process := ⟨World.initial unitSize, false, false, kernel⟩
  opened := []

end Client

end Myfs

end LearnSpdk
