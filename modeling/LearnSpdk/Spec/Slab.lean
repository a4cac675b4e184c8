import LearnSpdk.Lib.ByteMemory
import LearnSpdk.Lib.Schedule

/-! `KV_Store/simple_slab.c`: a page cut into blocks of one size, whose free blocks hold the
free list. Pointers are addresses of 8 bytes, `NULL` is `0`, and the slab itself is given. -/

namespace LearnSpdk

open Lib

namespace SimpleSlab

def KV_PAGE_SIZE : ℕ := 0x1000

/-- `sizeof(char*)`. -/
def PTR_SIZE : ℕ := 8

/-- What `malloc(KV_PAGE_SIZE)` returns when it does not return `NULL`. -/
structure Page where
  addr : ℕ
  addr_ne_null : addr ≠ 0
  addr_le : addr + KV_PAGE_SIZE ≤ 256 ^ PTR_SIZE

/-- `slab_t`. -/
structure Slab where
  blockSize : ℕ
  freeCount : ℕ
  firstFree : ℕ
  mem : ℕ

/-- The loop of `init_slab`, and the pointer it ends with. -/
def linkBlocks (blockSize : ℕ) : ℕ → ℕ → Memory → ℕ × Memory
  | 0, ptr, m => (ptr, m)
  | i + 1, ptr, m => linkBlocks blockSize i (ptr + blockSize) (m.store ptr PTR_SIZE (ptr + blockSize))

/-- `init_slab`, where `page` is the answer of `malloc`. -/
def initSlab (s : Slab) (blockSize : ℕ) (page : Option Page) (m : Memory) : Int × Slab × Memory :=
  let s := { s with blockSize := blockSize, freeCount := KV_PAGE_SIZE / blockSize }
  match page with
  | none => (-1, { s with firstFree := 0 }, m)
  | some page =>
    let (ptr, m) := linkBlocks blockSize s.freeCount page.addr m
    (0, { s with firstFree := page.addr, mem := page.addr }, m.store ptr PTR_SIZE 0)

/-- The stores of the loop of `init_slab` and the one behind it, in order: where each pointer
is written, and the pointer. -/
def linkStores (blockSize : ℕ) : ℕ → ℕ → List (ℕ × ℕ)
  | 0, ptr => [(ptr, 0)]
  | i + 1, ptr => (ptr, ptr + blockSize) :: linkStores blockSize i (ptr + blockSize)

/-- The stores of `init_slab`. -/
def initStores (blockSize : ℕ) : Option Page → List (ℕ × ℕ)
  | none => []
  | some page => linkStores blockSize (KV_PAGE_SIZE / blockSize) page.addr

def allocSlab (s : Slab) (m : Memory) : ℕ × Slab :=
  if s.freeCount = 0 then (0, s)
  else
    let ptr := s.firstFree
    (ptr, { s with firstFree := m.load ptr PTR_SIZE, freeCount := s.freeCount - 1 })

def freeSlab (s : Slab) (ptr : ℕ) (m : Memory) : Slab × Memory :=
  ({ s with firstFree := ptr, freeCount := s.freeCount + 1 }, m.store ptr PTR_SIZE s.firstFree)

/-- The slab with its users, which hold the blocks `held`. The `slab_t` is a variable of its own,
neither in the page nor in the 8 bytes behind it, into which `init_slab` can write. -/
structure State where
  slab : Slab
  memory : Memory
  held : List ℕ

/-- What a user does: a call, or a write of a byte of a block. -/
inductive Action where
  | alloc
  | free (ptr : ℕ)
  | write (ptr offset : ℕ) (byte : UInt8)

/-- Users free only blocks they hold, and write only into these. -/
def step : Action → State → State
  | .alloc, s =>
    let (ptr, slab) := allocSlab s.slab s.memory
    if ptr = 0 then { s with slab := slab } else { s with slab := slab, held := ptr :: s.held }
  | .free ptr, s =>
    if ptr ∈ s.held then
      let (slab, memory) := freeSlab s.slab ptr s.memory
      { slab := slab, memory := memory, held := s.held.erase ptr }
    else s
  | .write ptr offset byte, s =>
    if ptr ∈ s.held ∧ offset < s.slab.blockSize then
      { s with memory := s.memory.setByte (ptr + offset) byte }
    else s

/-- The state after `init_slab` got a page, whatever was in the slab and in the memory before. -/
def initial (s : Slab) (blockSize : ℕ) (page : Page) (m : Memory) : State :=
  let (_, slab, memory) := initSlab s blockSize (some page) m
  { slab := slab, memory := memory, held := [] }

def run (s : Slab) (blockSize : ℕ) (page : Page) (m : Memory) (acts : List Action) : State :=
  sched step (initial s blockSize page m) acts

end SimpleSlab

end LearnSpdk
