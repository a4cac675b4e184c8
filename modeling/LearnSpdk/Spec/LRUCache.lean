import Mathlib.Algebra.Group.Int.Defs
import Mathlib.Data.Int.Basic
import Mathlib.Logic.Function.Basic

/-! `LRUCacheWithTTL` of `LRU_with_TTL/LRUCache.cpp`. The nodes of the `std::list` have
addresses, which are not given twice, and `key_map` maps keys to them; a node is live
while it is in the list. An operation that reads a node that is not live, or the last node
of an empty list, has no defined effect and no result here. The readings of the clock are
arguments of the operations, in the order in which they are made. -/

namespace LearnSpdk

namespace LRUCache

structure Node where
  key : ℤ
  value : ℤ
  expireTime : ℤ
deriving DecidableEq

/-- The cache, with the address that the next node gets. -/
structure Cache where
  ttl : ℤ
  capacity : Int32
  cache : List (ℕ × Node)
  keyMap : ℤ → Option ℕ
  fresh : ℕ

/-- The constructor. -/
def init (capacity : Int32) (ttl : ℤ) : Cache := ⟨ttl, capacity, [], fun _ => none, 0⟩

/-- The loop of `clean_expire` over the list. -/
def cleanLoop (now : ℤ) : List (ℕ × Node) → (ℤ → Option ℕ) → List (ℕ × Node) × (ℤ → Option ℕ)
  | [], keyMap => ([], keyMap)
  | (a, node) :: cells, keyMap =>
    if node.expireTime ≤ now then cleanLoop now cells (Function.update keyMap node.key none)
    else
      let r := cleanLoop now cells keyMap
      ((a, node) :: r.1, r.2)

namespace Cache

def cleanExpire (now : ℤ) (c : Cache) : Cache :=
  let r := cleanLoop now c.cache c.keyMap
  { c with cache := r.1, keyMap := r.2 }

/-- The node at an address. -/
def deref (a : ℕ) (c : Cache) : Option Node := (c.cache.find? fun cell => cell.1 = a).map Prod.snd

/-- `cache.erase`. -/
def erase (a : ℕ) (c : Cache) : Cache := { c with cache := c.cache.filter fun cell => cell.1 ≠ a }

/-- `cache.splice(cache.begin(), cache, it)`. -/
def splice (a : ℕ) (c : Cache) : Option Cache :=
  (c.deref a).map fun node =>
    { c with cache := (a, node) :: c.cache.filter fun cell => cell.1 ≠ a }

/-- A write to the node at an address. -/
def assign (a : ℕ) (value expireTime : ℤ) (c : Cache) : Cache :=
  { c with cache := c.cache.map fun cell =>
      if cell.1 = a then (a, { cell.2 with value := value, expireTime := expireTime }) else cell }

/-- `cache.size() == capacity`, where the `int` is converted to `size_t`. -/
def isFull (c : Cache) : Bool := (c.cache.length : ℤ) = c.capacity.toInt % 2 ^ 64

/-- `get`, with the readings of `clean_expire` and `is_expired`. The answer is `none` where the
source returns -1. -/
def get (key now now' : ℤ) (c : Cache) : Option (Option ℤ × Cache) :=
  let c := c.cleanExpire now
  match c.keyMap key with
  | none => some (none, c)
  | some it => do
    let node ← c.deref it
    if node.expireTime ≤ now' then
      let c := c.erase it
      let node ← c.deref it
      return (none, { c with keyMap := Function.update c.keyMap node.key none })
    else
      let c ← c.splice it
      let node ← c.deref it
      return (some node.value, c)

/-- The last node leaves the cache. -/
def popBack (c : Cache) : Option Cache :=
  c.cache.getLast?.map fun last =>
    { c with keyMap := Function.update c.keyMap last.2.key none, cache := c.cache.dropLast }

/-- `put`, with the readings of `clean_expire` and of the new expiry time. -/
def put (key value now now' : ℤ) (c : Cache) : Option Cache :=
  let c := c.cleanExpire now
  match c.keyMap key with
  | none => do
    let c ← if c.isFull then c.popBack else some c
    return { c with
      cache := (c.fresh, ⟨key, value, now' + c.ttl⟩) :: c.cache
      keyMap := Function.update c.keyMap key (some c.fresh)
      fresh := c.fresh + 1 }
  | some it => do
    let _ ← c.deref it
    (c.assign it value (now' + c.ttl)).splice it

end Cache

/-- A call with its two readings of the clock. -/
inductive Op where
  | get (key now now' : ℤ)
  | put (key value now now' : ℤ)
deriving DecidableEq

def step : Op → Cache → Option Cache
  | .get key now now', c => (c.get key now now').map Prod.snd
  | .put key value now now', c => c.put key value now now'

def run (ops : List Op) (c : Cache) : Option Cache := ops.foldlM (fun c op => step op c) c

end LRUCache

end LearnSpdk
