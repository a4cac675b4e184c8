import Mathlib.Data.Nat.Notation
import Mathlib.Order.Basic

/-! The attach callbacks of `KV_Store/kv_main.cpp` and `spdk_nvme/nvme_opera.c`, which
walk the active namespaces of a controller. The controller is not in the repository: its
active list and its namespaces are inputs. A loop is given some fuel, and `none` is a loop
that needs more. `malloc` always finds room, and the reads and writes of the second callback
return. -/

namespace LearnSpdk

namespace Nvme

/-- A controller: its active ids in order, and what `spdk_nvme_ctrlr_get_ns` returns for an
id, which may be `NULL` for an active one too. -/
structure Ctrlr where
  active : List UInt32
  increasing : active.Pairwise (· < ·)
  ne_zero : ∀ nsid ∈ active, nsid ≠ 0
  getNs : UInt32 → Option ℕ

namespace Ctrlr

def getFirstActiveNs (c : Ctrlr) : UInt32 := c.active.headD 0

def getNextActiveNs (c : Ctrlr) (nsid : UInt32) : UInt32 := (c.active.find? (nsid < ·)).getD 0

end Ctrlr

/-- The loop of both callbacks. The local `nsid` is an `int`. -/
def nsLoop {σ : Type} (c : Ctrlr) (body : Int32 → ℕ → σ → σ) : ℕ → Int32 → σ → Option σ
  | 0, _, _ => none
  | fuel + 1, nsid, s =>
    if nsid ≠ 0 then
      match c.getNs nsid.toUInt32 with
      | none =>
        -- `continue` goes on with the same id
        nsLoop c body fuel nsid s
      | some ns => nsLoop c body fuel (c.getNextActiveNs nsid.toUInt32).toInt32 (body nsid ns s)
    else some s

/-- `struct ctrlr_entry`. -/
structure CtrlrEntry where
  ctrlr : ℕ
  qpair : Option ℕ
  name : List UInt8

/-- `struct namespace_entry`: the entry of its controller is a position in `g_ctrlr`. -/
structure NamespaceEntry where
  ns : ℕ
  ctrlr : ℕ
  nsid : Int32
deriving DecidableEq

/-- The globals that `nvme_attach_cb` sets. -/
structure Globals where
  gctrlr : Option ℕ
  gns : Option ℕ
  gCtrlr : List CtrlrEntry
  gNs : List NamespaceEntry

def nameLength : ℕ := 5112

/-- `nvme_attach_cb` for a controller with the handle `ctrlr`: `qpair` is what
`spdk_nvme_ctrlr_alloc_io_qpair` returns. -/
def nvmeAttachCb (fuel : ℕ) (traddr : List UInt8) (ctrlr : ℕ) (c : Ctrlr) (qpair : Option ℕ) (g : Globals) :
    Option Globals :=
  let nsid := c.getFirstActiveNs.toInt32
  let entry : CtrlrEntry := ⟨ctrlr, qpair, traddr.take (nameLength - 1)⟩
  let g := { g with
    gns := c.getNs nsid.toUInt32
    gctrlr := some ctrlr
    gCtrlr := g.gCtrlr ++ [entry] }
  (nsLoop c (fun nsid ns entries => entries ++ [⟨ns, g.gCtrlr.length - 1, nsid⟩]) fuel nsid g.gNs).map
    fun entries => { g with gNs := entries }

/-- The commands of `nvme_opera_attach_callback`, as they are sent to a namespace. -/
inductive Command where
  | write (ns : ℕ)
  | read (ns : ℕ)

/-- `nvme_opera_attach_callback`: the commands in order, each of which returns. -/
def nvmeOperaAttachCallback (fuel : ℕ) (c : Ctrlr) : Option (List Command) :=
  nsLoop c (fun _ ns commands => commands ++ [.write ns, .read ns]) fuel c.getFirstActiveNs.toInt32 []

end Nvme

end LearnSpdk
