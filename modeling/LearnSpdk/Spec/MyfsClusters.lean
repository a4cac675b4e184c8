import LearnSpdk.Spec.Myfs
import Mathlib.Algebra.BigOperators.Group.Finset.Piecewise
import Mathlib.Algebra.Order.BigOperators.Group.Finset

/-! The clusters that the callbacks of `myfs.c` leave to the blobs. The blobstore is not in the
repository: a new blob owns no clusters, the free clusters are those that no blob owns, and
`spdk_blob_resize` sets how many a blob owns. -/

namespace LearnSpdk

namespace Myfs

/-- A blobstore: its blobs, and how many clusters each of them owns. -/
structure Blobstore where
  total : ℕ
  blobs : Finset ℕ
  clusters : ℕ → ℕ
  fits : ∑ b ∈ blobs, clusters b ≤ total

namespace Blobstore

/-- `spdk_bs_free_cluster_count`. -/
def freeClusterCount (s : Blobstore) : ℕ := s.total - ∑ b ∈ s.blobs, s.clusters b

theorem sum_create (s : Blobstore) {b : ℕ} (h : b ∉ s.blobs) :
    ∑ c ∈ insert b s.blobs, Function.update s.clusters b 0 c = ∑ c ∈ s.blobs, s.clusters c := by
  rw [Finset.sum_insert h, Function.update_self, Nat.zero_add, Finset.sum_update_of_notMem h]

/-- A new blob `b`. -/
def create (s : Blobstore) (b : ℕ) (h : b ∉ s.blobs) : Blobstore where
  total := s.total
  blobs := insert b s.blobs
  clusters := Function.update s.clusters b 0
  fits := (s.sum_create h).trans_le s.fits

/-- `spdk_blob_resize`, which fails if there are not enough clusters. -/
def resize (s : Blobstore) (b n : ℕ) : Blobstore :=
  if h : ∑ c ∈ s.blobs, Function.update s.clusters b n c ≤ s.total then
    { s with clusters := Function.update s.clusters b n, fits := h }
  else s

/-- What a call that was made does to the clusters. -/
def carryOut (s : Blobstore) (q : Request) : Blobstore :=
  match q.call with
  | .resize b n => s.resize b n
  | _ => s

end Blobstore

/-- A completion for the file `file`, in the course of the operation `op`: the new blob
`blobid` is created, or the blob `blobid` of the store is opened. -/
inductive Completion where
  | create (file op blobid : ℕ)
  | open (file op blobid : ℕ)
deriving DecidableEq

/-- The files and their blobstore. No step reads the log of completions. -/
structure Disk where
  world : World
  store : Blobstore
  log : List Completion

namespace Disk

/-- The callback of a completion, and what the calls it makes do to the blobstore. -/
def step (c : Completion) (s : Disk) : Option Disk :=
  match c with
  | .create f op b =>
    if h : b ∉ s.store.blobs then
      some ⟨myfsBlobCreateComplete f op b s.world, s.store.create b h, s.log ++ [c]⟩
    else none
  | .open f op b =>
    if b ∈ s.store.blobs then
      (myfsBlobOpenComplete f op (some b) s.store.freeClusterCount s.world).map fun w =>
        ⟨w, (w.pending op).elim s.store s.store.carryOut, s.log ++ [c]⟩
    else none

end Disk

end Myfs

end LearnSpdk
