import LearnSpdk.Lib.Inclusion
import LearnSpdk.Proofs.LRUCapacity

/-! A cache with more room never does worse. Given the same calls and the same readings of the
clock, its nodes include those of the smaller cache in the same order, so that what the
smaller one finds it finds too. -/

namespace LearnSpdk

open Lib

namespace LRUCache

variable {S L : List Node} {node : Node} {k : ℕ} {now key : ℤ}

/-! ### Lists of nodes -/

theorem partOf_sweep (h : PartOf k S L) (now : ℤ) : PartOf k (sweep now S) (sweep now L) := h.filter _

theorem partOf_refresh (h : PartOf k S L) (node : Node) : PartOf k (refresh node S) (refresh node L) :=
  (h.filter _).cons node

def Lacks (node : Node) (L : List Node) : Prop := ∀ n ∈ L, n.key ≠ node.key

theorem Lacks.refresh (h : Lacks node L) : refresh node L = node :: L :=
  refresh_of_new fun n hn => by simpa using h n hn

theorem lacks_iff : Lacks node L ↔ (L.find? fun n => n.key = node.key).isNone := by
  rw [Option.isNone_iff_eq_none, List.find?_eq_none]
  simp [Lacks]

theorem Lacks.sublist (h : Lacks node L) (hsub : S.Sublist L) : Lacks node S := fun n hn => h n (hsub.subset hn)

theorem Lacks.sublist_refresh (h : Lacks node S) (hsub : S.Sublist L) :
    S.Sublist (L.filter fun n => n.key ≠ node.key) := by
  have hfilter := hsub.filter fun n => decide (n.key ≠ node.key)
  rwa [List.filter_eq_self.2 fun n hn => by simpa using h n hn] at hfilter

/-- A node that only the larger cache holds is used. -/
theorem partOf_refresh_right (h : PartOf k S L) (hlacks : Lacks node S) (hmem : ∃ n ∈ L, n.key = node.key) :
    PartOf k S (refresh node L) := by
  refine ⟨(hlacks.sublist_refresh h.sublist).cons node, ?_⟩
  exact (length_refresh_le node hmem).trans h.length_le

theorem putNodes_of_lacks {capacity : ℤ} (h : Lacks node L) :
    putNodes capacity node L = node :: if (L.length : ℤ) = capacity then L.dropLast else L := by
  rw [putNodes]
  by_cases hfull : (L.length : ℤ) = capacity
  · rw [if_pos ⟨lacks_iff.1 h, hfull⟩, if_pos hfull, (h.sublist (List.dropLast_sublist L)).refresh]
  · rw [if_neg fun hboth => hfull hboth.2, if_neg hfull, h.refresh]

theorem putNodes_of_mem {capacity : ℤ} (h : ¬Lacks node L) : putNodes capacity node L = refresh node L := by
  rw [putNodes, if_neg fun hboth => h (lacks_iff.2 hboth.1)]

/-- A `put` into both. If the larger cache is full then so is the smaller one, and the last
node of the larger one is also the last node of the smaller one or none of it. -/
theorem partOf_putNodes {capacity : ℤ} (h : PartOf k S L) (hcap : 1 ≤ capacity)
    (hS : (S.length : ℤ) ≤ capacity) (hL : (L.length : ℤ) ≤ capacity + k) (node : Node) :
    PartOf k (putNodes capacity node S) (putNodes (capacity + k) node L) := by
  have hk := h.length_le
  have hle : (putNodes (capacity + k) node L).length ≤ capacity + k :=
    length_putNodes_le (by omega) hL
  by_cases hlacks : Lacks node S
  swap
  · have hlacks' : ¬Lacks node L := fun hL => hlacks (hL.sublist h.sublist)
    rw [putNodes_of_mem hlacks, putNodes_of_mem hlacks']
    exact partOf_refresh h node
  rw [putNodes_of_lacks hlacks]
  by_cases hlacks' : Lacks node L
  · rw [putNodes_of_lacks hlacks'] at hle ⊢
    by_cases hfull : (L.length : ℤ) = capacity + k
    · rw [if_pos (show (S.length : ℤ) = capacity by omega), if_pos hfull]
      refine ⟨(dropLast_sublist_dropLast h.sublist).cons_cons node, ?_⟩
      rw [List.length_cons, List.length_cons, List.length_dropLast, List.length_dropLast]
      omega
    rw [if_neg hfull] at hle ⊢
    split
    · refine ⟨((List.dropLast_sublist S).trans h.sublist).cons_cons node, ?_⟩
      rw [List.length_cons] at hle
      rw [List.length_cons, List.length_cons, List.length_dropLast]
      omega
    · exact h.cons node
  · rw [putNodes_of_mem hlacks'] at hle ⊢
    have hmem : ∃ n ∈ L, n.key = node.key := by simpa [Lacks] using hlacks'
    have hrefresh := length_refresh_le node hmem
    have hsub := hlacks.sublist_refresh h.sublist
    split
    · refine ⟨((List.dropLast_sublist S).trans hsub).cons_cons node, ?_⟩
      rw [List.length_cons, List.length_dropLast]
      omega
    · refine ⟨hsub.cons_cons node, ?_⟩
      rw [List.length_cons]
      omega

theorem held_of_sublist (hsub : S.Sublist L) (hnodup : (L.map Node.key).Nodup) (h : held key now S = some node) :
    held key now L = some node := by
  have hsweep : (sweep now S).Sublist (sweep now L) := hsub.filter _
  have hmem := hsweep.subset (List.mem_of_find?_eq_some h)
  have hkey : node.key = key := by simpa using List.find?_some h
  cases hheld : held key now L with
  | none =>
    have hnone := List.find?_eq_none.1 hheld node hmem
    simp [hkey] at hnone
  | some n =>
    have hn := List.mem_of_find?_eq_some hheld
    have hkey' : n.key = key := by simpa using List.find?_some hheld
    have hsame := hkey'.trans hkey.symm
    rw [List.inj_on_of_nodup_map hnodup (List.mem_filter.1 hn).1 (List.mem_filter.1 hmem).1 hsame]

/-! ### Runs -/

/-- The cache `c'` has room for `k` nodes more than `c`, and includes it. -/
structure Includes (k : ℕ) (c c' : Cache) : Prop where
  small : InOrder c
  large : InOrder c'
  positive : 1 ≤ c.capacity.toInt
  capacity : c'.capacity.toInt = c.capacity.toInt + k
  ttl : c'.ttl = c.ttl
  nodes : PartOf k c.nodes c'.nodes

theorem Coherent.nodup_keys {c : Cache} (h : Coherent c) : (c.nodes.map Node.key).Nodup := by
  rw [Cache.nodes, List.map_map]
  exact h.keys

variable {c c' : Cache}

/-- A `get` of both: the smaller cache finds nothing that the larger one does not. -/
theorem Includes.get (h : Includes k c c') {d' : Cache} {r' : Option ℤ} {now' : ℤ}
    (hget : c'.get key now now' = some (r', d')) :
    ∃ r d, c.get key now now' = some (r, d) ∧ (∀ v, r = some v → r' = some v) ∧
      Coherent d ∧ Coherent d' ∧ d.capacity = c.capacity ∧ d'.capacity = c'.capacity ∧ d.ttl = c.ttl ∧
      d'.ttl = c'.ttl ∧ PartOf k d.nodes d'.nodes := by
  have hsmall := h.small.coherent.get key now now'
  have hlarge := h.large.coherent.get key now now'
  have hsweep := partOf_sweep h.nodes now
  cases hheld' : held key now c'.nodes with
  | none =>
    have hheld : held key now c.nodes = none := by
      by_contra hne
      obtain ⟨node, hnode⟩ := Option.ne_none_iff_exists'.1 hne
      rw [held_of_sublist h.nodes.sublist h.large.coherent.nodup_keys hnode] at hheld'
      cases hheld'
    rw [hheld'] at hlarge
    rw [hheld] at hsmall
    obtain ⟨e', hget', hcoherent', hnodes', httl', hcapacity'⟩ := hlarge
    obtain ⟨d, hd, hcoherent, hnodes, httl, hcapacity⟩ := hsmall
    obtain ⟨-, rfl⟩ := Prod.mk.inj (Option.some.inj (hget'.symm.trans hget))
    exact ⟨none, d, hd, by simp, hcoherent, hcoherent', hcapacity, hcapacity', httl, httl',
      by rw [hnodes, hnodes']; exact hsweep⟩
  | some node' =>
    rw [hheld'] at hlarge
    dsimp only at hlarge
    split_ifs at hlarge with hexp
    · rw [hlarge] at hget
      cases hget
    obtain ⟨e', hget', hcoherent', hnodes', httl', hcapacity'⟩ := hlarge
    obtain ⟨rfl, rfl⟩ := Prod.mk.inj (Option.some.inj (hget'.symm.trans hget))
    cases hheld : held key now c.nodes with
    | none =>
      rw [hheld] at hsmall
      obtain ⟨d, hd, hcoherent, hnodes, httl, hcapacity⟩ := hsmall
      have hkey : node'.key = key := by simpa using List.find?_some hheld'
      have hlacks : Lacks node' (sweep now c.nodes) := by
        rw [lacks_iff, hkey, Option.isNone_iff_eq_none]
        exact hheld
      refine ⟨none, d, hd, by simp, hcoherent, hcoherent', hcapacity, hcapacity', httl, httl', ?_⟩
      rw [hnodes, hnodes']
      exact partOf_refresh_right hsweep hlacks ⟨node', List.mem_of_find?_eq_some hheld', rfl⟩
    | some node =>
      rw [hheld] at hsmall
      have hsame := held_of_sublist h.nodes.sublist h.large.coherent.nodup_keys hheld
      obtain rfl : node' = node := Option.some.inj (hheld'.symm.trans hsame)
      dsimp only at hsmall
      rw [if_neg hexp] at hsmall
      obtain ⟨d, hd, hcoherent, hnodes, httl, hcapacity⟩ := hsmall
      refine ⟨_, d, hd, fun v hv => hv, hcoherent, hcoherent', hcapacity, hcapacity', httl, httl', ?_⟩
      rw [hnodes, hnodes']
      exact partOf_refresh hsweep node'

theorem Includes.step (h : Includes k c c') {op : Op} {d' : Cache} (hstep : step op c' = some d') :
    ∃ d, LRUCache.step op c = some d ∧ Includes k d d' := by
  have hpositive' : 1 ≤ c'.capacity.toInt := by
    have hpositive := h.positive
    have hcapacity := h.capacity
    omega
  have hlarge : InOrder d' := (h.large.of_step hpositive' hstep).1
  have hsmall {d : Cache} (hd : LRUCache.step op c = some d) : InOrder d := (h.small.of_step h.positive hd).1
  cases op with
  | get key now now' =>
    obtain ⟨⟨r', e'⟩, hget, rfl⟩ := Option.map_eq_some_iff.1 hstep
    obtain ⟨r, d, hd, -, -, -, hcapacity, hcapacity', httl, httl', hnodes⟩ := h.get hget
    have hstep' : LRUCache.step (.get key now now') c = some d := by rw [LRUCache.step, hd]; rfl
    exact ⟨d, hstep', hsmall hstep', hlarge, hcapacity ▸ h.positive, by rw [hcapacity, hcapacity', h.capacity],
      by rw [httl, httl', h.ttl], hnodes⟩
  | put key value now now' =>
    have hsize := h.small.size
    have hsize' := h.large.size
    rw [← length_nodes] at hsize hsize'
    have hsweep := length_sweep_le now c.nodes
    have hsweep' := length_sweep_le now c'.nodes
    have hpositive := h.positive
    have hcapacity := h.capacity
    obtain ⟨d, hput, -, hnodes, httl, hcap⟩ := h.small.coherent.put h.positive key value now now'
    obtain ⟨e', hput', -, hnodes', httl', hcap'⟩ :=
      h.large.coherent.put hpositive' key value now now'
    obtain rfl : e' = d' := Option.some.inj (hput'.symm.trans hstep)
    refine ⟨d, hput, hsmall hput, hlarge, hcap ▸ h.positive, by rw [hcap, hcap', h.capacity],
      by rw [httl, httl', h.ttl], ?_⟩
    rw [hnodes, hnodes', h.capacity, h.ttl]
    exact partOf_putNodes (partOf_sweep h.nodes now) h.positive (by omega) (by omega) _

/-- More room never hurts. Whatever the clock reads, if a run of calls is defined on the cache
with more room then it is defined on the one with less, the nodes of the one with less are
among those of the other, in the same order, and every `get` that finds a value in the one
with less finds the same value in the other. -/
theorem larger_cache_includes {capacity capacity' : Int32} (hcap : 1 ≤ capacity.toInt)
    (hle : capacity.toInt ≤ capacity'.toInt) (ttl : ℤ) (ops : List Op)
    (hrun : run ops (init capacity' ttl) = some c') :
    ∃ c, run ops (init capacity ttl) = some c ∧ c.nodes.Sublist c'.nodes ∧
      ∀ key now now' r' d', c'.get key now now' = some (r', d') →
        ∃ r d, c.get key now now' = some (r, d) ∧ ∀ v, r = some v → r' = some v := by
  obtain ⟨k, hk⟩ := Int.le.dest hle
  have hinit : Includes k (init capacity ttl) (init capacity' ttl) :=
    ⟨⟨coherent_init capacity ttl, by simpa [init] using le_trans (by decide) hcap⟩,
      ⟨coherent_init capacity' ttl, by simpa [init] using le_trans (by decide) (hcap.trans hle)⟩,
      hcap, hk.symm, rfl, .nil⟩
  have hmain : ∃ c, run ops (init capacity ttl) = some c ∧ Includes k c c' := by
    simp only [run_eq_attempt] at hrun ⊢
    induction ops using List.reverseRecOn generalizing c' with
    | nil => exact ⟨_, rfl, Option.some.inj hrun ▸ hinit⟩
    | append_singleton ops op ih =>
      rw [attempt_snoc, Option.bind_eq_some_iff] at hrun
      obtain ⟨b', hb', hstep⟩ := hrun
      obtain ⟨b, hb, hincludes⟩ := ih hb'
      obtain ⟨c, hc, hincludes'⟩ := hincludes.step hstep
      exact ⟨c, by rw [attempt_snoc, hb, Option.bind_some, hc], hincludes'⟩
  obtain ⟨c, hc, hincludes⟩ := hmain
  refine ⟨c, hc, hincludes.nodes.sublist, ?_⟩
  intro key now now' r' d' hget
  obtain ⟨r, d, hd, hr, -⟩ := hincludes.get hget
  exact ⟨r, d, hd, hr⟩

/-- The calls of `main` with room for three nodes and for two. -/
theorem larger_cache_includes_main :
    ∃ c c', run [.put 1 1 0 0, .put 2 2 0 0, .get 1 0 0, .put 3 3 0 0] (init 3 2) = some c' ∧
      run [.put 1 1 0 0, .put 2 2 0 0, .get 1 0 0, .put 3 3 0 0] (init 2 2) = some c ∧
      c.nodes.Sublist c'.nodes := by
  have hrun : ∃ c', run [.put 1 1 0 0, .put 2 2 0 0, .get 1 0 0, .put 3 3 0 0] (init 3 2) = some c' := ⟨_, rfl⟩
  obtain ⟨c', hc'⟩ := hrun
  obtain ⟨c, hc, hsub, -⟩ := larger_cache_includes (show 1 ≤ (2 : Int32).toInt by decide) (by decide) 2 _ hc'
  exact ⟨c, c', hc', hc, hsub⟩

end LRUCache

end LearnSpdk
