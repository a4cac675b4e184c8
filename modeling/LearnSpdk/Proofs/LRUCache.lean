import LearnSpdk.Lib.Attempt
import LearnSpdk.Spec.LRUCache
import Mathlib.Data.Int.Order.Basic
import Mathlib.Data.List.Induction
import Mathlib.Data.List.Nodup
import Mathlib.Data.List.Perm.Basic

/-! The list and the map of the cache stay in step, and seen from outside the cache is the
list of its nodes, latest first. The one call that goes wrong is a `get` during which its
node expires: it erases the node and then reads the key from it. -/

namespace LearnSpdk

namespace LRUCache

variable {now now' key value : ℤ} {c : Cache} {a : ℕ} {node : Node}

/-- `key_map` leads to the live node with the key. -/
structure Coherent (c : Cache) : Prop where
  keys : (c.cache.map fun cell => cell.2.key).Nodup
  addrs : (c.cache.map Prod.fst).Nodup
  lt : ∀ cell ∈ c.cache, cell.1 < c.fresh
  keyMap : ∀ k a, c.keyMap k = some a ↔ ∃ node, (a, node) ∈ c.cache ∧ node.key = k

theorem coherent_init (capacity : Int32) (ttl : ℤ) : Coherent (init capacity ttl) where
  keys := List.nodup_nil
  addrs := List.nodup_nil
  lt := by simp [init]
  keyMap := by simp [init]

namespace Coherent

theorem cell_eq_of_key (h : Coherent c) {x y : ℕ × Node} (hx : x ∈ c.cache) (hy : y ∈ c.cache)
    (heq : x.2.key = y.2.key) : x = y := List.inj_on_of_nodup_map h.keys hx hy heq

theorem cell_eq_of_addr (h : Coherent c) {x y : ℕ × Node} (hx : x ∈ c.cache) (hy : y ∈ c.cache)
    (heq : x.1 = y.1) : x = y := List.inj_on_of_nodup_map h.addrs hx hy heq

theorem deref (h : Coherent c) (hmem : (a, node) ∈ c.cache) : c.deref a = some node := by
  unfold Cache.deref
  cases hfind : c.cache.find? fun cell => cell.1 = a with
  | none =>
    have hnone := List.find?_eq_none.1 hfind (a, node) hmem
    simp at hnone
  | some cell =>
    have ha : cell.1 = a := by simpa using List.find?_some hfind
    rw [h.cell_eq_of_addr (List.mem_of_find?_eq_some hfind) hmem ha]
    rfl

theorem of_perm {c' : Cache} (h : Coherent c) (hperm : c'.cache.Perm c.cache)
    (hmap : c'.keyMap = c.keyMap) (hfresh : c'.fresh = c.fresh) : Coherent c' where
  keys := (hperm.map _).nodup_iff.2 h.keys
  addrs := (hperm.map _).nodup_iff.2 h.addrs
  lt := by
    intro cell hcell
    rw [hfresh]
    exact h.lt cell (hperm.mem_iff.1 hcell)
  keyMap := by
    intro k a
    rw [hmap, h.keyMap]
    simp only [hperm.mem_iff]

/-- A node and its key leave. -/
theorem remove {cell : ℕ × Node} {cells : List (ℕ × Node)} (h : Coherent c)
    (hperm : c.cache.Perm (cell :: cells)) :
    Coherent { c with cache := cells, keyMap := Function.update c.keyMap cell.2.key none } := by
  have hkeys := (hperm.map fun cell => cell.2.key).nodup_iff.1 h.keys
  have haddrs := (hperm.map Prod.fst).nodup_iff.1 h.addrs
  rw [List.map_cons, List.nodup_cons] at hkeys haddrs
  have hmem {x : ℕ × Node} (hx : x ∈ cells) : x ∈ c.cache :=
    hperm.mem_iff.2 (List.mem_cons_of_mem _ hx)
  refine ⟨hkeys.2, haddrs.2, fun x hx => h.lt x (hmem hx), fun k a => ?_⟩
  have hne {node : Node} (hnode : (a, node) ∈ cells) : node.key ≠ cell.2.key := by
    intro heq
    exact hkeys.1 (heq ▸ List.mem_map_of_mem (f := fun cell : ℕ × Node => cell.2.key) hnode)
  by_cases hk : k = cell.2.key
  · rw [hk]
    simp only [Function.update_self]
    refine ⟨?_, ?_⟩
    · intro hnone
      cases hnone
    · rintro ⟨node, hnode, heq⟩
      exact absurd heq (hne hnode)
  · simp only [Function.update_of_ne hk]
    rw [h.keyMap]
    refine ⟨?_, ?_⟩
    · rintro ⟨node, hnode, rfl⟩
      rcases List.mem_cons.1 (hperm.mem_iff.1 hnode) with heq | hnode
      · exact absurd (heq ▸ rfl) hk
      · exact ⟨node, hnode, rfl⟩
    · rintro ⟨node, hnode, rfl⟩
      exact ⟨node, hmem hnode, rfl⟩

/-- A node comes in at a new address, under a new key. -/
theorem insert (h : Coherent c) (node : Node) (hnew : c.keyMap node.key = none) :
    Coherent { c with
      cache := (c.fresh, node) :: c.cache
      keyMap := Function.update c.keyMap node.key (some c.fresh)
      fresh := c.fresh + 1 } := by
  have hkey {x : ℕ × Node} (hx : x ∈ c.cache) : x.2.key ≠ node.key := by
    intro heq
    have hsome := (h.keyMap node.key x.1).2 ⟨x.2, hx, heq⟩
    rw [hnew] at hsome
    cases hsome
  refine ⟨?_, ?_, ?_, fun k a => ?_⟩
  · rw [List.map_cons, List.nodup_cons]
    refine ⟨fun hmem => ?_, h.keys⟩
    obtain ⟨x, hx, heq⟩ := List.mem_map.1 hmem
    exact hkey hx heq
  · rw [List.map_cons, List.nodup_cons]
    refine ⟨fun hmem => ?_, h.addrs⟩
    obtain ⟨x, hx, heq⟩ := List.mem_map.1 hmem
    exact absurd (h.lt x hx) (by omega)
  · intro x hx
    rcases List.mem_cons.1 hx with rfl | hx
    · exact Nat.lt_succ_self _
    · exact Nat.lt_succ_of_lt (h.lt x hx)
  · by_cases hk : k = node.key
    · subst hk
      simp only [Function.update_self, Option.some.injEq, List.mem_cons, Prod.mk.injEq]
      refine ⟨?_, ?_⟩
      · rintro rfl
        exact ⟨node, .inl ⟨rfl, rfl⟩, rfl⟩
      · rintro ⟨n, ⟨rfl, -⟩ | hn, heq⟩
        · rfl
        · exact absurd heq (hkey hn)
    · simp only [Function.update_of_ne hk, List.mem_cons, Prod.mk.injEq]
      rw [h.keyMap]
      refine ⟨?_, ?_⟩
      · rintro ⟨n, hn, heq⟩
        exact ⟨n, .inr hn, heq⟩
      · rintro ⟨n, ⟨-, rfl⟩ | hn, heq⟩
        · exact absurd heq.symm hk
        · exact ⟨n, hn, heq⟩

end Coherent

/-! ### `clean_expire` -/

def Cache.nodes (c : Cache) : List Node := c.cache.map Prod.snd

def sweep (now : ℤ) (L : List Node) : List Node := L.filter fun node => now < node.expireTime

theorem cleanLoop_fst (now : ℤ) (cells : List (ℕ × Node)) (keyMap : ℤ → Option ℕ) :
    (cleanLoop now cells keyMap).1 = cells.filter fun cell => now < cell.2.expireTime := by
  induction cells generalizing keyMap with
  | nil => rfl
  | cons cell cells ih =>
    simp only [cleanLoop]
    split_ifs with hexp
    · rw [ih, List.filter_cons_of_neg (by simpa using hexp)]
    · rw [List.filter_cons_of_pos (by simpa using hexp), ih]

theorem cleanLoop_snd (now : ℤ) (cells : List (ℕ × Node)) (keyMap : ℤ → Option ℕ) (k : ℤ) :
    (cleanLoop now cells keyMap).2 k =
      if ∃ cell ∈ cells, cell.2.expireTime ≤ now ∧ cell.2.key = k then none else keyMap k := by
  induction cells generalizing keyMap with
  | nil => simp [cleanLoop]
  | cons cell cells ih =>
    simp only [cleanLoop]
    split_ifs with hexp hmem hmem
    · rw [ih]
      split_ifs with hrest
      · rfl
      · by_cases hk : k = cell.2.key
        · rw [hk, Function.update_self]
        · simp only [List.mem_cons, exists_eq_or_imp] at hmem
          rcases hmem with ⟨-, hk'⟩ | hmem
          · exact absurd hk'.symm hk
          · exact absurd hmem hrest
    · rw [ih]
      simp only [List.mem_cons, exists_eq_or_imp, not_or] at hmem
      rw [if_neg hmem.2, Function.update_of_ne]
      intro hk
      exact hmem.1 ⟨hexp, hk.symm⟩
    · simp only [List.mem_cons, exists_eq_or_imp] at hmem
      rcases hmem with ⟨hexp', -⟩ | hmem
      · exact absurd hexp' hexp
      · simp only [ih, if_pos hmem]
    · simp only [List.mem_cons, exists_eq_or_imp, not_or] at hmem
      simp only [ih, if_neg hmem.2]

theorem Coherent.cleanExpire (h : Coherent c) (now : ℤ) :
    Coherent (c.cleanExpire now) ∧ (c.cleanExpire now).nodes = sweep now c.nodes := by
  have hcache : (c.cleanExpire now).cache = c.cache.filter fun cell => now < cell.2.expireTime :=
    cleanLoop_fst now c.cache c.keyMap
  have hsub : (c.cleanExpire now).cache.Sublist c.cache := by
    rw [hcache]
    exact List.filter_sublist
  refine ⟨?_, ?_⟩
  · refine ⟨h.keys.sublist (hsub.map _), h.addrs.sublist (hsub.map _), fun x hx => h.lt x (hsub.subset hx),
      fun k a => ?_⟩
    have hmap : (c.cleanExpire now).keyMap k = _ := cleanLoop_snd now c.cache c.keyMap k
    rw [hmap, hcache]
    simp only [List.mem_filter, decide_eq_true_eq]
    split_ifs with hexp
    · obtain ⟨cell, hcell, hexp, hk⟩ := hexp
      refine iff_of_false (by simp) ?_
      rintro ⟨node, ⟨hnode, hlive⟩, hk'⟩
      have heq := h.cell_eq_of_key hcell hnode (hk.trans hk'.symm)
      rw [heq] at hexp
      exact absurd hlive (not_lt.2 hexp)
    · rw [h.keyMap]
      refine ⟨?_, ?_⟩
      · rintro ⟨node, hnode, hk⟩
        refine ⟨node, ⟨hnode, ?_⟩, hk⟩
        by_contra hlive
        exact hexp ⟨_, hnode, not_lt.1 hlive, hk⟩
      · rintro ⟨node, ⟨hnode, -⟩, hk⟩
        exact ⟨node, hnode, hk⟩
  · rw [Cache.nodes, hcache, sweep, Cache.nodes, List.filter_map]
    rfl

/-! ### `get` and `put` -/

def refresh (node : Node) (L : List Node) : List Node := node :: L.filter fun n => n.key ≠ node.key

/-- Addresses and keys tell the nodes apart alike. -/
theorem Coherent.filter_addr (h : Coherent c) (hmem : (a, node) ∈ c.cache) :
    (c.cache.filter fun cell => cell.1 ≠ a).map Prod.snd = c.nodes.filter fun n => n.key ≠ node.key := by
  rw [Cache.nodes, List.filter_map]
  congr 1
  refine List.filter_congr fun cell hcell => ?_
  have hiff : cell.1 = a ↔ cell.2.key = node.key := by
    refine ⟨?_, ?_⟩
    · intro ha
      rw [h.cell_eq_of_addr hcell hmem ha]
    · intro hk
      rw [h.cell_eq_of_key hcell hmem hk]
  simp [hiff]

theorem Coherent.splice (h : Coherent c) (hmem : (a, node) ∈ c.cache) :
    ∃ c', c.splice a = some c' ∧ Coherent c' ∧ c'.nodes = refresh node c.nodes ∧
      c'.deref a = some node ∧ c'.ttl = c.ttl ∧ c'.capacity = c.capacity := by
  have hfilter : (c.cache.filter fun cell => cell.1 ≠ a) = c.cache.erase (a, node) := by
    have hnodup : c.cache.Nodup := h.addrs.of_map _
    rw [hnodup.erase_eq_filter]
    refine List.filter_congr fun cell hcell => ?_
    have hiff : cell.1 = a ↔ cell = (a, node) := by
      refine ⟨?_, ?_⟩
      · exact fun ha => h.cell_eq_of_addr hcell hmem ha
      · rintro rfl
        rfl
    by_cases hcell' : cell = (a, node)
    · simp [hcell']
    · simp [hiff, hcell']
  have hcoherent : Coherent { c with cache := (a, node) :: c.cache.filter fun cell => cell.1 ≠ a } := by
    refine h.of_perm ?_ rfl rfl
    change ((a, node) :: c.cache.filter fun cell => cell.1 ≠ a).Perm c.cache
    rw [hfilter]
    exact (List.perm_cons_erase hmem).symm
  refine ⟨_, ?_, hcoherent, ?_, hcoherent.deref (List.mem_cons_self), rfl, rfl⟩
  · rw [Cache.splice, h.deref hmem]
    rfl
  · rw [refresh, ← h.filter_addr hmem]
    rfl

def held (key now : ℤ) (L : List Node) : Option Node := (sweep now L).find? fun node => node.key = key

theorem Coherent.keyMap_of_nodes (h : Coherent c) (key : ℤ) :
    (c.nodes.find? (fun node => node.key = key) = none ∧ c.keyMap key = none) ∨
      ∃ a node, c.nodes.find? (fun node => node.key = key) = some node ∧ node.key = key ∧
        (a, node) ∈ c.cache ∧ c.keyMap key = some a := by
  cases hmap : c.keyMap key with
  | none =>
    refine .inl ⟨List.find?_eq_none.2 fun node hnode => ?_, rfl⟩
    obtain ⟨cell, hcell, rfl⟩ := List.mem_map.1 hnode
    intro hk
    have hsome := (h.keyMap key cell.1).2 ⟨cell.2, hcell, by simpa using hk⟩
    rw [hmap] at hsome
    cases hsome
  | some a =>
    obtain ⟨node, hnode, hk⟩ := (h.keyMap key a).1 hmap
    refine .inr ⟨a, node, ?_, hk, hnode, rfl⟩
    cases hfind : c.nodes.find? fun node => node.key = key with
    | none =>
      have hnone := List.find?_eq_none.1 hfind node (List.mem_map_of_mem (f := Prod.snd) hnode)
      simp [hk] at hnone
    | some node' =>
      obtain ⟨cell, hcell, rfl⟩ := List.mem_map.1 (List.mem_of_find?_eq_some hfind)
      have hk' : cell.2.key = key := by simpa using List.find?_some hfind
      rw [h.cell_eq_of_key hcell hnode (hk'.trans hk.symm)]

theorem deref_erase (a : ℕ) (c : Cache) : (c.erase a).deref a = none := by
  simp [Cache.deref, Cache.erase]

/-- `get` finds the node of the key, and goes wrong if the node expires between its two
readings of the clock. -/
theorem Coherent.get (h : Coherent c) (key now now' : ℤ) :
    match held key now c.nodes with
    | none => ∃ c', c.get key now now' = some (none, c') ∧ Coherent c' ∧ c'.nodes = sweep now c.nodes ∧
        c'.ttl = c.ttl ∧ c'.capacity = c.capacity
    | some node =>
      if node.expireTime ≤ now' then c.get key now now' = none
      else ∃ c', c.get key now now' = some (some node.value, c') ∧ Coherent c' ∧
        c'.nodes = refresh node (sweep now c.nodes) ∧ c'.ttl = c.ttl ∧ c'.capacity = c.capacity := by
  obtain ⟨hclean, hnodes⟩ := h.cleanExpire now
  rw [held, ← hnodes]
  rcases hclean.keyMap_of_nodes key with ⟨hfind, hmap⟩ | ⟨a, node, hfind, hk, hmem, hmap⟩
  · rw [hfind]
    refine ⟨_, ?_, hclean, rfl, rfl, rfl⟩
    simp only [Cache.get, hmap]
  · rw [hfind]
    dsimp only
    split_ifs with hexp
    · simp only [Cache.get, hmap, hclean.deref hmem, Option.bind_eq_bind, Option.bind_some, if_pos hexp,
        deref_erase, Option.bind_none]
    · obtain ⟨c', hsplice, hcoherent, hrefresh, hderef, httl, hcap⟩ := hclean.splice hmem
      refine ⟨c', ?_, hcoherent, hrefresh, httl, hcap⟩
      simp only [Cache.get, hmap, hclean.deref hmem, Option.bind_eq_bind, Option.bind_some, if_neg hexp,
        hsplice, hderef]
      rfl

theorem Coherent.popBack (h : Coherent c) (hne : c.nodes ≠ []) :
    ∃ c', c.popBack = some c' ∧ Coherent c' ∧ c'.nodes = c.nodes.dropLast ∧
      (∀ k, c.keyMap k = none → c'.keyMap k = none) ∧ c'.ttl = c.ttl ∧ c'.capacity = c.capacity := by
  have hne' : c.cache ≠ [] := fun hnil => hne (by rw [Cache.nodes, hnil]; rfl)
  obtain ⟨cells, last, hcache⟩ := (List.eq_nil_or_concat c.cache).resolve_left hne'
  rw [List.concat_eq_append] at hcache
  have hperm : c.cache.Perm (last :: cells) := by
    rw [hcache]
    exact List.perm_append_singleton _ _
  refine ⟨_, ?_, h.remove hperm, ?_, fun k hk => ?_, rfl, rfl⟩
  · rw [Cache.popBack, hcache]
    simp
  · rw [Cache.nodes, Cache.nodes, hcache]
    simp
  · by_cases hkey : k = last.2.key
    · rw [hkey]
      exact Function.update_self _ _ _
    · exact (Function.update_of_ne hkey _ _).trans hk

theorem filter_assign {cells : List (ℕ × Node)} {k value expireTime : ℤ}
    (h : ∀ cell ∈ cells, cell.1 = a → cell.2.key = k) :
    ((cells.map fun cell => if cell.1 = a then
        (a, { cell.2 with value := value, expireTime := expireTime }) else cell).map Prod.snd).filter
      (fun n => n.key ≠ k) = (cells.map Prod.snd).filter fun n => n.key ≠ k := by
  induction cells with
  | nil => rfl
  | cons cell cells ih =>
    have hrest := ih fun x hx => h x (List.mem_cons_of_mem _ hx)
    rw [List.map_cons, List.map_cons, List.map_cons]
    split_ifs with ha
    · have hk := h cell List.mem_cons_self ha
      rw [List.filter_cons_of_neg (by simpa using hk), List.filter_cons_of_neg (by simpa using hk), hrest]
    · rw [List.filter_cons, List.filter_cons, hrest]

theorem Coherent.assign (h : Coherent c) (hmem : (a, node) ∈ c.cache) (value expireTime : ℤ) :
    Coherent (c.assign a value expireTime) ∧
      (a, { node with value := value, expireTime := expireTime }) ∈ (c.assign a value expireTime).cache ∧
      (c.assign a value expireTime).nodes.filter (fun n => n.key ≠ node.key) =
        c.nodes.filter fun n => n.key ≠ node.key := by
  have hkeys : (c.assign a value expireTime).cache.map (fun cell => cell.2.key) =
      c.cache.map fun cell => cell.2.key := by
    rw [Cache.assign, List.map_map]
    refine List.map_congr_left fun cell _ => ?_
    simp only [Function.comp_apply]
    split_ifs <;> rfl
  have haddrs : (c.assign a value expireTime).cache.map Prod.fst = c.cache.map Prod.fst := by
    rw [Cache.assign, List.map_map]
    refine List.map_congr_left fun cell _ => ?_
    simp only [Function.comp_apply]
    split_ifs with ha
    · exact ha.symm
    · rfl
  have hnode : (a, { node with value := value, expireTime := expireTime }) ∈
      (c.assign a value expireTime).cache := by
    refine List.mem_map.2 ⟨(a, node), hmem, ?_⟩
    simp
  refine ⟨⟨?_, ?_, ?_, ?_⟩, hnode, ?_⟩
  · rw [hkeys]
    exact h.keys
  · rw [haddrs]
    exact h.addrs
  · intro cell hcell
    have hfst : cell.1 ∈ c.cache.map Prod.fst := haddrs ▸ List.mem_map_of_mem hcell
    obtain ⟨x, hx, heq⟩ := List.mem_map.1 hfst
    rw [← heq]
    exact h.lt x hx
  · intro k b
    change c.keyMap k = some b ↔ _
    rw [h.keyMap]
    refine ⟨?_, ?_⟩
    · rintro ⟨n, hn, hk⟩
      by_cases hb : b = a
      · subst hb
        obtain ⟨-, rfl⟩ := Prod.mk.inj (h.cell_eq_of_addr hn hmem rfl)
        exact ⟨_, hnode, hk⟩
      · refine ⟨n, List.mem_map.2 ⟨(b, n), hn, ?_⟩, hk⟩
        simp [hb]
    · rintro ⟨n, hn, hk⟩
      obtain ⟨x, hx, heq⟩ := List.mem_map.1 hn
      split_ifs at heq with ha
      · obtain ⟨rfl, rfl⟩ := Prod.mk.inj heq
        exact ⟨x.2, ha ▸ hx, hk⟩
      · exact ⟨n, heq ▸ hx, hk⟩
  · refine filter_assign fun cell hcell ha => ?_
    rw [h.cell_eq_of_addr hcell hmem ha]

/-- `put` of a list of nodes: a key that is not there comes in, for the last node if there
are `capacity` of them. -/
def putNodes (capacity : ℤ) (node : Node) (L : List Node) : List Node :=
  if (L.find? fun n => n.key = node.key).isNone ∧ (L.length : ℤ) = capacity then refresh node L.dropLast
  else refresh node L

theorem refresh_of_new {L : List Node} (h : ∀ n ∈ L, ¬decide (n.key = node.key) = true) :
    refresh node L = node :: L := by
  rw [refresh, List.filter_eq_self.2 fun n hn => by simpa using h n hn]

theorem isFull_iff (hcap : 1 ≤ c.capacity.toInt) :
    c.isFull = true ↔ (c.nodes.length : ℤ) = c.capacity.toInt := by
  have hlt := Int32.toInt_lt c.capacity
  have hmod : c.capacity.toInt % 2 ^ 64 = c.capacity.toInt := by omega
  rw [Cache.isFull, hmod, decide_eq_true_iff, Cache.nodes, List.length_map]

theorem Coherent.put (h : Coherent c) (hcap : 1 ≤ c.capacity.toInt) (key value now now' : ℤ) :
    ∃ c', c.put key value now now' = some c' ∧ Coherent c' ∧
      c'.nodes = putNodes c.capacity.toInt ⟨key, value, now' + c.ttl⟩ (sweep now c.nodes) ∧
      c'.ttl = c.ttl ∧ c'.capacity = c.capacity := by
  obtain ⟨hclean, hnodes⟩ := h.cleanExpire now
  rw [putNodes, ← hnodes]
  rcases hclean.keyMap_of_nodes key with ⟨hfind, hmap⟩ | ⟨a, node, hfind, rfl, hmem, hmap⟩
  · have hnew := List.find?_eq_none.1 hfind
    have hiff : (c.cleanExpire now).isFull = true ↔ ((c.cleanExpire now).nodes.length : ℤ) = c.capacity.toInt :=
      isFull_iff hcap
    rw [hfind]
    by_cases hfull : (c.cleanExpire now).isFull = true
    · have hlen := hiff.1 hfull
      have hne : (c.cleanExpire now).nodes ≠ [] := by
        intro hnil
        rw [hnil, List.length_nil] at hlen
        omega
      obtain ⟨c₁, hpop, hcoherent, hdrop, hnone, httl, hcapacity⟩ := hclean.popBack hne
      refine ⟨_, ?_, hcoherent.insert ⟨key, value, now' + c₁.ttl⟩ (hnone key hmap), ?_, httl, hcapacity⟩
      · simp only [Cache.put, hmap, hfull, if_true, hpop, Option.bind_eq_bind, Option.bind_some]
        rfl
      · rw [if_pos ⟨rfl, hlen⟩, refresh_of_new fun n hn => hnew n (List.dropLast_subset _ hn), ← hdrop, httl]
        rfl
    · refine ⟨_, ?_, hclean.insert ⟨key, value, now' + c.ttl⟩ hmap, ?_, rfl, rfl⟩
      · simp only [Cache.put, hmap, hfull, Option.bind_eq_bind, Option.bind_some]
        rfl
      · rw [if_neg fun hlen => hfull (hiff.2 hlen.2), refresh_of_new hnew]
        rfl
  · obtain ⟨hassign, hnode, hfilter⟩ := hclean.assign hmem value (now' + c.ttl)
    obtain ⟨c', hsplice, hcoherent, hrefresh, -, httl, hcapacity⟩ := hassign.splice hnode
    refine ⟨c', ?_, hcoherent, ?_, httl, hcapacity⟩
    · simp only [Cache.put, hmap, hclean.deref hmem, Option.bind_eq_bind, Option.bind_some]
      exact hsplice
    · rw [hrefresh, refresh, hfilter, hfind, if_neg (by simp), refresh]

/-! ### Runs -/

/-- List and map agree, and there are `capacity` nodes at most. -/
structure InOrder (c : Cache) : Prop where
  coherent : Coherent c
  size : (c.cache.length : ℤ) ≤ c.capacity.toInt

theorem length_nodes (c : Cache) : c.nodes.length = c.cache.length := List.length_map _

/-- The key of a `get` is held at the first reading of the clock and expired at the second. -/
def Cache.Expires (c : Cache) : Op → Prop
  | .get key now now' =>
    ∃ cell ∈ c.cache, cell.2.key = key ∧ now < cell.2.expireTime ∧ cell.2.expireTime ≤ now'
  | .put _ _ _ _ => False

instance (c : Cache) : ∀ op, Decidable (c.Expires op)
  | .get key now now' => inferInstanceAs (Decidable (∃ cell ∈ c.cache,
      cell.2.key = key ∧ now < cell.2.expireTime ∧ cell.2.expireTime ≤ now'))
  | .put _ _ _ _ => isFalse id

theorem Coherent.expires_iff (h : Coherent c) (key now now' : ℤ) :
    c.Expires (.get key now now') ↔ ∃ node, held key now c.nodes = some node ∧ node.expireTime ≤ now' := by
  refine ⟨?_, ?_⟩
  · rintro ⟨cell, hcell, rfl, hlive, hexp⟩
    have hmem : cell.2 ∈ sweep now c.nodes :=
      List.mem_filter.2 ⟨List.mem_map_of_mem hcell, by simpa using hlive⟩
    cases hheld : held cell.2.key now c.nodes with
    | none =>
      have hnone := List.find?_eq_none.1 hheld cell.2 hmem
      simp at hnone
    | some node =>
      obtain ⟨hnode, -⟩ := List.mem_filter.1 (List.mem_of_find?_eq_some hheld)
      obtain ⟨x, hx, rfl⟩ := List.mem_map.1 hnode
      have hk : x.2.key = cell.2.key := by simpa using List.find?_some hheld
      refine ⟨x.2, rfl, ?_⟩
      rw [h.cell_eq_of_key hx hcell hk]
      exact hexp
  · rintro ⟨node, hheld, hexp⟩
    obtain ⟨hnode, hlive⟩ := List.mem_filter.1 (List.mem_of_find?_eq_some hheld)
    obtain ⟨cell, hcell, rfl⟩ := List.mem_map.1 hnode
    exact ⟨cell, hcell, by simpa using List.find?_some hheld, by simpa using hlive, hexp⟩

theorem length_sweep_le (now : ℤ) (L : List Node) : (sweep now L).length ≤ L.length :=
  List.length_filter_le _ _

theorem length_refresh_le {L : List Node} (node : Node) (hmem : ∃ n ∈ L, n.key = node.key) :
    (refresh node L).length ≤ L.length := by
  obtain ⟨n, hn, hk⟩ := hmem
  rw [refresh, List.length_cons, Nat.succ_le_iff]
  exact List.length_filter_lt_length_iff_exists.2 ⟨n, hn, by simpa using hk⟩

theorem length_putNodes_le {capacity : ℤ} {L : List Node} (hcap : 1 ≤ capacity)
    (hlen : (L.length : ℤ) ≤ capacity) : ((putNodes capacity node L).length : ℤ) ≤ capacity := by
  unfold putNodes
  split_ifs with hfull
  · have hle : (refresh node L.dropLast).length ≤ L.dropLast.length + 1 :=
      Nat.succ_le_succ (List.length_filter_le _ _)
    rw [List.length_dropLast] at hle
    have := hfull.2
    omega
  · by_cases hfind : (L.find? fun n => n.key = node.key) = none
    · have hle : (refresh node L).length ≤ L.length + 1 := Nat.succ_le_succ (List.length_filter_le _ _)
      have hne : (L.length : ℤ) ≠ capacity := fun heq => hfull ⟨by rw [hfind]; rfl, heq⟩
      omega
    · obtain ⟨n, hn⟩ := Option.ne_none_iff_exists'.1 hfind
      have hle := length_refresh_le node
        ⟨n, List.mem_of_find?_eq_some hn, by simpa using List.find?_some hn⟩
      omega

/-- A call that does not expire leaves the cache in order; one that does is undefined. -/
theorem InOrder.step (h : InOrder c) (hcap : 1 ≤ c.capacity.toInt) (op : Op) :
    (¬c.Expires op → ∃ c', step op c = some c' ∧ InOrder c' ∧ c'.capacity = c.capacity) ∧
      (c.Expires op → step op c = none) := by
  have hsize := h.size
  rw [← length_nodes] at hsize
  cases op with
  | get key now now' =>
    have hget := h.coherent.get key now now'
    rw [h.coherent.expires_iff]
    have hsweep := length_sweep_le now c.nodes
    cases hheld : held key now c.nodes with
    | none =>
      rw [hheld] at hget
      obtain ⟨c', hget, hcoherent, hnodes, -, hcapacity⟩ := hget
      refine ⟨fun _ => ⟨c', by rw [LRUCache.step, hget]; rfl, ⟨hcoherent, ?_⟩, hcapacity⟩, fun hexp => ?_⟩
      · rw [← length_nodes, hnodes, hcapacity]
        omega
      · obtain ⟨node, hnode, -⟩ := hexp
        cases hnode
    | some node =>
      rw [hheld] at hget
      by_cases hexp : node.expireTime ≤ now'
      · refine ⟨fun hnot => absurd ⟨node, rfl, hexp⟩ hnot, fun _ => ?_⟩
        simp only [if_pos hexp] at hget
        rw [LRUCache.step, hget]
        rfl
      · simp only [if_neg hexp] at hget
        obtain ⟨c', hget, hcoherent, hnodes, -, hcapacity⟩ := hget
        refine ⟨fun _ => ⟨c', by rw [LRUCache.step, hget]; rfl, ⟨hcoherent, ?_⟩, hcapacity⟩, fun hexp' => ?_⟩
        · have hle := length_refresh_le node
            ⟨node, List.mem_of_find?_eq_some hheld, rfl⟩
          rw [← length_nodes, hnodes, hcapacity]
          omega
        · obtain ⟨node', hnode, hexp'⟩ := hexp'
          obtain rfl := Option.some_inj.1 hnode
          exact absurd hexp' hexp
  | put key value now now' =>
    obtain ⟨c', hput, hcoherent, hnodes, -, hcapacity⟩ := h.coherent.put hcap key value now now'
    refine ⟨fun _ => ⟨c', hput, ⟨hcoherent, ?_⟩, hcapacity⟩, fun hexp => hexp.elim⟩
    have hsweep := length_sweep_le now c.nodes
    rw [← length_nodes, hnodes, hcapacity]
    exact length_putNodes_le hcap (by omega)

theorem run_eq_attempt (ops : List Op) (c : Cache) : run ops c = Lib.attempt step c ops := by
  induction ops using List.reverseRecOn with
  | nil => rfl
  | append_singleton ops op ih =>
    rw [Lib.attempt_snoc, ← ih, run, List.foldlM_append, run]
    simp

theorem splice_fields {c c' : Cache} (h : c.splice a = some c') :
    c'.ttl = c.ttl ∧ c'.capacity = c.capacity := by
  obtain ⟨node, -, rfl⟩ := Option.map_eq_some_iff.1 h
  exact ⟨rfl, rfl⟩

theorem step_fields {c c' : Cache} {op : Op} (h : step op c = some c') :
    c'.ttl = c.ttl ∧ c'.capacity = c.capacity := by
  cases op with
  | get key now now' =>
    obtain ⟨⟨r, c₁⟩, hget, rfl⟩ := Option.map_eq_some_iff.1 h
    simp only [Cache.get] at hget
    split at hget
    · cases hget
      exact ⟨rfl, rfl⟩
    · obtain ⟨node, -, hget⟩ := Option.bind_eq_some_iff.1 hget
      split_ifs at hget
      · obtain ⟨node', hderef, -⟩ := Option.bind_eq_some_iff.1 hget
        rw [deref_erase] at hderef
        cases hderef
      · obtain ⟨c₂, hsplice, hget⟩ := Option.bind_eq_some_iff.1 hget
        obtain ⟨node', -, hget⟩ := Option.bind_eq_some_iff.1 hget
        cases hget
        have hfields := splice_fields hsplice
        exact hfields
  | put key value now now' =>
    simp only [step, Cache.put] at h
    split at h
    · split_ifs at h
      · obtain ⟨c₁, hpop, h⟩ := Option.bind_eq_some_iff.1 h
        cases h
        obtain ⟨last, -, rfl⟩ := Option.map_eq_some_iff.1 hpop
        exact ⟨rfl, rfl⟩
      · cases h
        exact ⟨rfl, rfl⟩
    · obtain ⟨node, -, h⟩ := Option.bind_eq_some_iff.1 h
      have hfields := splice_fields h
      exact hfields

/-- The cache is in order after every call of a run if and only if no `get` of it sees its key
expire between its two readings of the clock. -/
theorem run_inOrder_iff {capacity : Int32} (hcap : 1 ≤ capacity.toInt) (ttl : ℤ) (ops : List Op) :
    (∀ k ≤ ops.length, ∃ c, run (ops.take k) (init capacity ttl) = some c ∧ InOrder c) ↔
      ∀ k (hk : k < ops.length), ∀ c ∈ run (ops.take k) (init capacity ttl), ¬c.Expires ops[k] := by
  have hinit : InOrder (init capacity ttl) :=
    ⟨coherent_init capacity ttl, by simpa [init] using le_trans (by decide) hcap⟩
  have hiff : Lib.Along step (init capacity ttl) InOrder ops ↔
      Lib.Meets step (init capacity ttl) (fun c op => ¬c.Expires op) ops := by
    apply Lib.along_iff (I := fun c => 1 ≤ c.capacity.toInt) hinit hcap
    · intro c op c' hc hstep
      rwa [(step_fields hstep).2]
    · intro c op hc h
      obtain ⟨hkeeps, hstops⟩ := h.step hc op
      refine ⟨?_, ?_⟩
      · rintro ⟨c', hstep, -⟩ hexp
        cases hstep.symm.trans (hstops hexp)
      · intro hexp
        obtain ⟨c', hstep, hc', -⟩ := hkeeps hexp
        exact ⟨c', hstep, hc'⟩
  simp only [run_eq_attempt]
  exact hiff

theorem run_inOrder_of_five :
    1 ≤ (2 : Int32).toInt ∧
    ∀ k ≤ 5, ∃ c, run ([.put 1 1 0 0, .put 1 5 2 3, .put 2 2 4 4, .put 3 3 5 6, .get 2 20 21].take k)
      (init 2 10) = some c ∧ InOrder c :=
  ⟨by decide, (run_inOrder_iff (by decide) 10
    [.put 1 1 0 0, .put 1 5 2 3, .put 2 2 4 4, .put 3 3 5 6, .get 2 20 21]).2 (by decide +kernel)⟩

/-- The node with the key 1 expires at 10, after the sweep at 9 and before the test of
`is_expired`; `get` then reads the key of the erased node. -/
theorem get_reads_erased_node :
    ¬∀ k ≤ 2, ∃ c, run ([.put 1 1 0 0, .get 1 9 10].take k) (init 2 10) = some c ∧ InOrder c := by
  intro h
  obtain ⟨c, hrun, -⟩ := h 2 (le_refl 2)
  have hnone : run [.put 1 1 0 0, .get 1 9 10] (init 2 10) = none := by
    rfl
  cases hnone.symm.trans hrun

end LRUCache

end LearnSpdk
