import LearnSpdk.Lib.Recency
import LearnSpdk.Proofs.LRUCache

/-! The cache against its history, when each call sees one value of the clock and the values
do not decrease: what is found is what was put last and is not too old; what was used
recently is found; and only the least recently used entry is discarded before its time. -/

namespace LearnSpdk

open Lib

namespace LRUCache

inductive Call where
  | get (key : ℤ)
  | put (key value : ℤ)

def Call.op (t : ℤ) : Call → Op
  | .get key => .get key t t
  | .put key value => .put key value t t

def latestPut (calls : List (ℤ × Call)) (k : ℤ) : Option (ℤ × ℤ) :=
  calls.reverse.findSome? fun
    | (t, .put key value) => if key = k then some (t, value) else none
    | (_, .get _) => none

def Cache.uses (t : ℤ) (c : Cache) : Call → List ℤ
  | .get key => if ((c.get key t t).bind Prod.fst).isSome then [key] else []
  | .put key _ => [key]

/-- The cache after the calls, with the keys put or hit by them, the latest first. -/
def history (c : Cache) : List (ℤ × Call) → Option (Cache × List ℤ)
  | calls => calls.foldlM (fun s call => (step (call.2.op call.1) s.1).map fun c' =>
      (c', s.1.uses call.1 call.2 ++ s.2)) (c, [])

theorem history_snoc (c : Cache) (calls : List (ℤ × Call)) (call : ℤ × Call) :
    history c (calls ++ [call]) = (history c calls).bind fun s =>
      (step (call.2.op call.1) s.1).map fun c' => (c', s.1.uses call.1 call.2 ++ s.2) := by
  rw [history, List.foldlM_append, history]
  simp

theorem latestPut_get (calls : List (ℤ × Call)) (t key k : ℤ) :
    latestPut (calls ++ [(t, .get key)]) k = latestPut calls k := by
  simp [latestPut]

theorem latestPut_put (calls : List (ℤ × Call)) (t key value k : ℤ) :
    latestPut (calls ++ [(t, .put key value)]) k =
      if k = key then some (t, value) else latestPut calls k := by
  by_cases hk : k = key
  · simp [latestPut, hk]
  · simp [latestPut, hk, Ne.symm hk]

/-! ### The list of nodes and the history -/

variable {capacity ttl t : ℤ} {calls : List (ℤ × Call)} {H : List ℤ} {L : List Node}

/-- The nodes `L` are what the history of `calls`, with the uses `H`, asks for. -/
structure Kept (capacity ttl : ℤ) (calls : List (ℤ × Call)) (H : List ℤ) (L : List Node) : Prop where
  recent : Recent H (L.map Node.key)
  size : (L.length : ℤ) ≤ capacity
  latest : ∀ n ∈ L, ∃ s, latestPut calls n.key = some (s, n.value) ∧ n.expireTime = s + ttl
  keeps : ∀ t, (∀ call ∈ calls, call.1 ≤ t) → ∀ k s v B, latestPut calls k = some (s, v) → t < s + ttl →
    Since H k B → (B.toFinset.card : ℤ) < capacity → ∃ n ∈ L, n.key = k

theorem sweep_sublist (t : ℤ) (L : List Node) : (sweep t L).Sublist L := List.filter_sublist

theorem Kept.mem_sweep (h : Kept capacity ttl calls H L) {n : Node} (hn : n ∈ L) {s v t' : ℤ}
    (hlatest : latestPut calls n.key = some (s, v)) (ht : t ≤ t') (hlive : t' < s + ttl) : n ∈ sweep t L := by
  obtain ⟨s', hs', hexp⟩ := h.latest n hn
  obtain ⟨rfl, -⟩ := Prod.mk.inj (Option.some_inj.1 (hlatest.symm.trans hs'))
  refine List.mem_filter.2 ⟨hn, ?_⟩
  rw [decide_eq_true_iff, hexp]
  exact lt_of_le_of_lt ht hlive

theorem recent_refresh {L : List Node} (node : Node) (h : Recent H (L.map Node.key)) :
    Recent (node.key :: H) ((refresh node L).map Node.key) := by
  rw [refresh, List.map_cons]
  have hsub : ((L.filter fun n => n.key ≠ node.key).map Node.key).Sublist (L.map Node.key) :=
    List.filter_sublist.map _
  refine (h.sublist hsub).use ?_
  intro hmem
  obtain ⟨n, hn, heq⟩ := List.mem_map.1 hmem
  simpa [heq] using (List.mem_filter.1 hn).2

theorem mem_refresh_of_ne {node n : Node} {L : List Node} (hn : n ∈ L) (hne : n.key ≠ node.key) :
    n ∈ refresh node L := by
  refine List.mem_cons_of_mem _ (List.mem_filter.2 ⟨hn, ?_⟩)
  simpa using hne

theorem card_le_card_cons (k : ℤ) (B : List ℤ) : B.toFinset.card ≤ (k :: B).toFinset.card := by
  refine Finset.card_le_card fun y hy => ?_
  rw [List.mem_toFinset] at hy ⊢
  exact List.mem_cons_of_mem _ hy

theorem Kept.miss (h : Kept capacity ttl calls H L) (t key : ℤ) :
    Kept capacity ttl (calls ++ [(t, .get key)]) H (sweep t L) := by
  have hlen := length_sweep_le t L
  have hsize := h.size
  refine ⟨h.recent.sublist ((sweep_sublist t L).map _), by omega, ?_, ?_⟩
  · intro n hn
    rw [latestPut_get]
    exact h.latest n ((sweep_sublist t L).subset hn)
  · intro t' ht' k s v B hlatest hlive hB hcard
    rw [latestPut_get] at hlatest
    obtain ⟨n, hn, rfl⟩ := h.keeps t' (fun call hcall => ht' call (List.mem_append_left _ hcall)) k s v B
      hlatest hlive hB hcard
    exact ⟨n, h.mem_sweep hn hlatest (ht' (t, .get key) (by simp)) hlive, rfl⟩

theorem Kept.hit {node : Node} (h : Kept capacity ttl calls H L) (hnode : node ∈ sweep t L) :
    Kept capacity ttl (calls ++ [(t, .get node.key)]) (node.key :: H) (refresh node (sweep t L)) := by
  have hmiss := h.miss t node.key
  have hlen := length_refresh_le node ⟨node, hnode, rfl⟩
  have hsize := hmiss.size
  refine ⟨recent_refresh node hmiss.recent, by omega, ?_, ?_⟩
  · intro n hn
    rcases List.mem_cons.1 hn with rfl | hn
    · exact hmiss.latest n hnode
    · exact hmiss.latest n (List.mem_filter.1 hn).1
  · intro t' ht' k s v B hlatest hlive hB hcard
    by_cases hk : k = node.key
    · exact ⟨node, List.mem_cons_self, hk.symm⟩
    · obtain ⟨B', rfl, hB'⟩ := hB.of_cons hk
      have hle := card_le_card_cons node.key B'
      obtain ⟨n, hn, rfl⟩ := hmiss.keeps t' ht' k s v B' hlatest hlive hB' (by omega)
      exact ⟨n, mem_refresh_of_ne hn hk, rfl⟩

theorem key_mem_refresh {node : Node} {L : List Node} {k : ℤ} (hk : k ∈ L.map Node.key) :
    k ∈ (refresh node L).map Node.key := by
  obtain ⟨n, hn, rfl⟩ := List.mem_map.1 hk
  by_cases hne : n.key = node.key
  · rw [hne]
    exact List.mem_cons_self
  · exact List.mem_map_of_mem (mem_refresh_of_ne hn hne)

/-- `put` brings a new key in for the last node, or leaves all the others. -/
theorem putNodes_cases (capacity : ℤ) (node : Node) (M : List Node) (hcap : 1 ≤ capacity) :
    (node.key ∉ M.map Node.key ∧ (M.length : ℤ) = capacity ∧
      ∃ M₀ last, M = M₀ ++ [last] ∧ putNodes capacity node M = refresh node M₀) ∨
    ¬(node.key ∉ M.map Node.key ∧ (M.length : ℤ) = capacity) ∧
      putNodes capacity node M = refresh node M := by
  have hiff : (M.find? fun n => n.key = node.key).isNone = true ↔ node.key ∉ M.map Node.key := by
    simp [Option.isNone_iff_eq_none, List.find?_eq_none]
  unfold putNodes
  split_ifs with hfull
  · have hne : M ≠ [] := by
      rintro rfl
      have hlen := hfull.2
      rw [List.length_nil] at hlen
      omega
    obtain ⟨M₀, last, rfl⟩ := (List.eq_nil_or_concat M).resolve_left hne
    rw [List.concat_eq_append] at *
    exact .inl ⟨hiff.1 hfull.1, hfull.2, M₀, last, rfl, by rw [List.dropLast_concat]⟩
  · exact .inr ⟨fun hnot => hfull ⟨hiff.2 hnot.1, hnot.2⟩, rfl⟩

theorem Kept.put (h : Kept capacity ttl calls H L) (hcap : 1 ≤ capacity) (t key value : ℤ) :
    Kept capacity ttl (calls ++ [(t, .put key value)]) (key :: H)
      (putNodes capacity ⟨key, value, t + ttl⟩ (sweep t L)) := by
  -- whether or not the last node goes, the rest is a sublist that the new node is put before
  have hput : ∃ M, M.Sublist (sweep t L) ∧
      putNodes capacity ⟨key, value, t + ttl⟩ (sweep t L) = refresh ⟨key, value, t + ttl⟩ M ∧
      ∀ k B, Since H k B → k ∈ (sweep t L).map Node.key → k ≠ key →
        ((key :: B).toFinset.card : ℤ) < capacity → k ∈ M.map Node.key := by
    rcases putNodes_cases capacity ⟨key, value, t + ttl⟩ (sweep t L) hcap with
      ⟨hnew, hlen, M₀, last, hM, hput⟩ | ⟨-, hput⟩
    · refine ⟨M₀, by rw [hM]; exact List.sublist_append_left _ _, hput, fun k B hB hk _ hcard => ?_⟩
      have hrecent := h.recent.sublist ((sweep_sublist t L).map Node.key)
      rw [hM, List.map_append, List.map_singleton] at hrecent hnew hk
      rcases List.mem_append.1 hk with hk | hk
      · exact hk
      · obtain rfl := List.mem_singleton.1 hk
        have hle : (M₀.map Node.key ++ [last.key]).length ≤ (key :: B).toFinset.card :=
          hrecent.length_le_card hB hnew
        rw [← List.map_singleton, ← List.map_append, ← hM, List.length_map] at hle
        omega
    · exact ⟨sweep t L, List.Sublist.refl _, hput, fun k B _ hk _ _ => hk⟩
  have hlen : ((sweep t L).length : ℤ) ≤ capacity := by
    have hle := length_sweep_le t L
    have hsize := h.size
    omega
  obtain ⟨M, hsub, hput, hlast⟩ := hput
  have hmem {n : Node} (hn : n ∈ M) : n ∈ L := (sweep_sublist t L).subset (hsub.subset hn)
  refine ⟨?_, length_putNodes_le hcap hlen, ?_, ?_⟩
  · rw [hput]
    exact recent_refresh ⟨key, value, t + ttl⟩ (h.recent.sublist ((hsub.trans (sweep_sublist t L)).map _))
  · intro n hn
    rw [hput] at hn
    rw [latestPut_put]
    rcases List.mem_cons.1 hn with rfl | hn
    · exact ⟨t, if_pos rfl, rfl⟩
    · obtain ⟨hn, hne⟩ := List.mem_filter.1 hn
      rw [if_neg (by simpa using hne)]
      exact h.latest n (hmem hn)
  · intro t' ht' k s v B hlatest hlive hB hcard
    rw [latestPut_put] at hlatest
    rw [hput]
    suffices hk : k ∈ (refresh ⟨key, value, t + ttl⟩ M).map Node.key by
      obtain ⟨n, hn, hk⟩ := List.mem_map.1 hk
      exact ⟨n, hn, hk⟩
    by_cases hk : k = key
    · subst hk
      exact List.mem_cons_self
    · rw [if_neg hk] at hlatest
      obtain ⟨B', rfl, hB'⟩ := hB.of_cons hk
      have hle := card_le_card_cons key B'
      obtain ⟨n, hn, rfl⟩ := h.keeps t' (fun call hcall => ht' call (List.mem_append_left _ hcall)) k s v B'
        hlatest hlive hB' (by omega)
      have hn' := h.mem_sweep hn hlatest (ht' (t, .put key value) (by simp)) hlive
      exact key_mem_refresh (hlast _ B' hB' (List.mem_map_of_mem hn') hk hcard)

/-! ### Runs -/

theorem kept_nil (hcap : 1 ≤ capacity) : Kept capacity ttl [] [] [] where
  recent := recent_nil _
  size := by simpa using le_trans (by decide) hcap
  latest := by simp
  keeps := by
    intro t _ k s v B hlatest
    simp [latestPut] at hlatest

/-- With one reading of the clock nothing expires during a `get`. -/
theorem Coherent.get_at {c : Cache} (h : Coherent c) (key t : ℤ) :
    ∃ c', c.get key t t = some ((held key t c.nodes).map Node.value, c') ∧ Coherent c' ∧
      c'.nodes = (held key t c.nodes).elim (sweep t c.nodes) (fun node => refresh node (sweep t c.nodes)) ∧
      c'.ttl = c.ttl ∧ c'.capacity = c.capacity := by
  have hget := h.get key t t
  cases hheld : held key t c.nodes with
  | none =>
    rw [hheld] at hget
    exact hget
  | some node =>
    have hlive := (List.mem_filter.1 (List.mem_of_find?_eq_some hheld)).2
    rw [decide_eq_true_iff] at hlive
    simp only [hheld, if_neg (not_le.2 hlive)] at hget
    exact hget

theorem held_eq_some {key : ℤ} {node : Node} (h : held key t L = some node) :
    node ∈ sweep t L ∧ node.key = key :=
  ⟨List.mem_of_find?_eq_some h, by simpa using List.find?_some h⟩

theorem exists_held {key : ℤ} (h : ∃ n ∈ sweep t L, n.key = key) : ∃ node, held key t L = some node := by
  obtain ⟨n, hn, hk⟩ := h
  cases hheld : held key t L with
  | none =>
    have hnone := List.find?_eq_none.1 hheld n hn
    simp [hk] at hnone
  | some node => exact ⟨node, rfl⟩

theorem history_kept {capacity : Int32} (hcap : 1 ≤ capacity.toInt) (ttl : ℤ) (calls : List (ℤ × Call)) :
    ∃ c H, history (init capacity ttl) calls = some (c, H) ∧ Coherent c ∧ c.ttl = ttl ∧
      c.capacity = capacity ∧ Kept capacity.toInt ttl calls H c.nodes := by
  induction calls using List.reverseRecOn with
  | nil => exact ⟨_, [], rfl, coherent_init capacity ttl, rfl, rfl, kept_nil hcap⟩
  | append_singleton calls call ih =>
    obtain ⟨c, H, hhistory, hc, httl, hcapacity, hkept⟩ := ih
    rw [history_snoc, hhistory, Option.bind_some]
    obtain ⟨t, call⟩ := call
    cases call with
    | get key =>
      obtain ⟨c', hget, hc', hnodes, httl', hcapacity'⟩ := hc.get_at key t
      have hstep : step (.get key t t) c = some c' := by
        rw [step, hget]
        rfl
      refine ⟨c', _, by rw [Call.op, hstep]; rfl, hc', httl'.trans httl, hcapacity'.trans hcapacity, ?_⟩
      rw [hnodes, Cache.uses, hget]
      cases hheld : held key t c.nodes with
      | none => exact hkept.miss t key
      | some node =>
        obtain ⟨hmem, rfl⟩ := held_eq_some hheld
        exact hkept.hit hmem
    | put key value =>
      obtain ⟨c', hput, hc', hnodes, httl', hcapacity'⟩ := hc.put (hcapacity ▸ hcap) key value t t
      have hstep : step (.put key value t t) c = some c' := hput
      refine ⟨c', _, by rw [Call.op, hstep]; rfl, hc', httl'.trans httl, hcapacity'.trans hcapacity, ?_⟩
      rw [hnodes, httl, hcapacity]
      exact hkept.put hcap t key value

def Cache.keys (c : Cache) : List ℤ := c.nodes.map Node.key

def Cache.keysAt (t : ℤ) (c : Cache) : List ℤ := (sweep t c.nodes).map Node.key

/-- What a `put` of `key` discards before its time: nothing, unless the key is new and the
cache is full of entries that have not expired, and then the least recently used of them. -/
structure Discards (capacity : ℤ) (H : List ℤ) (key : ℤ) (held after : List ℤ) : Prop where
  only : ∀ x ∈ held, x ∉ after → key ∉ held ∧ (held.length : ℤ) = capacity ∧
    ∀ y ∈ held, y ≠ x → y ∈ after ∧ Later H y x
  full : key ∉ held → (held.length : ℤ) = capacity → ∃ x ∈ held, x ∉ after

theorem Kept.discards (h : Kept capacity ttl calls H L) (hcap : 1 ≤ capacity) (t : ℤ) (node : Node) :
    Discards capacity H node.key ((sweep t L).map Node.key)
      ((putNodes capacity node (sweep t L)).map Node.key) := by
  have hrecent := h.recent.sublist ((sweep_sublist t L).map Node.key)
  rcases putNodes_cases capacity node (sweep t L) hcap with ⟨hnew, hlen, M, last, hM, hput⟩ | ⟨hnot, hput⟩
  · rw [hput]
    have hlen' : (((sweep t L).map Node.key).length : ℤ) = capacity := by rwa [List.length_map]
    have hlater : ∀ y ∈ M.map Node.key, Later H y last.key := by
      have hpair := hrecent.later
      rw [hM, List.map_append, List.map_singleton] at hpair
      exact fun y hy => (List.pairwise_append.1 hpair).2.2 y hy _ (List.mem_singleton_self _)
    have hmem (x : ℤ) : x ∈ (sweep t L).map Node.key ↔ x ∈ M.map Node.key ∨ x = last.key := by
      rw [hM, List.map_append, List.map_singleton, List.mem_append, List.mem_singleton]
    refine ⟨?_, ?_⟩
    · intro x hx hout
      have hxlast : x = last.key := by
        rcases (hmem x).1 hx with hx | hx
        · exact absurd (key_mem_refresh hx) hout
        · exact hx
      refine ⟨hnew, hlen', fun y hy hne => ?_⟩
      have hy' : y ∈ M.map Node.key := by
        rcases (hmem y).1 hy with hy | hy
        · exact hy
        · exact absurd (hy.trans hxlast.symm) hne
      exact ⟨key_mem_refresh hy', hxlast ▸ hlater y hy'⟩
    · intro _ _
      refine ⟨last.key, (hmem _).2 (.inr rfl), fun hin => ?_⟩
      rcases List.mem_cons.1 hin with heq | hin
      · exact hnew ((hmem _).2 (.inr heq.symm))
      · have hin' : last.key ∈ M.map Node.key := (List.filter_sublist.map Node.key).subset hin
        have hnodup := hrecent.nodup
        rw [hM, List.map_append, List.map_singleton] at hnodup
        exact (List.nodup_append.1 hnodup).2.2 _ hin' _ (List.mem_singleton_self _) rfl
  · rw [hput]
    refine ⟨?_, ?_⟩
    · intro x hx hout
      exact absurd (key_mem_refresh hx) hout
    · intro hnew hlen
      rw [List.length_map] at hlen
      exact absurd ⟨hnew, hlen⟩ hnot

/-- After any calls, at a time `t` not before theirs: a `get` finds the latest value put, if it
is not too old; it finds it if fewer than `capacity` other keys were used since; and a
`put` discards at most the least recently used entry before its time. -/
theorem history_lru {capacity : Int32} (hcap : 1 ≤ capacity.toInt) (ttl : ℤ) (calls : List (ℤ × Call))
    (t : ℤ) (ht : ∀ call ∈ calls, call.1 ≤ t) :
    ∃ c H, history (init capacity ttl) calls = some (c, H) ∧
      (∀ k v c', c.get k t t = some (some v, c') → ∃ s, latestPut calls k = some (s, v) ∧ t < s + ttl) ∧
      (∀ k s v B, latestPut calls k = some (s, v) → t < s + ttl → Since H k B →
        (B.toFinset.card : ℤ) < capacity.toInt → ∃ c', c.get k t t = some (some v, c')) ∧
      ∀ k v, ∃ c', c.put k v t t = some c' ∧
        Discards capacity.toInt H k (c.keysAt t) c'.keys := by
  obtain ⟨c, H, hhistory, hc, httl, hcapacity, hkept⟩ := history_kept hcap ttl calls
  refine ⟨c, H, hhistory, ?_, ?_, ?_⟩
  · intro k v c' hget
    obtain ⟨c₁, hget₁, -⟩ := hc.get_at k t
    have hvalue : (held k t c.nodes).map Node.value = some v :=
      (Prod.mk.inj (Option.some_inj.1 (hget₁.symm.trans hget))).1
    obtain ⟨node, hheld, rfl⟩ := Option.map_eq_some_iff.1 hvalue
    obtain ⟨hmem, rfl⟩ := held_eq_some hheld
    obtain ⟨hnode, hlive⟩ := List.mem_filter.1 hmem
    obtain ⟨s, hlatest, hexp⟩ := hkept.latest node hnode
    rw [decide_eq_true_iff, hexp] at hlive
    exact ⟨s, hlatest, hlive⟩
  · intro k s v B hlatest hlive hB hcard
    obtain ⟨n, hn, rfl⟩ := hkept.keeps t ht k s v B hlatest hlive hB hcard
    obtain ⟨node, hheld⟩ := exists_held ⟨n, hkept.mem_sweep hn hlatest (le_refl t) hlive, rfl⟩
    obtain ⟨hmem, hk⟩ := held_eq_some hheld
    obtain ⟨s', hlatest', -⟩ := hkept.latest node (List.mem_filter.1 hmem).1
    rw [hk, hlatest] at hlatest'
    obtain ⟨-, rfl⟩ := Prod.mk.inj (Option.some_inj.1 hlatest')
    obtain ⟨c', hget, -⟩ := hc.get_at n.key t
    rw [hheld] at hget
    exact ⟨c', hget⟩
  · intro k v
    obtain ⟨c', hput, -, hnodes, -⟩ := hc.put (hcapacity ▸ hcap) k v t t
    refine ⟨c', hput, ?_⟩
    rw [Cache.keysAt, Cache.keys, hnodes, hcapacity]
    exact hkept.discards hcap t ⟨k, v, t + c.ttl⟩

/-- The calls of `main`, up to the `put` that evicts the key 2. -/
theorem history_lru_of_main :
    ∃ c H, history (init 2 2) [(0, .put 1 1), (0, .put 2 2), (1, .get 1)] = some (c, H) ∧
      ∀ k v, ∃ c', c.put k v 1 1 = some c' ∧ Discards 2 H k (c.keysAt 1) c'.keys := by
  obtain ⟨c, H, hhistory, -, -, hput⟩ := history_lru (show 1 ≤ (2 : Int32).toInt by decide) 2
    [(0, .put 1 1), (0, .put 2 2), (1, .get 1)] 1 (by simp)
  exact ⟨c, H, hhistory, hput⟩

end LRUCache

end LearnSpdk
