import LearnSpdk.Lib.Chain
import LearnSpdk.Spec.Slab

/-! The blocks of a slab: each is free or held, never both. The free ones are threaded by the
links inside them, which the users of the other blocks cannot reach. -/

namespace LearnSpdk

open Lib

namespace SimpleSlab

variable {bs n a b c : ℕ} {page : Page} {s : State} {free : List ℕ}

/-- The `n` blocks from `a` on. -/
def blocks (bs n a : ℕ) : List ℕ := (List.range n).map fun i => a + i * bs

theorem blocks_succ : blocks bs (n + 1) a = a :: blocks bs n (a + bs) := by
  simp only [blocks, List.range_succ_eq_map, List.map_cons, List.map_map, Nat.zero_mul, Nat.add_zero]
  congr 2
  funext i
  simp only [Function.comp_apply, Nat.succ_mul]
  omega

theorem mem_blocks : b ∈ blocks bs n a ↔ ∃ i < n, b = a + i * bs := by
  simp only [blocks, List.mem_map, List.mem_range, eq_comm]

theorem length_blocks : (blocks bs n a).length = n := by simp [blocks]

theorem nodup_blocks (hbs : 0 < bs) : (blocks bs n a).Nodup := by
  apply List.Nodup.map _ List.nodup_range
  intro i j hij
  exact Nat.eq_of_mul_eq_mul_right hbs (Nat.add_left_cancel hij)

theorem blocks_disjoint (hb : b ∈ blocks bs n a) (hc : c ∈ blocks bs n a) (hne : b ≠ c) :
    b + bs ≤ c ∨ c + bs ≤ b := by
  obtain ⟨i, -, rfl⟩ := mem_blocks.1 hb
  obtain ⟨j, -, rfl⟩ := mem_blocks.1 hc
  rcases Nat.lt_trichotomy i j with hij | rfl | hij
  · have := Nat.mul_le_mul_right bs hij
    rw [Nat.succ_mul] at this
    omega
  · exact absurd rfl hne
  · have := Nat.mul_le_mul_right bs hij
    rw [Nat.succ_mul] at this
    omega

theorem add_le_of_mem_blocks (hb : b ∈ blocks bs (KV_PAGE_SIZE / bs) page.addr) :
    page.addr ≤ b ∧ b + bs ≤ page.addr + KV_PAGE_SIZE := by
  obtain ⟨i, hi, rfl⟩ := mem_blocks.1 hb
  have hle := Nat.mul_le_mul_right bs hi
  have hpage := Nat.div_mul_le_self KV_PAGE_SIZE bs
  rw [Nat.succ_mul] at hle
  omega

/-- The links a free list goes through. -/
def next (m : Memory) (b : ℕ) : ℕ := m.load b PTR_SIZE

theorem linkBlocks_fst (m : Memory) : (linkBlocks bs n a m).1 = a + n * bs := by
  induction n generalizing a m with
  | zero => simp [linkBlocks]
  | succ n ih => rw [linkBlocks, ih, Nat.succ_mul]; omega

theorem linkBlocks_below (m : Memory) (hc : c < a) : (linkBlocks bs n a m).2 c = m c := by
  induction n generalizing a m with
  | zero => rfl
  | succ n ih =>
    rw [linkBlocks, ih _ (by omega)]
    exact Memory.store_outside _ _ (.inl hc)

/-- The loop of `init_slab` threads the blocks in order. -/
theorem linkBlocks_leads (hbs : PTR_SIZE ≤ bs) (m : Memory) (ha : a + n * bs ≤ 256 ^ PTR_SIZE) :
    Leads (next (linkBlocks bs n a m).2) a (blocks bs n a) := by
  induction n generalizing a m with
  | zero => trivial
  | succ n ih =>
    rw [blocks_succ]
    refine ⟨rfl, ?_⟩
    have hlink : next (linkBlocks bs (n + 1) a m).2 a = (a + bs) % 256 ^ PTR_SIZE := by
      rw [next, ← Memory.load_store m a PTR_SIZE (a + bs)]
      apply Memory.load_congr
      intro c _ hc
      rw [linkBlocks]
      exact linkBlocks_below _ (by omega)
    rw [Nat.succ_mul] at ha
    cases n with
    | zero => trivial
    | succ n =>
      rw [hlink, Nat.mod_eq_of_lt (by rw [Nat.succ_mul] at ha; simp only [PTR_SIZE] at *; omega)]
      exact ih _ (by omega)

/-- The free blocks are threaded and counted, and with the held ones they are all blocks. -/
structure Inv (bs : ℕ) (page : Page) (s : State) (free : List ℕ) : Prop where
  blockSize : s.slab.blockSize = bs
  mem : s.slab.mem = page.addr
  leads : Leads (next s.memory) s.slab.firstFree free
  count : s.slab.freeCount = free.length
  perm : (free ++ s.held).Perm (blocks bs (KV_PAGE_SIZE / bs) page.addr)

namespace Inv

theorem nodup (h : Inv bs page s free) (hbs : PTR_SIZE ≤ bs) : (free ++ s.held).Nodup :=
  h.perm.nodup_iff.2 (nodup_blocks (Nat.lt_of_lt_of_le (by decide) hbs))

theorem length_add (h : Inv bs page s free) : free.length + s.held.length = KV_PAGE_SIZE / bs := by
  rw [← List.length_append, h.perm.length_eq, length_blocks]

theorem ne_null (h : Inv bs page s free) (hb : b ∈ free ++ s.held) : b ≠ 0 := by
  have := (add_le_of_mem_blocks (h.perm.mem_iff.1 hb)).1
  have := page.addr_ne_null
  omega

theorem disjoint (h : Inv bs page s free) (hbs : PTR_SIZE ≤ bs) (hb : b ∈ s.held) (hc : c ∈ free) :
    b + bs ≤ c ∨ c + bs ≤ b := by
  apply blocks_disjoint (h.perm.mem_iff.1 (by simp [hb])) (h.perm.mem_iff.1 (by simp [hc]))
  rintro rfl
  exact (List.nodup_append.1 (h.nodup hbs)).2.2 b hc b hb rfl

theorem leads_of_held (h : Inv bs page s free) (hbs : PTR_SIZE ≤ bs) (hb : b ∈ s.held) {m : Memory}
    (hm : ∀ c, c < b ∨ b + bs ≤ c → m c = s.memory c) : Leads (next m) s.slab.firstFree free := by
  apply h.leads.congr
  intro c hc
  apply Memory.load_congr
  intro d hd hd'
  have := h.disjoint hbs hb hc
  exact hm d (by omega)

theorem alloc (h : Inv bs page s free) : ∃ free', Inv bs page (step .alloc s) free' := by
  cases free with
  | nil =>
    have hcount : s.slab.freeCount = 0 := h.count
    refine ⟨[], ?_⟩
    simpa [step, allocSlab, hcount] using h
  | cons b free =>
    have hcount : s.slab.freeCount ≠ 0 := by simp [h.count]
    have hfirst : s.slab.firstFree = b := h.leads.1
    have hb : b ≠ 0 := h.ne_null (by simp)
    refine ⟨free, ?_⟩
    simp only [step, allocSlab, hcount, if_false, hfirst, hb]
    exact {
      blockSize := h.blockSize
      mem := h.mem
      leads := h.leads.2
      count := by simp [h.count]
      perm := List.perm_middle.trans h.perm }

theorem release (h : Inv bs page s free) (hbs : PTR_SIZE ≤ bs) (ptr : ℕ) :
    ∃ free', Inv bs page (step (.free ptr) s) free' := by
  by_cases hp : ptr ∈ s.held
  · refine ⟨ptr :: free, ?_⟩
    simp only [step, freeSlab, hp, if_true]
    have hrest : Leads (next (s.memory.store ptr PTR_SIZE s.slab.firstFree)) s.slab.firstFree free := by
      apply h.leads_of_held hbs hp
      intro c hc
      exact Memory.store_outside _ _ (by omega)
    exact {
      blockSize := h.blockSize
      mem := h.mem
      leads := by
        refine ⟨rfl, ?_⟩
        rw [next, Memory.load_store]
        cases free with
        | nil => trivial
        | cons b free =>
          have hb := (add_le_of_mem_blocks (h.perm.mem_iff.1 (by simp : b ∈ b :: free ++ s.held))).2
          have hpage := page.addr_le
          rwa [Nat.mod_eq_of_lt]
          rw [h.leads.1]
          simp only [PTR_SIZE] at *
          omega
      count := by simp [h.count]
      perm := by
        have herase := (List.perm_cons_erase hp).symm
        exact List.perm_middle.symm.trans ((herase.append_left free).trans h.perm) }
  · exact ⟨free, by simpa [step, hp] using h⟩

theorem write (h : Inv bs page s free) (hbs : PTR_SIZE ≤ bs) (ptr offset : ℕ) (byte : UInt8) :
    ∃ free', Inv bs page (step (.write ptr offset byte) s) free' := by
  refine ⟨free, ?_⟩
  by_cases hp : ptr ∈ s.held ∧ offset < s.slab.blockSize
  · simp only [step, hp, and_self, if_true]
    have hoff := h.blockSize ▸ hp.2
    refine { h with leads := h.leads_of_held hbs hp.1 fun c hc => ?_ }
    exact Memory.setByte_of_ne _ _ (by omega)
  · simpa only [step, hp, if_false] using h

theorem step (h : Inv bs page s free) (hbs : PTR_SIZE ≤ bs) (act : Action) :
    ∃ free', Inv bs page (step act s) free' := by
  cases act with
  | alloc => exact h.alloc
  | free ptr => exact h.release hbs ptr
  | write ptr offset byte => exact h.write hbs ptr offset byte

theorem allocSlab_null (h : Inv bs page s free) :
    (allocSlab s.slab s.memory).1 = 0 ↔ s.held.length = KV_PAGE_SIZE / bs := by
  have hlen := h.length_add
  cases free with
  | nil =>
    have hcount : s.slab.freeCount = 0 := h.count
    simpa [allocSlab, hcount] using hlen
  | cons b free =>
    have hcount : s.slab.freeCount ≠ 0 := by simp [h.count]
    have hfirst : s.slab.firstFree ≠ 0 := by
      rw [h.leads.1]
      exact h.ne_null (by simp)
    simp only [allocSlab, hcount, if_false, hfirst, false_iff]
    rw [List.length_cons] at hlen
    omega

end Inv

theorem initial_inv (s : Slab) (page : Page) (m : Memory) (hbs : PTR_SIZE ≤ bs) :
    Inv bs page (initial s bs page m) (blocks bs (KV_PAGE_SIZE / bs) page.addr) where
  blockSize := rfl
  mem := rfl
  leads := by
    have hpage := Nat.div_mul_le_self KV_PAGE_SIZE bs
    have haddr := page.addr_le
    have hlinks : Leads _ page.addr (blocks bs (KV_PAGE_SIZE / bs) page.addr) :=
      linkBlocks_leads hbs m (by omega)
    apply hlinks.congr
    intro b hb
    obtain ⟨i, hi, rfl⟩ := mem_blocks.1 hb
    have hle := Nat.mul_le_mul_right bs hi
    rw [Nat.succ_mul] at hle
    -- the last store is made behind the last block
    apply Memory.load_store_of_disjoint
    rw [linkBlocks_fst]
    dsimp only
    omega
  count := length_blocks.symm
  perm := by simp [initial, initSlab]

theorem run_inv (s : Slab) (page : Page) (m : Memory) (hbs : PTR_SIZE ≤ bs) (acts : List Action) :
    ∃ free, Inv bs page (run s bs page m acts) free := by
  apply sched_induct (I := fun s => ∃ free, Inv bs page s free)
  · exact ⟨_, initial_inv s page m hbs⟩
  · rintro s act ⟨free, h⟩
    exact h.step hbs act

/-- The held blocks are distinct blocks of the page, none is lost, and `alloc_slab` returns
`NULL` only if all are held. -/
theorem run_exclusive (s : Slab) (page : Page) (m : Memory) (hbs : PTR_SIZE ≤ bs) (acts : List Action) :
    (run s bs page m acts).slab.mem = page.addr ∧
    (run s bs page m acts).held.Nodup ∧
    (∀ b ∈ (run s bs page m acts).held, ∃ i < KV_PAGE_SIZE / bs,
      b = (run s bs page m acts).slab.mem + i * bs) ∧
    (run s bs page m acts).slab.freeCount + (run s bs page m acts).held.length = KV_PAGE_SIZE / bs ∧
    ((allocSlab (run s bs page m acts).slab (run s bs page m acts).memory).1 = 0 ↔
      (run s bs page m acts).held.length = KV_PAGE_SIZE / bs) := by
  obtain ⟨free, h⟩ := run_inv s page m hbs acts
  refine ⟨h.mem, (List.nodup_append.1 (h.nodup hbs)).2.1, ?_, ?_, h.allocSlab_null⟩
  · intro b hb
    rw [h.mem]
    exact mem_blocks.1 (h.perm.mem_iff.1 (by simp [hb]))
  · rw [h.count]
    exact h.length_add

/-- The calls of the test in `simple_slab.c`, on a page at `0x1000`: four blocks, the second
one given back and taken again, then the fourth. -/
theorem run_exclusive_of_sixteen :
    (run ⟨0, 0, 0, 0⟩ 16 ⟨0x1000, by decide, by decide⟩ (fun _ => 0)
      [.alloc, .alloc, .alloc, .alloc, .free 0x1010, .alloc, .free 0x1030, .alloc]).slab.freeCount +
    (run ⟨0, 0, 0, 0⟩ 16 ⟨0x1000, by decide, by decide⟩ (fun _ => 0)
      [.alloc, .alloc, .alloc, .alloc, .free 0x1010, .alloc, .free 0x1030, .alloc]).held.length = 256 :=
  (run_exclusive _ _ _ (by decide) _).2.2.2.1

/-! ### The stores of `init_slab` -/

theorem initSlab_memory (s : Slab) (bs : ℕ) (page : Option Page) (m : Memory) :
    (initSlab s bs page m).2.2 = (initStores bs page).foldl (fun m st => m.store st.1 PTR_SIZE st.2) m := by
  have hloop (n a : ℕ) (m : Memory) :
      (linkBlocks bs n a m).2.store (linkBlocks bs n a m).1 PTR_SIZE 0 =
        (linkStores bs n a).foldl (fun m st => m.store st.1 PTR_SIZE st.2) m := by
    induction n generalizing a m with
    | zero => rfl
    | succ n ih => exact ih _ _
  cases page with
  | none => rfl
  | some page => exact hloop _ _ m

/-- The loop stores at each block, and the last store is made behind the last block. -/
theorem exists_mem_linkStores : (∃ v, (c, v) ∈ linkStores bs n a) ↔ ∃ i ≤ n, c = a + i * bs := by
  induction n generalizing a with
  | zero => simp [linkStores]
  | succ n ih =>
    have hshift (i : ℕ) : a + (i + 1) * bs = a + bs + i * bs := by
      rw [Nat.succ_mul]
      omega
    simp only [linkStores, List.mem_cons, Prod.mk.injEq, exists_or, ih]
    refine ⟨?_, ?_⟩
    · rintro (⟨v, rfl, -⟩ | ⟨i, hi, rfl⟩)
      · exact ⟨0, Nat.zero_le _, by simp⟩
      · exact ⟨i + 1, by omega, (hshift i).symm⟩
    · rintro ⟨i, hi, rfl⟩
      cases i with
      | zero => exact .inl ⟨a + bs, by simp, rfl⟩
      | succ i => exact .inr ⟨i, by omega, hshift i⟩

def StoresInside (bs : ℕ) (page : Option Page) : Prop :=
  ∀ st ∈ initStores bs page, ∃ q, page = some q ∧ q.addr ≤ st.1 ∧ st.1 + PTR_SIZE ≤ q.addr + KV_PAGE_SIZE

/-- If `init_slab` returns 0, its links lead from `first_free` through the blocks in order. -/
def LinksInOrder (s : Slab) (bs : ℕ) (page : Option Page) (m : Memory) : Prop :=
  (initSlab s bs page m).1 = 0 →
    Leads (next (initSlab s bs page m).2.2) (initSlab s bs page m).2.1.firstFree
      (blocks bs (KV_PAGE_SIZE / bs) (initSlab s bs page m).2.1.mem)

theorem storesInside_iff (page : Page) : StoresInside bs (some page) ↔ PTR_SIZE ≤ KV_PAGE_SIZE % bs := by
  have hdiv := Nat.div_add_mod' KV_PAGE_SIZE bs
  refine ⟨?_, ?_⟩
  · intro h
    obtain ⟨v, hv⟩ := exists_mem_linkStores.2 ⟨KV_PAGE_SIZE / bs, le_rfl, rfl⟩
    obtain ⟨q, hq, -, hle⟩ := h _ hv
    obtain rfl := Option.some.inj hq
    dsimp only at hle
    omega
  · rintro h ⟨c, v⟩ hst
    obtain ⟨i, hi, rfl⟩ := exists_mem_linkStores.1 ⟨v, hst⟩
    have hmul := Nat.mul_le_mul_right bs hi
    refine ⟨page, rfl, ?_, ?_⟩
    · exact Nat.le_add_right _ _
    · dsimp only
      omega

theorem linksInOrder (s : Slab) (page : Page) (m : Memory) (hbs : PTR_SIZE ≤ bs) :
    LinksInOrder s bs (some page) m :=
  fun _ => (initial_inv s page m hbs).leads

/-- `init_slab` stores in the page only, and threads the blocks in order, if and only if
`malloc` failed or a pointer fits between the last block and the end of the page. -/
theorem initSlab_safe_iff (s : Slab) (page : Option Page) (m : Memory) (hbs : 1 ≤ bs) :
    StoresInside bs page ∧ LinksInOrder s bs page m ↔ page = none ∨ PTR_SIZE ≤ KV_PAGE_SIZE % bs := by
  cases page with
  | none => simp [StoresInside, initStores, LinksInOrder, initSlab]
  | some page =>
    have hlt := Nat.mod_lt KV_PAGE_SIZE hbs
    rw [storesInside_iff]
    refine ⟨?_, ?_⟩
    · rintro ⟨h, -⟩
      exact .inr h
    · rintro (h | h)
      · cases h
      · exact ⟨h, linksInOrder s page m (by omega)⟩

/-- Blocks of 24 bytes leave 16 bytes of the page. -/
theorem initSlab_safe_of_twenty_four :
    StoresInside 24 (some ⟨0x1000, by decide, by decide⟩) ∧
      LinksInOrder ⟨0, 0, 0, 0⟩ 24 (some ⟨0x1000, by decide, by decide⟩) (fun _ => 0) :=
  (initSlab_safe_iff ⟨0, 0, 0, 0⟩ (some ⟨0x1000, by decide, by decide⟩) (fun _ => 0) (by decide)).2
    (.inr (by decide))

/-- Blocks of 16 bytes, as in the test of `simple_slab.c`, fill the page, and the last store is
made at its end. -/
theorem initSlab_stores_outside :
    ¬(StoresInside 16 (some ⟨0x1000, by decide, by decide⟩) ∧
      LinksInOrder ⟨0, 0, 0, 0⟩ 16 (some ⟨0x1000, by decide, by decide⟩) (fun _ => 0)) := by
  rintro ⟨h, -⟩
  exact absurd ((storesInside_iff _).1 h) (by decide)

end SimpleSlab

end LearnSpdk
