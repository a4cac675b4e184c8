import LearnSpdk.Lib.RedBlackLinks
import LearnSpdk.Lib.TreeDepth
import LearnSpdk.Proofs.RedBlackFixup

/-! Every operation of `RedBlackTree` on a linked red-black search tree ends, and
leaves a linked red-black search tree: the one that the abstract operation gives. -/

namespace LearnSpdk.RedBlackTree

open Lib ColorTree Trail

variable {K V : Type} {L : Links K V} (exit : Links K V → Option (Links K V))

/-- The state `t` stores the tree `T`. -/
structure Stores (t : RedBlackTree K V) [LinearOrder K] (T : ColorTree (Item K V)) : Prop where
  rep : Rep t.links none [] T
  redBlack : IsRedBlack T
  increasing : Increasing Item.key T.toList
  count : t.count = T.toList.length
  fresh : ∀ q ∈ T.addrs, q < t.next

section Search
variable [LinearOrder K]

theorem Stores.size_le {t : RedBlackTree K V} {T : ColorTree (Item K V)} (h : Stores t T) :
    T.toList.length ≤ t.next := by
  have hn : T.addrs.Nodup := (List.nodup_append'.1 h.rep.nodup).1
  simpa [addrs] using length_le_of_lt hn h.fresh

theorem findPlace_spec (k : K) {p : Trail (Item K V)} {s : ColorTree (Item K V)} {n : ℕ}
    (h : Rep L none p s) (hn : s.height < n) :
    findPlace k n (s.link none) (top p) L =
      some ((locate Item.key k p s).2.link none, top (locate Item.key k p s).1) := by
  fun_induction locate Item.key k p s generalizing n with
  | case1 p =>
    obtain ⟨n, rfl⟩ : ∃ m, n = m + 1 := ⟨n - 1, by omega⟩
    rfl
  | case2 p c l a r hk ih =>
    rw [ColorTree.height] at hn
    obtain ⟨n, rfl⟩ : ∃ m, n = m + 1 := ⟨n - 1, by omega⟩
    obtain ⟨-, hdown, -⟩ := h.node
    rw [link_node, findPlace, h.below.1]
    simp only [Option.bind_eq_bind, Option.bind_some, Item.cell_key, if_pos hk]
    exact ih hdown (by omega)
  | case3 p c l a r hk hk' ih =>
    rw [ColorTree.height] at hn
    obtain ⟨n, rfl⟩ : ∃ m, n = m + 1 := ⟨n - 1, by omega⟩
    obtain ⟨-, -, hdown⟩ := h.node
    rw [link_node, findPlace, h.below.1]
    simp only [Option.bind_eq_bind, Option.bind_some, Item.cell_key, if_neg hk, gt_iff_lt,
      if_pos hk']
    exact ih hdown (by omega)
  | case4 p c l a r hk hk' =>
    obtain ⟨n, rfl⟩ : ∃ m, n = m + 1 := ⟨n - 1, by omega⟩
    rw [link_node, findPlace, h.below.1]
    simp only [Option.bind_eq_bind, Option.bind_some, Item.cell_key, if_neg hk, gt_iff_lt,
      if_neg hk']
    rfl

/-- The search of `find` is that of `insert` without the parent. -/
theorem findNode_eq (k : K) (n : ℕ) (o q : Option Ptr) (L : Links K V) :
    findNode k n o L = (findPlace k n o q L).map Prod.fst := by
  induction n generalizing o q with
  | zero => rfl
  | succ n ih =>
    cases o with
    | none => rfl
    | some current =>
      rw [findNode, findPlace]
      cases L.heap current with
      | none => rfl
      | some c =>
        simp only [Option.bind_eq_bind, Option.bind_some]
        split_ifs
        · exact ih c.left (some current)
        · exact ih c.right (some current)
        · rfl

theorem findNode_spec (k : K) {p : Trail (Item K V)} {s : ColorTree (Item K V)} {n : ℕ}
    (h : Rep L none p s) (hn : s.height < n) :
    findNode k n (s.link none) L = some ((locate Item.key k p s).2.link none) := by
  rw [findNode_eq k n _ (top p), findPlace_spec k h hn]
  rfl

end Search

theorem minimum_spec {p : Trail (Item K V)} {s : ColorTree (Item K V)} {n : ℕ}
    (h : Rep L none p s) (hs : s ≠ .nil) (hn : s.height < n) :
    minimum n (s.link none) L = some ((leftmost p s).2.link none) := by
  fun_induction leftmost p s generalizing n with
  | case1 p => exact absurd rfl hs
  | case2 p c a r =>
    obtain ⟨n, rfl⟩ : ∃ m, n = m + 1 := ⟨n - 1, by omega⟩
    rw [link_node, minimum, h.below.1]
    rfl
  | case3 p c c' l' a' r' a r ih =>
    simp only [ColorTree.height] at hn ih
    obtain ⟨n, rfl⟩ : ∃ m, n = m + 1 := ⟨n - 1, by omega⟩
    have hdown : Rep L none (⟨.left, c, a, r⟩ :: p) (.node c' l' a' r') := rep_cons.2 h
    rw [link_node, minimum, h.below.1]
    exact ih hdown (by simp) (by omega)

theorem takePlace_spec {p : Trail (Item K V)} {c : Color} {l r : ColorTree (Item K V)}
    {a b : Item K V} (h : Spliced L none p c l a b r) (hl : l ≠ .nil) :
    ∃ L', takePlace (some a.ptr) (some b.ptr) L = some L' ∧ Rep L' none p (.node c l b r) := by
  obtain ⟨L₁, L₂, L₃, L₄, y, k, e₁, ha₁, e₂, hb₂, e₃, ha₃, e₄, h₄, -⟩ := h.finish hl
  have hne : l.link none ≠ none := by
    obtain ⟨cl, ll, al, rl, rfl⟩ := exists_join .left hl
    simp
  refine ⟨L₄, ?_, h₄⟩
  simp only [takePlace, e₁, Links.deref_some, ha₁, Option.bind_eq_bind, Option.bind_some,
    Item.cell_left, e₂, hb₂, Links.adopt_of_ne hne, e₃, ha₃, Item.cell_color, e₄]

theorem takeRight_spec {q p : Trail (Item K V)} {g : Frame (Item K V)} {c k : Color}
    {l x : ColorTree (Item K V)} {a b : Item K V}
    (h : Rep L none (g :: q ++ ⟨.right, c, a, l⟩ :: p) (.node k .nil b x)) :
    ∃ L', takeRight (some a.ptr) (some b.ptr) (x.link none) L = some L' ∧
      Spliced L' none p c l a b (plug (g :: q) x) := by
  obtain ⟨L₁, e₁, h₁, hb₁, -, -⟩ := h.transplant (d := .left) (by simp)
  have h₁' : Rep L₁ none p (.node c l a (plug (g :: q) x)) := rep_cons.1 (rep_append.1 h₁)
  have hfree : b.ptr ∉ (ColorTree.node c l a (plug (g :: q) x)).addrs ++ around p := by
    have hperm := addrs_append_perm (g :: q ++ [⟨.right, c, a, l⟩]) p x
    rw [List.append_assoc, List.singleton_append, plug_append] at hperm
    intro hb
    exact h.root_fresh (d := .left) (hperm.mem_iff.2 hb)
  have hne := plug_cons_ne_nil g q x
  obtain ⟨L₂, L₃, e₂, hb₂, e₃, h₃, -⟩ := h₁'.take_right hne (hb₁.trans (h.cell (d := .left))) hfree (by simp)
  refine ⟨L₃, ?_, h₃⟩
  have hlink : (plug (g :: q) x).link none ≠ none := by
    obtain ⟨cl, ll, al, rl, e⟩ := exists_join .left hne
    rw [e, link_join]
    simp
  have ha₁ : L₁.heap a.ptr = _ := h₁'.cell (d := .left)
  simp only [takeRight, e₁, Links.deref_some, ha₁, Option.bind_eq_bind, Option.bind_some,
    Item.cell_right, e₂, hb₂, Links.adopt_of_ne hlink, e₃]

/-- Unlinking a node does to the links what `splice` does to the tree. -/
theorem unlink_spec {p : Trail (Item K V)} {c : Color} {l r : ColorTree (Item K V)} {a : Item K V}
    {n : ℕ} (h : Rep L none p (.node c l a r)) (hn : r.height < n) :
    ∃ L', unlink n (some a.ptr) L =
        some ((splice p (.node c l a r)).1, (splice p (.node c l a r)).2.2.link none,
          top (splice p (.node c l a r)).2.1, L') ∧
      Rep L' none (splice p (.node c l a r)).2.1 (splice p (.node c l a r)).2.2 := by
  have ha : L.heap a.ptr = _ := h.cell (d := .left)
  have hlock := lock_top h
  rcases l with _ | ⟨cl, ll, al, rl⟩
  · obtain ⟨L', e, h', -, -, -⟩ := h.transplant (d := .left) (by simp)
    refine ⟨L', ?_, h'⟩
    simp only [unlink, Links.deref_some, ha, Option.bind_eq_bind, Option.bind_some, Item.cell_left,
      link_nil, if_true, Item.cell_right, e, Item.cell_color, Item.cell_parent, hlock, splice]
    rfl
  rcases r with _ | ⟨cr, lr, ar, rr⟩
  · obtain ⟨L', e, h', -, -, -⟩ := h.transplant (d := .right) (by simp)
    refine ⟨L', ?_, h'⟩
    rw [link_node] at e ha
    simp only [unlink, Links.deref_some, ha, Option.bind_eq_bind, Option.bind_some, Item.cell_left,
      link_nil, reduceCtorEq, if_false, if_true, Item.cell_right, e, Item.cell_color,
      Item.cell_parent, hlock, splice]
    rfl
  obtain ⟨q, cs, s, x, hq, hplug, -⟩ :=
    leftmost_spec (node_ne_nil cr lr ar rr)
  have hmin := minimum_spec (p := ⟨.right, c, a, .node cl ll al rl⟩ :: p) (rep_cons.2 h) (by simp) hn
  have hs : Rep L none (q ++ ⟨.right, c, a, .node cl ll al rl⟩ :: p) (.node cs .nil s x) := by
    rw [rep_append, hplug]
    exact rep_cons.2 h
  have hcs : L.heap s.ptr = _ := hs.cell (d := .left)
  have hpar := lock_top hs
  rw [leftmost_snd _ [], hq, link_node, link_node] at hmin
  rw [link_node, link_node] at ha
  simp only [splice, hq]
  cases q with
  | nil =>
    rw [plug_nil] at hplug
    rw [← hplug] at h
    rw [List.nil_append, top] at hpar
    obtain ⟨L', e, h'⟩ := takePlace_spec h.spliced (by simp)
    refine ⟨L', ?_, rep_cons.2 h'⟩
    simp only [unlink, Links.deref_some, ha, Option.bind_eq_bind, Option.bind_some, Item.cell_left,
      reduceCtorEq, if_false, Item.cell_right, hmin, hcs, Item.cell_parent, hpar, List.nil_append,
      top, ne_eq, not_true_eq_false, e, Item.cell_color]
    rfl
  | cons g q =>
    have hne : top (g :: q ++ ⟨.right, c, a, .node cl ll al rl⟩ :: p) ≠ some a.ptr := hs.frame_ne
    obtain ⟨L₁, e₁, h₁⟩ := takeRight_spec hs
    obtain ⟨L₂, e₂, h₂⟩ := takePlace_spec h₁ (by simp)
    refine ⟨L₂, ?_, rep_append.2 (rep_cons.2 h₂)⟩
    simp only [unlink, Links.deref_some, ha, Option.bind_eq_bind, Option.bind_some, Item.cell_left,
      reduceCtorEq, if_false, Item.cell_right, hmin, hcs, Item.cell_parent, hpar,
      ne_eq, hne, not_false_eq_true, if_true, e₁, e₂, Item.cell_color]
    rfl

section Operations
variable [LinearOrder K] {t : RedBlackTree K V} {T : ColorTree (Item K V)} {n : ℕ}

theorem Stores.height_lt_fuel (h : Stores t T) : T.height < t.fuel :=
  ((height_le_length T).trans h.size_le).trans_lt (Nat.lt_add_of_pos_right (by decide))

theorem Stores.root (h : Stores t T) : t.links.root = T.link none := h.rep.above

theorem Stores.findNode (h : Stores t T) (k : K) (hn : T.height < n) :
    findNode k n t.links.root t.links = some ((locate Item.key k [] T).2.link none) := by
  rw [h.root]
  exact findNode_spec k h.rep hn

theorem Stores.findPlace (h : Stores t T) (k : K) (hn : T.height < n) :
    findPlace k n t.links.root none t.links =
      some ((locate Item.key k [] T).2.link none, top (locate Item.key k [] T).1) := by
  rw [h.root]
  exact findPlace_spec k h.rep hn

theorem Stores.focus (h : Stores t T) {k : K} {p : Trail (Item K V)} {s : ColorTree (Item K V)}
    (hloc : locate Item.key k [] T = (p, s)) : Rep t.links none p s := by
  rw [rep_plug, plug_of_locate hloc]
  exact h.rep

theorem insertWith_empty (k : K) (v : V) (h : t.links.root = none) :
    ∃ t', insertWith exit t.fuel k v t = some (true, t') ∧
      Rep t'.links none [] (insertHole [] ⟨t.next, k, v⟩) ∧ t'.count = 1 ∧ t'.next = t.next + 1 := by
  let L : Links K V := { t.links.put t.next ⟨k, v, .black, none, none, none⟩ with root := some t.next }
  refine ⟨⟨L, 1, t.next + 1⟩, by rw [insertWith, if_pos h]; rfl, ⟨rfl, ⟨?_, trivial, trivial⟩, ?_, ?_⟩,
    rfl, rfl⟩
  · exact Links.put_heap_self ..
  · exact List.nodup_singleton _
  · simp

theorem insertWith_found {k : K} {p : Trail (Item K V)} {c : Color} {l r : ColorTree (Item K V)}
    {a : Item K V} (v : V) (h : Stores t T) (hloc : locate Item.key k [] T = (p, .node c l a r)) :
    ∃ t', insertWith exit t.fuel k v t = some (false, t') ∧
      Rep t'.links none [] (plug p (.node c l { a with value := v } r)) ∧ t'.count = t.count ∧
      t'.next = t.next := by
  have hrep := h.focus hloc
  have hplace := h.findPlace k h.height_lt_fuel
  rw [hloc, link_node] at hplace
  have hroot : t.links.root ≠ none := by
    rw [h.root]
    intro e
    cases T with
    | nil => simp [locate] at hloc
    | node => simp at e
  obtain ⟨L', e, h', -⟩ := hrep.setValue (d := .left) v
  refine ⟨⟨L', t.count, t.next⟩, ?_, rep_plug.1 h', rfl, rfl⟩
  simp only [insertWith, if_neg hroot, Option.bind_eq_bind, hplace, Option.bind_some, e]
  rfl

theorem insertWith_missing {k : K} {f : Frame (Item K V)} {p : Trail (Item K V)} (v : V)
    (h : Stores t T) (hloc : locate Item.key k [] T = (f :: p, .nil)) :
    ∃ t', insertWith exit t.fuel k v t = some (true, t') ∧
      Rep t'.links none [] (insertHole (f :: p) ⟨t.next, k, v⟩) ∧ t'.count = t.count + 1 ∧
      t'.next = t.next + 1 := by
  have hplug := plug_of_locate hloc
  have hrep := h.focus hloc
  have hplace := h.findPlace k h.height_lt_fuel
  rw [hloc, link_nil, top] at hplace
  have hroot : t.links.root ≠ none := by
    obtain ⟨q, -, hq⟩ := link_plug_cons none f p .nil
    rw [h.root, ← hplug, hq]
    simp
  have hbetween := between_locate_nil (k := k) h.increasing
  rw [hloc] at hbetween
  have hfresh : t.next ∉ around (f :: p) := by
    intro hm
    have hmem := mem_addrs_of_around hm .nil
    rw [hplug] at hmem
    exact absurd (h.fresh _ hmem) (lt_irrefl _)
  obtain ⟨L₁, e₁, h₁, -⟩ := hrep.attach (a := ⟨t.next, k, v⟩) hfresh (by simp)
  obtain ⟨n, hn, hp⟩ := (hplug ▸ h.redBlack).focus
  have hlen : (f :: p).length ≤ T.height := hplug ▸ length_le_height (f :: p) .nil
  have hfuel := h.height_lt_fuel
  obtain ⟨L₂, e₂, h₂⟩ := fixInsert_spec exit h₁ (by simp) hp (show _ < t.fuel by omega)
  refine ⟨⟨L₂, t.count + 1, t.next + 1⟩, ?_, h₂, rfl, rfl⟩
  have hne : f.item.ptr ≠ t.next := fun e => hfresh (e ▸ mem_around_of_top rfl)
  simp only [insertWith, if_neg hroot, Option.bind_eq_bind, hplace, Option.bind_some,
    Links.deref_some, Links.put_heap_of_ne _ _ hne, hrep.parent_cell, Item.cell_key,
    side_of_between hbetween]
  simp only [Item.cell] at e₁
  rw [e₁, Option.bind_some, ← link_node none .red .nil ⟨t.next, k, v⟩ .nil, e₂]
  rfl

theorem repair_spec {q : Trail (Item K V)} {x : ColorTree (Item K V)} {n : ℕ} (c : Color)
    (h : Rep L none q x) (hb : c = .black → ∃ m, Short q x m) (hn : q.length + 1 < n) :
    ∃ L', repair exit n c (x.link none) (top q) L = some L' ∧
      Rep L' none [] (mend c q x) := by
  cases c with
  | red => exact ⟨L, rfl, rep_plug.1 h⟩
  | black =>
    cases q with
    | nil =>
      have hroot : x.link none = L.root := h.above.symm
      by_cases hx : x = .nil
      · subst hx
        exact ⟨L, by rw [repair, if_pos rfl, if_pos hroot]; rfl, h⟩
      · obtain ⟨c, l, a, r, rfl⟩ := exists_join .left hx
        obtain ⟨L', e, h', -⟩ := h.setColor .black
        refine ⟨L', ?_, h'⟩
        rw [repair, if_pos rfl, if_pos hroot, link_join, if_neg (by simp)]
        exact e
    | cons f q =>
      obtain ⟨m, hm⟩ := hb rfl
      obtain ⟨L', e, h'⟩ := fixDelete_spec exit h hm hn
      refine ⟨L', ?_, h'⟩
      rw [repair, if_pos rfl, if_neg h.ne_root, top, if_neg (by simp)]
      exact e

theorem removeWith_found {k : K} {p : Trail (Item K V)} {c : Color} {l r : ColorTree (Item K V)}
    {a : Item K V} (h : Stores t T) (hloc : locate Item.key k [] T = (p, .node c l a r)) :
    ∃ L, removeWith exit t.fuel k t = some (true, ⟨L, t.count - 1, t.next⟩) ∧
      Rep L none [] (removeHole p (.node c l a r)) := by
  have hplug := plug_of_locate hloc
  have hrep := h.focus hloc
  have hnode := h.findNode k h.height_lt_fuel
  rw [hloc, link_node] at hnode
  have hheight := length_add_height_le p (.node c l a r)
  have hfuel := h.height_lt_fuel
  rw [hplug, ColorTree.height] at hheight
  obtain ⟨L₁, e₁, h₁⟩ := unlink_spec hrep (show r.height < t.fuel by omega)
  obtain ⟨-, hblack⟩ := splice_spec (hplug ▸ h.redBlack)
  have hlen : (splice p (.node c l a r)).2.1.length + 1 < t.fuel := by
    have hlt := length_splice_lt_height p c l a r
    rw [hplug] at hlt
    omega
  obtain ⟨L₂, e₂, h₂⟩ := repair_spec exit _ h₁ hblack hlen
  refine ⟨L₂.free a.ptr, ?_, h₂.free hrep.removed_notMem⟩
  simp only [removeWith, hnode, Option.bind_eq_bind, Option.bind_some, e₁, e₂]
  rfl

theorem insertWith_links (k : K) (v : V) (h : Stores t T) :
    ∃ t', insertWith exit t.fuel k v t = some ((lookup Item.key k T).isNone, t') ∧
      Rep t'.links none [] (put Item.key k (Item.renew t.next k v) T) ∧
      t'.count = t.count + (if (lookup Item.key k T).isNone then 1 else 0) ∧
      t'.next = t.next + (if (lookup Item.key k T).isNone then 1 else 0) := by
  unfold lookup put
  rcases hloc : locate Item.key k [] T with ⟨_ | ⟨f, p⟩, _ | ⟨c, l, a, r⟩⟩
  · have hT : T = .nil := (plug_of_locate hloc).symm
    have hcount := h.count
    have hroot := h.root
    rw [hT] at hcount hroot
    obtain ⟨t', e, h', hc, hn⟩ := insertWith_empty exit k v hroot
    exact ⟨t', e, h', by rw [hc, hcount]; rfl, hn⟩
  · obtain ⟨t', e, h', hc, hn⟩ := insertWith_found exit v h hloc
    exact ⟨t', e, h', hc, hn⟩
  · obtain ⟨t', e, h', hc, hn⟩ := insertWith_missing exit v h hloc
    exact ⟨t', e, h', hc, hn⟩
  · obtain ⟨t', e, h', hc, hn⟩ := insertWith_found exit v h hloc
    exact ⟨t', e, h', hc, hn⟩

theorem insertWith_spec (k : K) (v : V) (h : Stores t T) :
    ∃ t', insertWith exit t.fuel k v t = some ((lookup Item.key k T).isNone, t') ∧
      Stores t' (put Item.key k (Item.renew t.next k v) T) := by
  obtain ⟨t', e, hrep, hcount, hnext⟩ := insertWith_links exit k v h
  obtain ⟨lo, hi, -, -, hkey, hT, hput, -⟩ := toList_split k h.increasing
  have hnew := Item.renew_key t.next v hkey
  refine ⟨t', e, hrep, isRedBlack_put _ k _ h.redBlack, increasing_put h.increasing hnew, ?_, ?_⟩
  · rw [hcount, h.count, hT, hput]
    cases lookup Item.key k T with
    | none => simp; omega
    | some a => simp
  · intro q hq
    obtain ⟨b, hb, rfl⟩ := List.mem_map.1 hq
    rw [hnext]
    rcases mem_put h.increasing hb with rfl | hb
    · cases hl : lookup Item.key k T with
      | none => exact Nat.lt_succ_self _
      | some a => exact h.fresh a.ptr (List.mem_map_of_mem ((lookup_eq_some h.increasing).1 hl).1)
    · exact Nat.lt_add_right _ (h.fresh b.ptr (List.mem_map_of_mem hb))

theorem removeWith_spec (k : K) (h : Stores t T) :
    ∃ t', removeWith exit t.fuel k t = some ((lookup Item.key k T).isSome, t') ∧
      Stores t' (erase Item.key k T) := by
  obtain ⟨lo, hi, -, -, hkey, hT, -, herase⟩ := toList_split k h.increasing
  have hinc := increasing_erase k h.increasing
  have hred := isRedBlack_erase Item.key k h.redBlack
  have hcount := h.count
  have hmem {b : Item K V} := mem_erase (k := k) h.increasing (b := b)
  unfold lookup erase at *
  rcases hloc : locate Item.key k [] T with ⟨p, _ | ⟨c, l, a, r⟩⟩
  · have hnode := h.findNode k h.height_lt_fuel
    rw [hloc, link_nil] at hnode
    refine ⟨t, ?_, h⟩
    simp only [removeWith, hnode, Option.bind_eq_bind, Option.bind_some]
    rfl
  · obtain ⟨L, e, hrep⟩ := removeWith_found exit h hloc
    rw [hloc] at hT herase hinc hred hmem
    refine ⟨_, e, hrep, hred, hinc, ?_, ?_⟩
    · rw [herase, hcount, hT]
      simp
    · intro q hq
      obtain ⟨b, hb, rfl⟩ := List.mem_map.1 hq
      exact h.fresh b.ptr (List.mem_map_of_mem (hmem hb))

theorem clear_spec (t : RedBlackTree K V) : Stores t.clear .nil :=
  ⟨⟨rfl, trivial, List.nodup_nil, (by simp)⟩, isRedBlack_nil, List.Pairwise.nil, rfl, (by simp)⟩

end Operations

end LearnSpdk.RedBlackTree
