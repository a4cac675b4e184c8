import LearnSpdk.Lib.RedBlackLinks
import LearnSpdk.Lib.TreeDepth
import LearnSpdk.Proofs.RBTreeFixup

/-! Every operation of `RBTree` on a linked red-black search tree ends, leaves the
tree that the abstract operation gives, and resets the shared sentinel. -/

namespace LearnSpdk.RBTree

open Lib ColorTree Trail

variable {T : Type} {L : Links T T} {nil : Ptr} {par : Option Ptr}

section Search
variable [LinearOrder T]

theorem searchLoop_spec (k : T) {p : Trail (Item T T)} {s : ColorTree (Item T T)} {n : ℕ}
    (h : Rep L (some nil) p s) (hn : s.height < n) :
    searchLoop nil k n (s.link (some nil)) L = some ((locate Item.key k p s).2.link none) := by
  induction n generalizing p s with
  | zero => omega
  | succ n ih =>
    cases s with
    | nil => rw [link_nil, searchLoop, if_pos rfl]; rfl
    | node c l a r =>
      rw [ColorTree.height] at hn
      obtain ⟨hne, hl, hr⟩ := h.node
      have hcell := h.below.1
      rw [link_node, searchLoop, if_neg hne, Links.deref_some, hcell, locate]
      simp only [Option.bind_eq_bind, Option.bind_some, Item.cell_key, Item.cell_left, Item.cell_right]
      rcases lt_trichotomy k a.key with hk | hk | hk
      · rw [if_neg hk.ne, if_pos hk, if_pos hk]
        exact ih hl (by omega)
      · rw [if_pos hk, if_neg hk.not_lt, if_neg hk.symm.not_lt]
        rfl
      · rw [if_neg hk.ne', if_neg hk.asymm, if_neg hk.asymm, if_pos hk]
        exact ih hr (by omega)

theorem descend_spec {k : T} {p q : Trail (Item T T)} {s : ColorTree (Item T T)} {n : ℕ}
    (h : Rep L (some nil) p s) (hn : s.height < n) (hloc : locate Item.key k p s = (q, .nil)) :
    descend nil k n (s.link (some nil)) (top p) L = some (some (top q)) := by
  induction n generalizing p s with
  | zero => omega
  | succ n ih =>
    cases s with
    | nil =>
      cases hloc
      rw [link_nil, descend, if_pos rfl]
    | node c l a r =>
      rw [ColorTree.height] at hn
      obtain ⟨hne, hl, hr⟩ := h.node
      have hcell := h.below.1
      rw [locate] at hloc
      rw [link_node, descend, if_neg hne, Links.deref_some, hcell]
      simp only [Option.bind_eq_bind, Option.bind_some, Item.cell_key, Item.cell_left, Item.cell_right]
      split_ifs at hloc ⊢ with h1 h2
      · exact ih hl (by omega) hloc
      · exact ih hr (by omega) hloc
      · cases hloc

end Search

theorem outermost_spec (d : Side) {p : Trail (Item T T)} {s : ColorTree (Item T T)} {n : ℕ}
    (h : Rep L (some nil) p s) (hs : s ≠ .nil) (hn : s.height < n) :
    ∃ a c, s.outermost d = some a ∧ outermost nil d n (s.link (some nil)) L = some (some a.ptr) ∧
      L.heap a.ptr = some c ∧ c.key = a.key := by
  induction n generalizing p s with
  | zero => omega
  | succ n ih =>
    obtain ⟨c, x, a, y, rfl⟩ := exists_join d hs
    rw [link_join, outermost, Links.deref_some, h.cell]
    simp only [Option.bind_eq_bind, Option.bind_some, Item.cell_child]
    by_cases hx : x = .nil
    · subst hx
      exact ⟨a, _, by rw [outermost_join]; rfl, if_pos rfl, h.cell, Item.cell_key ..⟩
    · have hlow : x.height < n := by
        cases d <;> simp [join, ColorTree.height] at hn <;> omega
      have hdown : Rep L (some nil) (⟨d, c, a, y⟩ :: p) x := rep_cons.2 h
      obtain ⟨b, cb, hb, e, hcb, hk⟩ := ih hdown hx hlow
      rw [if_neg (hdown.link_ne hx)]
      exact ⟨b, cb, by rw [outermost_join, hb]; rfl, e, hcb, hk⟩

section Unlink
variable [Inhabited T] {p : Trail (Item T T)} {c : Color} {l r x : ColorTree (Item T T)}
  {a b : Item T T}

/-- A node with a missing child is replaced by its other child, or by the sentinel,
which then points to the parent of the node. -/
theorem Held.transplant {d : Side} (h : Held nil par L p (join d c .nil a x)) :
    ∃ par' L', L.transplant (some a.ptr) (x.link (some nil)) = some L' ∧ Held nil par' L' p x ∧
      (x = .nil → par' = top p) ∧ L'.heap a.ptr = L.heap a.ptr := by
  have hlive : ∀ n, some nil = some n → (L.heap n).isSome := by
    rintro n ⟨⟩
    rw [h.sentinel]
    rfl
  obtain ⟨L', e, h', ha, hz, -⟩ := h.rep.transplant hlive
  rw [Links.deref_some, Links.deref_some, h.sentinel, Option.map_some] at hz
  cases x with
  | nil => exact ⟨top p, L', e, ⟨h', hz⟩, fun _ => rfl, ha⟩
  | node => exact ⟨par, L', e, ⟨h', hz⟩, (by simp), ha⟩

/-- Writing the parent link of a child changes at most the sentinel. -/
theorem Held.touch {f : Frame (Item T T)} (h : Held nil par L (f :: p) x) :
    ∃ par' L', L.modify (x.link (some nil)) (·.setParent (some f.item.ptr)) = some L' ∧
      Held nil par' L' (f :: p) x ∧ (x = .nil → par' = some f.item.ptr) := by
  cases x with
  | nil =>
    refine ⟨some f.item.ptr, _, Links.modify_some h.sentinel _, ⟨⟨?_, trivial, h.rep.nodup, h.rep.real⟩,
      Links.put_heap_self ..⟩, fun _ => rfl⟩
    exact h.rep.above.put_of_notMem (fun hq => h.nil_notMem (List.mem_append_right _ hq)) _
  | node k l b r =>
    refine ⟨par, L, ?_, h, (by simp)⟩
    rw [link_node, Links.modify_some h.rep.below.1, Item.cell_setParent]
    exact congrArg some (Links.put_eq_self h.rep.below.1)

theorem takePlace_spec (h : Spliced L (some nil) p c l a b r) (hl : l ≠ .nil)
    (hnil : L.heap nil = some (nilCell par)) :
    ∃ L', takePlace (some a.ptr) (some b.ptr) L = some L' ∧ Held nil par L' p (.node c l b r) := by
  obtain ⟨L₁, L₂, L₃, L₄, y, k, e₁, ha₁, e₂, hb₂, e₃, ha₃, e₄, h₄, hf⟩ := h.finish hl
  refine ⟨L₄, ?_, h₄, ?_⟩
  · simp only [takePlace, e₁, Links.deref_some, ha₁, Option.bind_eq_bind, Option.bind_some,
      Item.cell_left, e₂, hb₂, e₃, ha₃, Item.cell_color, e₄]
  · rw [hf nil fun hm => h.real nil hm rfl, hnil]

theorem takeRight_spec {q : Trail (Item T T)} {g : Frame (Item T T)} {k : Color}
    (h : Held nil par L (g :: q ++ ⟨.right, c, a, l⟩ :: p) (.node k .nil b x)) :
    ∃ par' L', takeRight (some a.ptr) (some b.ptr) (x.link (some nil)) L = some L' ∧
      Spliced L' (some nil) p c l a b (plug (g :: q) x) ∧ L'.heap nil = some (nilCell par') ∧
      (x = .nil → par' = some g.item.ptr) := by
  obtain ⟨par', L₁, e₁, h₁, hpar, hb₁⟩ := Held.transplant (d := .left) h
  have h₁' : Rep L₁ (some nil) p (.node c l a (plug (g :: q) x)) := rep_cons.1 (rep_append.1 h₁.rep)
  have hperm := addrs_append_perm (g :: q ++ [⟨.right, c, a, l⟩]) p x
  rw [List.append_assoc, List.singleton_append, plug_append] at hperm
  have hfree : b.ptr ∉ (ColorTree.node c l a (plug (g :: q) x)).addrs ++ around p := by
    intro hb
    exact h.rep.root_fresh (d := .left) (hperm.mem_iff.2 hb)
  have hbz : some b.ptr ≠ some nil := h.rep.node.1
  obtain ⟨L₂, L₃, e₂, hb₂, e₃, h₃, hf⟩ := h₁'.take_right (plug_cons_ne_nil g q x)
    (hb₁.trans (h.rep.cell (d := .left))) hfree hbz
  have ha₁ : L₁.heap a.ptr = _ := h₁'.cell (d := .left)
  refine ⟨par', L₃, ?_, h₃, ?_, hpar⟩
  · simp only [takeRight, e₁, Links.deref_some, ha₁, Option.bind_eq_bind, Option.bind_some,
      Item.cell_right, e₂, hb₂, e₃]
  · rw [hf nil (fun hm => h₁'.real nil hm rfl) fun e => hbz (by rw [e]), h₁.sentinel]

theorem successor_spec {n : ℕ} (h : Held nil par L p (.node c l a r)) (hr : r ≠ .nil)
    (hn : r.height < n) :
    ∃ q cs s x, leftmost [] r = (q, .node cs .nil s x) ∧
      minimum nil n (r.link (some nil)) L = some (some s.ptr) ∧
      Held nil par L (q ++ ⟨.right, c, a, l⟩ :: p) (.node cs .nil s x) := by
  obtain ⟨q, cs, s, x, hq, hplug, hbefore⟩ := leftmost_spec hr
  have hright : Rep L (some nil) (⟨.right, c, a, l⟩ :: p) r := rep_cons.2 h.rep
  obtain ⟨s', cs', hs', hmin, -, -⟩ := outermost_spec .left hright hr hn
  obtain rfl : s' = s := by
    rw [outermost_left, ← hplug, toList_plug, hbefore] at hs'
    simpa [toList] using hs'.symm
  refine ⟨q, cs, s', x, hq, hmin, ?_, h.sentinel⟩
  rw [rep_append, hplug]
  exact hright

/-- The parent of the place that `splice` leaves short. -/
theorem shortParent_spec {n : ℕ} (h : Held nil par L p (.node c l a r)) (hn : r.height < n) :
    shortParent nil n (some a.ptr) L = some (top (splice p (.node c l a r)).2.1) := by
  have ha : L.heap a.ptr = _ := h.rep.cell (d := .left)
  rcases l with _ | ⟨cl, ll, al, rl⟩
  · simp only [shortParent, Links.deref_some, ha, Option.bind_eq_bind, Option.bind_some,
      Item.cell_left, link_nil, true_or, if_true, Item.cell_parent, h.lock_top, splice, Option.pure_def]
  rcases r with _ | ⟨cr, lr, ar, rr⟩
  · simp only [shortParent, Links.deref_some, ha, Option.bind_eq_bind, Option.bind_some,
      Item.cell_right, link_nil, or_true, if_true, Item.cell_parent, h.lock_top, splice, Option.pure_def]
  have hinner : ¬(some al.ptr = some nil ∨ some ar.ptr = some nil) :=
    not_or.2 ⟨h.rep.node.2.1.node.1, h.rep.node.2.2.node.1⟩
  obtain ⟨q, cs, s, x, hq, hmin, hs⟩ := successor_spec h (node_ne_nil cr lr ar rr) hn
  have hcs : L.heap s.ptr = _ := hs.rep.cell (d := .left)
  rw [link_node] at hmin
  rw [link_node, link_node] at ha
  simp only [shortParent, Links.deref_some, ha, Option.bind_eq_bind, Option.bind_some,
    Item.cell_left, Item.cell_right, if_neg hinner, hmin, hcs, Item.cell_parent, hs.lock_top, splice, hq,
    Option.pure_def]
  cases q with
  | nil => exact congrArg some (if_pos rfl)
  | cons g q => exact congrArg some (if_neg hs.rep.frame_ne)

/-- Unlinking a node does to the links what `splice` does to the tree; if a missing
child took its place, the sentinel points to the parent. -/
theorem unlink_spec {n : ℕ} (h : Held nil par L p (.node c l a r)) (hn : r.height < n) :
    ∃ par' L', unlink nil n (some a.ptr) L =
        some ((splice p (.node c l a r)).1, (splice p (.node c l a r)).2.2.link (some nil), L') ∧
      Held nil par' L' (splice p (.node c l a r)).2.1 (splice p (.node c l a r)).2.2 ∧
      ((splice p (.node c l a r)).2.2 = .nil → par' = top (splice p (.node c l a r)).2.1) := by
  have ha : L.heap a.ptr = _ := h.rep.cell (d := .left)
  rcases l with _ | ⟨cl, ll, al, rl⟩
  · obtain ⟨par', L', e, h', hpar, -⟩ := Held.transplant (d := .left) h
    refine ⟨par', L', ?_, h', hpar⟩
    simp only [unlink, Links.deref_some, ha, Option.bind_eq_bind, Option.bind_some, Item.cell_left,
      link_nil, if_true, Item.cell_right, e, Item.cell_color, splice]
    rfl
  have hal := h.rep.node.2.1.node.1
  rcases r with _ | ⟨cr, lr, ar, rr⟩
  · obtain ⟨par', L', e, h', hpar, -⟩ := Held.transplant (d := .right) h
    refine ⟨par', L', ?_, h', hpar⟩
    rw [link_node] at e ha
    simp only [unlink, Links.deref_some, ha, Option.bind_eq_bind, Option.bind_some, Item.cell_left,
      link_nil, if_neg hal, if_true, Item.cell_right, e, Item.cell_color, splice]
    rfl
  have har := h.rep.node.2.2.node.1
  obtain ⟨q, cs, s, x, hq, hmin, hs⟩ := successor_spec h (node_ne_nil cr lr ar rr) hn
  have hcs : L.heap s.ptr = _ := hs.rep.cell (d := .left)
  have hpar := hs.lock_top
  rw [link_node] at hmin
  rw [link_node, link_node] at ha
  simp only [splice, hq]
  cases q with
  | nil =>
    rw [List.nil_append] at hs
    rw [List.nil_append, top] at hpar
    have hx : Held nil par L (⟨.right, cs, s, .nil⟩ :: ⟨.right, c, a, .node cl ll al rl⟩ :: p) x :=
      held_cons.2 hs
    obtain ⟨par', L₁, e₁, h₁, hpar'⟩ := hx.touch
    have h₁' : Rep L₁ (some nil) p (.node c (.node cl ll al rl) a (.node cs .nil s x)) :=
      rep_cons.1 (rep_cons.1 h₁.rep)
    obtain ⟨L₂, e₂, h₂⟩ := takePlace_spec h₁'.spliced (by simp) h₁.sentinel
    refine ⟨par', L₂, ?_, held_cons.2 h₂, hpar'⟩
    simp only [unlink, Links.deref_some, ha, Option.bind_eq_bind, Option.bind_some, Item.cell_left,
      if_neg hal, if_neg har, Item.cell_right, hmin, hcs, Item.cell_parent, List.nil_append,
      top, hpar, if_true, e₁, e₂, Item.cell_color]
    rfl
  | cons g q =>
    have hne : top (g :: q ++ ⟨.right, c, a, .node cl ll al rl⟩ :: p) ≠ some a.ptr := hs.rep.frame_ne
    obtain ⟨par', L₁, e₁, h₁, hnil, hpar'⟩ := takeRight_spec hs
    obtain ⟨L₂, e₂, h₂⟩ := takePlace_spec h₁ (by simp) hnil
    refine ⟨par', L₂, ?_, ⟨rep_append.2 (rep_cons.2 h₂.rep), h₂.sentinel⟩, hpar'⟩
    simp only [unlink, Links.deref_some, ha, Option.bind_eq_bind, Option.bind_some, Item.cell_left,
      if_neg hal, if_neg har, Item.cell_right, hmin, hcs, Item.cell_parent, hpar,
      if_neg hne, e₁, e₂, Item.cell_color]
    rfl

theorem Held.reset (h : Held nil par L p x) :
    ∃ L', L.modify (some nil) (·.setParent none) = some L' ∧ Held nil none L' p x := by
  have hn := h.nil_notMem
  rw [List.mem_append, not_or] at hn
  refine ⟨_, Links.modify_some h.sentinel _, ⟨?_, ?_, h.rep.nodup, h.rep.real⟩, Links.put_heap_self ..⟩
  · exact h.rep.above.put_of_notMem hn.2 _
  · exact h.rep.below.put_of_notMem hn.1 _

theorem repair_spec (check : Check) {n : ℕ} (c : Color) (h : Held nil par L p x) (hx : x = .nil → par = top p)
    (hb : c = .black → ∃ m, Short p x m) (hn : p.length + 1 < n) :
    ∃ L', repair nil check n c (x.link (some nil)) L = some L' ∧
      Held nil par L' [] (mend c p x) := by
  cases c with
  | red => exact ⟨L, rfl, held_plug.1 h⟩
  | black =>
    obtain ⟨m, hm⟩ := hb rfl
    obtain ⟨L', e, h'⟩ := deleteFixup_spec check h hx hm hn
    exact ⟨L', by rw [repair, if_pos rfl, e], h'⟩

end Unlink

theorem clear_spec {p : Trail (Item T T)} {s : ColorTree (Item T T)} {n : ℕ}
    (h : Rep L (some nil) p s) (hn : s.toList.length < n) :
    clear nil n (s.link (some nil)) L = some () := by
  induction n generalizing p s with
  | zero => omega
  | succ n ih =>
    cases s with
    | nil => rw [link_nil, clear, if_pos rfl]
    | node c l a r =>
      simp only [toList, List.length_append, List.length_cons] at hn
      obtain ⟨hne, hl, hr⟩ := h.node
      rw [link_node, clear, if_neg hne, Links.deref_some, h.below.1]
      simp only [Option.bind_eq_bind, Option.bind_some, Item.cell_left, Item.cell_right,
        ih hl (by omega), ih hr (by omega)]

/-- Below the black root nothing is left to repair. -/
theorem insertHole_below_root {f : Frame (Item T T)} (h : IsRedBlack (plug [f] .nil)) (a : Item T T) :
    insertHole [f] a = plug [f] (.node .red .nil a .nil) := by
  refine blacken_of_black ?_
  have hf : f.color = .black := by
    have hc := h.1
    rwa [plug_cons, plug_nil, Frame.fill, color_join] at hc
  rw [raise_of_black hf, plug_cons, plug_nil, Frame.fill, color_join, hf]

/-- The item that `insert` leaves in the place of a key. -/
def keep (t : RBTree T) (k v : T) (o : Option (Item T T)) : Item T T := o.getD ⟨t.next, k, v⟩

theorem keep_key {t : RBTree T} {k : T} (v : T) {o : Option (Item T T)} (h : ∀ a, o = some a → a.key = k) :
    (keep t k v o).key = k := by
  cases o with
  | none => rfl
  | some a => exact h a rfl

/-- The state `t` stores the tree `S`. -/
structure Stores [LinearOrder T] [Inhabited T] (t : RBTree T) (S : ColorTree (Item T T)) : Prop where
  held : Held t.nil none t.links [] S
  redBlack : IsRedBlack S
  increasing : Increasing Item.key S.toList
  fresh : ∀ q ∈ S.addrs, q < t.next
  nil_lt : t.nil < t.next

section Operations
variable [LinearOrder T] [Inhabited T] {t : RBTree T} {S : ColorTree (Item T T)} {n : ℕ}

theorem Stores.root (h : Stores t S) : t.links.root = S.link (some t.nil) := h.held.rep.above

theorem Stores.size_le (h : Stores t S) : S.toList.length ≤ t.next := by
  have hn : S.addrs.Nodup := (List.nodup_append'.1 h.held.rep.nodup).1
  simpa [addrs] using length_le_of_lt hn h.fresh

theorem Stores.height_lt_fuel (h : Stores t S) : S.height < t.fuel :=
  ((height_le_length S).trans h.size_le).trans_lt (Nat.lt_add_of_pos_right (by decide))

theorem Stores.searchNode (h : Stores t S) (k : T) (hn : S.height < n) :
    searchNode n k t = some ((locate Item.key k [] S).2.link none) := by
  unfold RBTree.searchNode
  rw [h.root]
  exact searchLoop_spec k h.held.rep hn

theorem Stores.descend (h : Stores t S) {k : T} {q : Trail (Item T T)} (hloc : locate Item.key k [] S = (q, .nil))
    (hn : S.height < n) : descend t.nil k n t.links.root none t.links = some (some (top q)) := by
  rw [h.root]
  exact descend_spec h.held.rep hn hloc

theorem Stores.focus (h : Stores t S) {k : T} {p : Trail (Item T T)} {s : ColorTree (Item T T)}
    (hloc : locate Item.key k [] S = (p, s)) : Held t.nil none t.links p s := by
  rw [held_plug, plug_of_locate hloc]
  exact h.held

theorem fresh_spec : Stores (fresh : RBTree T) .nil := by
  refine ⟨⟨⟨rfl, trivial, List.nodup_nil, (by simp)⟩, ?_⟩, isRedBlack_nil, List.Pairwise.nil, (by simp), ?_⟩
  · simp [fresh]
  · exact Nat.zero_lt_one

theorem insertWith_found (check : Check) {k : T} {p : Trail (Item T T)} {c : Color} {l r : ColorTree (Item T T)}
    {a : Item T T} (v : T) (h : Stores t S) (hloc : locate Item.key k [] S = (p, .node c l a r)) :
    insertWith check t.fuel k v t = some t := by
  have hsearch := h.searchNode k h.height_lt_fuel
  rw [hloc, link_node] at hsearch
  have hne : some a.ptr ≠ some t.nil := (h.focus hloc).rep.node.1
  simp [insertWith, hsearch, hne]

theorem insertWith_empty (check : Check) (k v : T) (h : Stores t .nil) :
    ∃ L, insertWith check t.fuel k v t = some ⟨L, t.nil, t.next + 1⟩ ∧
      Held t.nil none L [] (insertHole [] ⟨t.next, k, v⟩) := by
  have hsearch : searchNode t.fuel k t = some none := h.searchNode k h.height_lt_fuel
  have hdescend : descend t.nil k t.fuel t.links.root none t.links = some (some none) :=
    h.descend rfl h.height_lt_fuel
  have hne : t.next ≠ t.nil := h.nil_lt.ne'
  let L₁ : Links T T :=
    { t.links.put t.next ⟨k, v, .red, some t.nil, some t.nil, none⟩ with root := some t.next }
  have h₁ : Held t.nil none L₁ [] (join .left .red .nil ⟨t.next, k, v⟩ .nil) := by
    refine ⟨⟨rfl, ⟨Links.put_heap_self .., trivial, trivial⟩, List.nodup_singleton _, ?_⟩, ?_⟩
    · simpa [join, addrs, toList, around, Trail.before, Trail.after] using hne
    · exact (Links.put_heap_of_ne _ _ hne.symm).trans h.held.sentinel
  obtain ⟨L₂, e₂, h₂⟩ := h₁.setColor .black
  refine ⟨L₂, ?_, h₂⟩
  have hpar := h₁.parentOf_join
  simp only [top, L₁] at hpar e₂
  simp only [insertWith, hsearch, Option.bind_eq_bind, Option.bind_some, ne_eq, not_true_eq_false,
    false_and, if_false, hdescend, if_true, hpar, e₂]
  rfl

theorem insertWith_missing (check : Check) {k : T} {f : Frame (Item T T)} {p : Trail (Item T T)} (v : T)
    (h : Stores t S) (hloc : locate Item.key k [] S = (f :: p, .nil)) :
    ∃ L, insertWith check t.fuel k v t = some ⟨L, t.nil, t.next + 1⟩ ∧
      Held t.nil none L [] (insertHole (f :: p) ⟨t.next, k, v⟩) := by
  have hplug := plug_of_locate hloc
  have hheld := h.focus hloc
  have hsearch := h.searchNode k h.height_lt_fuel
  rw [hloc, link_nil] at hsearch
  have hdescend : descend t.nil k t.fuel t.links.root none t.links = some (some (some f.item.ptr)) :=
    h.descend hloc h.height_lt_fuel
  have hbetween := between_locate_nil (k := k) h.increasing
  rw [hloc] at hbetween
  have hfresh : t.next ∉ around (f :: p) := by
    intro hm
    have hmem := mem_addrs_of_around hm .nil
    rw [hplug] at hmem
    exact absurd (h.fresh _ hmem) (lt_irrefl _)
  have hne : t.next ≠ t.nil := h.nil_lt.ne'
  obtain ⟨L₁, e₁, h₁, hf₁⟩ := hheld.rep.attach (a := ⟨t.next, k, v⟩) hfresh (by simpa using hne)
  have hheld₁ : Held t.nil none L₁ (f :: p) (join .left .red .nil ⟨t.next, k, v⟩ .nil) := by
    refine ⟨h₁, ?_⟩
    rw [hf₁ t.nil (fun hm => hheld.nil_notMem (List.mem_append_right _ hm)) hne.symm, hheld.sentinel]
  have hpar := hheld₁.parentOf_join
  have hgrand := (held_cons.1 hheld₁).parentOf_join
  have hfn : f.item.ptr ≠ t.next := fun e => hfresh (e ▸ mem_around_of_top rfl)
  simp only [Item.cell, top] at e₁ hpar
  have hhang := e₁
  rw [← side_of_between hbetween] at hhang
  cases p with
  | nil =>
    rw [insertHole_below_root (by rw [hplug]; exact h.redBlack)]
    refine ⟨L₁, ?_, held_plug.1 hheld₁⟩
    simp only [insertWith, hsearch, Option.bind_eq_bind, Option.bind_some, ne_eq, not_true_eq_false,
      false_and, if_false, hdescend, reduceCtorEq, Links.deref_some, Links.put_heap_of_ne _ _ hfn,
      hheld.rep.parent_cell, Item.cell_key, hhang, hpar, hgrand, top, if_true]
    rfl
  | cons g p =>
    obtain ⟨n, -, hp⟩ := (hplug ▸ h.redBlack).focus
    have hlen : (f :: g :: p).length ≤ S.height := hplug ▸ length_le_height (f :: g :: p) .nil
    have hfuel := h.height_lt_fuel
    obtain ⟨L₂, e₂, h₂⟩ := insertFixup_spec check hheld₁ (by simp) hp (show _ < t.fuel by omega)
    refine ⟨L₂, ?_, h₂⟩
    rw [link_join] at e₂
    simp only [insertWith, hsearch, Option.bind_eq_bind, Option.bind_some, ne_eq, not_true_eq_false,
      false_and, if_false, hdescend, reduceCtorEq, Links.deref_some, Links.put_heap_of_ne _ _ hfn,
      hheld.rep.parent_cell, Item.cell_key, hhang, hpar, hgrand, top, e₂]
    rfl

/-- A tree whose items were there before, or are at addresses just given out. -/
theorem Stores.renew (h : Stores t S) {L : Links T T} {n : Ptr} {S' : ColorTree (Item T T)}
    (hheld : Held t.nil none L [] S') (hrb : IsRedBlack S') (hinc : Increasing Item.key S'.toList)
    (hn : t.next ≤ n) (hmem : ∀ b ∈ S'.toList, b.ptr < n ∨ b ∈ S.toList) :
    Stores ⟨L, t.nil, n⟩ S' := by
  refine ⟨hheld, hrb, hinc, ?_, h.nil_lt.trans_le hn⟩
  intro q hq
  obtain ⟨b, hb, rfl⟩ := List.mem_map.1 hq
  rcases hmem b hb with hlt | hb
  · exact hlt
  · exact (h.fresh b.ptr (List.mem_map_of_mem hb)).trans_le hn

theorem insertWith_spec (check : Check) (k v : T) (h : Stores t S) :
    ∃ t', insertWith check t.fuel k v t = some t' ∧ Stores t' (put Item.key k (keep t k v) S) ∧
      ((lookup Item.key k S).isSome → t' = t) := by
  have hkey {a : Item T T} (ha : lookup Item.key k S = some a) : a.key = k :=
    ((lookup_eq_some h.increasing).1 ha).2
  have hinc := increasing_put h.increasing (keep_key (t := t) v fun _ => hkey)
  have hrb := isRedBlack_put Item.key k (keep t k v) h.redBlack
  have hmem {b : Item T T} (hb : b ∈ (put Item.key k (keep t k v) S).toList)
      (hl : lookup Item.key k S = none) : b.ptr < t.next + 1 ∨ b ∈ S.toList := by
    rcases mem_put h.increasing hb with rfl | hb
    · rw [hl]
      exact .inl (Nat.lt_succ_self _)
    · exact .inr hb
  by_cases hl : lookup Item.key k S = none
  · have hput : ∃ L, insertWith check t.fuel k v t = some ⟨L, t.nil, t.next + 1⟩ ∧
        Held t.nil none L [] (put Item.key k (keep t k v) S) := by
      unfold lookup at hl
      unfold put
      rcases hloc : locate Item.key k [] S with ⟨_ | ⟨f, p⟩, _ | ⟨c, l, a, r⟩⟩
      · have hS : S = .nil := (plug_of_locate hloc).symm
        rw [hS] at h
        exact insertWith_empty check k v h
      · rw [hloc] at hl; cases hl
      · exact insertWith_missing check v h hloc
      · rw [hloc] at hl; cases hl
    obtain ⟨L, e, hheld⟩ := hput
    refine ⟨_, e, h.renew hheld hrb hinc (Nat.le_succ _) fun b hb => hmem hb hl, ?_⟩
    simp [hl]
  · obtain ⟨a, ha⟩ := Option.ne_none_iff_exists'.1 hl
    refine ⟨t, ?_, ?_, fun _ => rfl⟩
    · unfold lookup at ha
      rcases hloc : locate Item.key k [] S with ⟨p, _ | ⟨c, l, b, r⟩⟩
      · rw [hloc] at ha; cases ha
      · exact insertWith_found check v h hloc
    · rw [put_eq_self ha rfl]
      exact h

theorem modify_spec (k v : T) (h : Stores t S) :
    ∃ t', modify k v t = some t' ∧
      (lookup Item.key k S = none → t' = t) ∧
      ((lookup Item.key k S).isSome → Stores t' (put Item.key k (Item.renew t.next k v) S)) := by
  have hsearch := h.searchNode k h.height_lt_fuel
  by_cases hl : lookup Item.key k S = none
  · refine ⟨t, ?_, fun _ => rfl, by simp [hl]⟩
    unfold lookup at hl
    rcases hloc : locate Item.key k [] S with ⟨p, _ | ⟨c, l, a, r⟩⟩
    · rw [hloc, link_nil] at hsearch
      simp [modify, hsearch]
    · rw [hloc] at hl; cases hl
  · obtain ⟨a, ha⟩ := Option.ne_none_iff_exists'.1 hl
    have hkey := ((lookup_eq_some h.increasing).1 ha)
    have hrenew : (Item.renew t.next k v (lookup Item.key k S)).key = k := by rw [ha]; exact hkey.2
    have hinc := increasing_put h.increasing hrenew
    have hrb := isRedBlack_put Item.key k (Item.renew t.next k v) h.redBlack
    have hmem {b : Item T T} (hb : b ∈ (put Item.key k (Item.renew t.next k v) S).toList) :
        b = Item.renew t.next k v (lookup Item.key k S) ∨ b ∈ S.toList := mem_put h.increasing hb
    rw [ha] at hmem
    unfold lookup at ha
    unfold put at *
    rcases hloc : locate Item.key k [] S with ⟨p, _ | ⟨c, l, b, r⟩⟩
    · rw [hloc] at ha; cases ha
    · rw [hloc] at ha hinc hrb hmem
      cases ha
      rw [hloc, link_node] at hsearch
      have hheld := h.focus hloc
      obtain ⟨L', e, hrep, hf⟩ := hheld.rep.setValue (d := .left) v
      have hne : t.nil ≠ a.ptr := fun e => hheld.nil_notMem (by rw [e]; simp [addrs, toList])
      have hheld' : Held t.nil none L' p (.node c l { a with value := v } r) :=
        ⟨hrep, by rw [hf _ hne, hheld.sentinel]⟩
      refine ⟨⟨L', t.nil, t.next⟩, ?_, fun e => absurd e hl, fun _ => h.renew (held_plug.1 hheld') hrb hinc le_rfl ?_⟩
      · simp only [modify, hsearch, Option.bind_eq_bind, Option.bind_some, e]
        rfl
      · intro b hb
        rcases hmem hb with rfl | hb
        · exact .inl (h.fresh a.ptr (List.mem_map_of_mem hkey.1))
        · exact .inr hb

theorem removeWith_found (check : Check) {k : T} {p : Trail (Item T T)} {c : Color} {l r : ColorTree (Item T T)}
    {a : Item T T} (h : Stores t S) (hloc : locate Item.key k [] S = (p, .node c l a r)) :
    ∃ L, removeWith check t.fuel k t = some ⟨L, t.nil, t.next⟩ ∧
      Held t.nil none L [] (removeHole p (.node c l a r)) := by
  have hplug := plug_of_locate hloc
  have hheld := h.focus hloc
  have hsearch := h.searchNode k h.height_lt_fuel
  rw [hloc, link_node] at hsearch
  have hheight := length_add_height_le p (.node c l a r)
  have hfuel := h.height_lt_fuel
  rw [hplug, ColorTree.height] at hheight
  have hright : r.height < t.fuel := by omega
  obtain ⟨par, L₁, e₁, h₁, hpar⟩ := unlink_spec hheld hright
  have hshort := check.run_of ((h₁.parentOf hpar).trans (shortParent_spec hheld hright).symm)
  obtain ⟨-, hblack⟩ := splice_spec (hplug ▸ h.redBlack)
  have hlen : (splice p (.node c l a r)).2.1.length + 1 < t.fuel := by
    have hlt := length_splice_lt_height p c l a r
    rw [hplug] at hlt
    omega
  obtain ⟨L₂, e₂, h₂⟩ := repair_spec check _ h₁ hpar hblack hlen
  obtain ⟨L₃, e₃, h₃⟩ := h₂.reset
  have hne : a.ptr ≠ t.nil := fun e => hheld.nil_notMem (by rw [← e]; simp [addrs, toList])
  refine ⟨L₃.free a.ptr, ?_, h₃.rep.free hheld.rep.removed_notMem, ?_⟩
  · simp only [removeWith, hsearch, Option.bind_eq_bind, Option.bind_some, if_neg hne, e₁, hshort, e₂, e₃]
    rfl
  · rw [← h₃.sentinel]
    exact Function.update_of_ne hne.symm _ _

theorem removeWith_spec (check : Check) (k : T) (h : Stores t S) :
    ∃ t', removeWith check t.fuel k t = some t' ∧ Stores t' (erase Item.key k S) := by
  have hinc := increasing_erase k h.increasing
  have hrb := isRedBlack_erase Item.key k h.redBlack
  have hmem {b : Item T T} := mem_erase (k := k) h.increasing (b := b)
  unfold erase at *
  rcases hloc : locate Item.key k [] S with ⟨p, _ | ⟨c, l, a, r⟩⟩
  · have hsearch := h.searchNode k h.height_lt_fuel
    rw [hloc, link_nil] at hsearch
    exact ⟨t, by simp [removeWith, hsearch], h⟩
  · obtain ⟨L, e, hheld⟩ := removeWith_found check h hloc
    rw [hloc] at hinc hrb hmem
    exact ⟨_, e, h.renew hheld hrb hinc le_rfl fun b hb => .inr (hmem hb)⟩

theorem cleanTree_spec (h : Stores t S) : ∃ t', cleanTree t = some t' ∧ Stores t' .nil := by
  have hclear : clear t.nil t.fuel t.links.root t.links = some () := by
    rw [h.root]
    exact clear_spec h.held.rep (Nat.lt_succ_of_le (Nat.le_succ_of_le h.size_le))
  let heap := Function.update (fun _ => none) t.nil (t.links.heap t.nil)
  refine ⟨⟨⟨heap, some t.nil⟩, t.nil, t.next⟩, by rw [cleanTree, hclear]; rfl,
    ⟨⟨rfl, trivial, List.nodup_nil, (by simp)⟩, ?_⟩, isRedBlack_nil, List.Pairwise.nil, (by simp), h.nil_lt⟩
  simp only [heap, Function.update_self, h.held.sentinel]

end Operations

end LearnSpdk.RBTree
