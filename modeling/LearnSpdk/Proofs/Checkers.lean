import LearnSpdk.Lib.ColorPaths
import LearnSpdk.Proofs.RedBlackFixup
import LearnSpdk.Spec.RBTree

/-! The checkers of the two red-black trees, on every coloured tree. One compares each way down
with the first one while it walks, the other collects all ways and compares them afterwards;
both find out whether the tree is red-black. -/

namespace LearnSpdk

open Lib ColorTree

namespace RedBlackTree

variable {K V : Type} {L : Links K V} {s l r : ColorTree (Item K V)} {a : Item K V} {c : Color}

/-- The links from the root spell the tree `S`, of nodes that were made. -/
structure Spells (t : RedBlackTree K V) (S : ColorTree (Item K V)) : Prop where
  root : t.links.root = S.link none
  hangs : Hangs t.links none S
  nodup : S.addrs.Nodup
  fresh : ∀ q ∈ S.addrs, q < t.next

theorem Spells.size_le {t : RedBlackTree K V} {S : ColorTree (Item K V)} (h : t.Spells S) :
    S.toList.length ≤ t.next := by
  simpa [addrs] using length_le_of_lt h.nodup h.fresh

theorem redChild_eq (hl : Hangs L none l) (hr : Hangs L none r) (par : Option Ptr) :
    redChild (a.cell .left c (l.link none) (r.link none) par) L =
      some (decide (¬(c = .red → l.color = .black ∧ r.color = .black))) := by
  rw [redChild, Item.cell_color, Item.cell_left, Item.cell_right, isBlack_of_hangs hl, isBlack_of_hangs hr]
  cases c <;> cases l.color <;> cases r.color <;> rfl

/-- What the walk finds out, with the count it came with and the count of the first way, if a
way has been seen. The first count is not negative, so it is told from -1. -/
theorem validateRb_iff {n : ℕ} {b p : ℤ} (h : Hangs L none s) (hn : s.toList.length ≤ n) (hb : 0 ≤ b) :
    ∃ ok q, validateRb n (s.link none) b p L = some (ok, q) ∧
      (ok = true ↔ ∃ m : ℕ, Balanced s m ∧ (p = -1 ∨ p = b + m)) ∧
      ∀ m : ℕ, ok = true → Balanced s m → q = b + m := by
  induction s generalizing n b p with
  | nil =>
    refine ⟨_, _, by rw [link_nil, validateRb], ?_, ?_⟩
    · simp only [decide_eq_true_iff, balanced_nil, exists_eq_left, Nat.cast_zero, add_zero]
      split_ifs with hp
      · simp [hp]
      · rw [eq_comm, or_iff_right hp]
    · intro m hok hm
      obtain rfl := balanced_nil.1 hm
      rw [decide_eq_true_iff] at hok
      rw [← hok, Nat.cast_zero, add_zero]
  | node c l a r ihl ihr =>
    obtain ⟨⟨par, ha⟩, hl, hr⟩ := h
    simp only [toList, List.length_append, List.length_cons] at hn
    obtain ⟨n, rfl⟩ : ∃ m, n = m + 1 := ⟨n - 1, by omega⟩
    have hw : b + (if c = .black then 1 else 0) = b + c.weight := by cases c <;> rfl
    rw [link_node, validateRb, ha]
    simp only [Option.bind_eq_bind, Option.bind_some, redChild_eq hl hr, Item.cell_left, Item.cell_right,
      Item.cell_color, hw]
    by_cases hc : c = .red → l.color = .black ∧ r.color = .black
    · obtain ⟨ok₁, q₁, e₁, hok₁, hq₁⟩ := ihl (n := n) (b := b + c.weight) (p := p) hl (by omega) (by omega)
      obtain ⟨ok₂, q₂, e₂, hok₂, hq₂⟩ := ihr (n := n) (b := b + c.weight) (p := q₁) hr (by omega) (by omega)
      rw [if_neg (by rw [decide_eq_true_iff, not_not]; exact hc), e₁, Option.bind_some]
      cases ok₁ with
      | false =>
        refine ⟨false, q₁, rfl, ?_, by simp⟩
        rw [Bool.false_eq_true, false_iff]
        rintro ⟨m, hm, hp⟩
        obtain ⟨-, k, rfl, hlk, -⟩ := balanced_node.1 hm
        refine absurd (hok₁.2 ⟨k, hlk, ?_⟩) (by simp)
        rcases hp with hp | hp
        · exact .inl hp
        · exact .inr (by push_cast at hp; omega)
      | true =>
        obtain ⟨k, hlk, hp⟩ := hok₁.1 rfl
        have hq := hq₁ k rfl hlk
        refine ⟨ok₂, q₂, e₂, hok₂.trans ⟨?_, ?_⟩, ?_⟩
        · rintro ⟨k', hrk, hq'⟩
          obtain rfl : k' = k := by omega
          refine ⟨k' + c.weight, balanced_node.2 ⟨hc, k', rfl, hlk, hrk⟩, ?_⟩
          rcases hp with hp | hp
          · exact .inl hp
          · exact .inr (by push_cast; omega)
        · rintro ⟨m, hm, -⟩
          obtain ⟨-, k', rfl, hlk', hrk⟩ := balanced_node.1 hm
          obtain rfl := hlk.unique hlk'
          exact ⟨k, hrk, .inr hq⟩
        · intro m hok hm
          obtain ⟨-, k', rfl, -, hrk⟩ := balanced_node.1 hm
          rw [hq₂ k' hok hrk]
          push_cast
          omega
    · refine ⟨false, p, by rw [if_pos (decide_eq_true hc)]; rfl, ?_, by simp⟩
      rw [Bool.false_eq_true, false_iff]
      rintro ⟨m, hm, -⟩
      exact hc (balanced_node.1 hm).1

theorem validate_iff {t : RedBlackTree K V} {S : ColorTree (Item K V)} (h : t.Spells S) :
    ∃ ok, t.validate = some ok ∧ (ok = true ↔ IsRedBlack S) := by
  unfold validate
  cases S with
  | nil =>
    have hroot : t.links.root = none := h.root
    exact ⟨true, by rw [if_pos hroot]; rfl, by simp [isRedBlack_nil]⟩
  | node c l a r =>
    have hroot : t.links.root = some a.ptr := h.root
    obtain ⟨par, ha⟩ := h.hangs.1
    obtain ⟨ok, q, e, hok, -⟩ := validateRb_iff (n := t.next + 2) (b := 0) (p := -1) h.hangs
      (Nat.le_add_right_of_le h.size_le) le_rfl
    rw [link_node] at e
    simp only [hroot, Links.deref_some, ha, Option.bind_eq_bind, Option.bind_some, Item.cell_color, e]
    cases c with
    | red => exact ⟨false, rfl, by simp [IsRedBlack, color]⟩
    | black => exact ⟨ok, rfl, by simpa [IsRedBlack, color] using hok⟩

end RedBlackTree

namespace RBTree

variable {T : Type} {nil : Ptr} {L : Links T T} {s l r : ColorTree (Item T T)} {a : Item T T} {c : Color}

/-- The links from the root spell the tree `S`, of nodes that were made; where a child is missing
is the black sentinel. -/
structure Spells (t : RBTree T) (S : ColorTree (Item T T)) : Prop where
  root : t.links.root = S.link (some t.nil)
  hangs : Hangs t.links (some t.nil) S
  nodup : S.addrs.Nodup
  fresh : ∀ q ∈ S.addrs, q < t.next
  real : ∀ q ∈ S.addrs, q ≠ t.nil
  sentinel : ∃ cell, t.links.heap t.nil = some cell ∧ cell.color = .black

theorem Spells.size_le {t : RBTree T} {S : ColorTree (Item T T)} (h : t.Spells S) :
    S.toList.length ≤ t.next := by
  simpa [addrs] using length_le_of_lt h.nodup h.fresh

/-- The cells of a tree, none of which is the sentinel. -/
structure Walkable (nil : Ptr) (L : Links T T) (s : ColorTree (Item T T)) : Prop where
  hangs : Hangs L (some nil) s
  real : ∀ q ∈ s.addrs, q ≠ nil

theorem Spells.walkable {t : RBTree T} {S : ColorTree (Item T T)} (h : t.Spells S) :
    Walkable t.nil t.links S := ⟨h.hangs, h.real⟩

theorem Walkable.node (h : Walkable nil L (.node c l a r)) :
    (∃ par, L.heap a.ptr = some (a.cell .left c (l.link (some nil)) (r.link (some nil)) par)) ∧
      some a.ptr ≠ some nil ∧ Walkable nil L l ∧ Walkable nil L r := by
  obtain ⟨ha, hl, hr⟩ := h.hangs
  have hreal := h.real
  simp only [addrs, toList, List.map_append, List.map_cons, List.forall_mem_append,
    List.forall_mem_cons] at hreal
  exact ⟨ha, fun e => hreal.2.1 (Option.some_inj.1 e), ⟨hl, hreal.1⟩, ⟨hr, hreal.2.2⟩⟩

theorem deref_of_hangs (hnil : ∃ cell, L.heap nil = some cell ∧ cell.color = .black)
    (h : Hangs L (some nil) s) :
    ∃ cell, L.deref (s.link (some nil)) = some cell ∧ cell.color = s.color := by
  cases s with
  | nil => exact hnil
  | node c l a r =>
    obtain ⟨par, ha⟩ := h.1
    exact ⟨_, ha, rfl⟩

theorem redChild_eq (hnil : ∃ cell, L.heap nil = some cell ∧ cell.color = .black)
    (hl : Hangs L (some nil) l) (hr : Hangs L (some nil) r) (par : Option Ptr) :
    redChild (a.cell .left c (l.link (some nil)) (r.link (some nil)) par) L =
      some (decide (¬(c = .red → l.color = .black ∧ r.color = .black))) := by
  obtain ⟨cl, el, hcl⟩ := deref_of_hangs hnil hl
  obtain ⟨cr, er, hcr⟩ := deref_of_hangs hnil hr
  simp only [redChild, Item.cell_color, Item.cell_left, Item.cell_right, el, er, Option.bind_eq_bind,
    Option.bind_some, hcl, hcr]
  cases c <;> cases l.color <;> cases r.color <;> rfl

theorem checkRedProperty_iff {n : ℕ} (hnil : ∃ cell, L.heap nil = some cell ∧ cell.color = .black)
    (h : Walkable nil L s) (hn : s.toList.length < n) :
    ∃ ok, checkRedProperty nil n (s.link (some nil)) L = some ok ∧ (ok = true ↔ s.NoRedRed) := by
  induction s generalizing n with
  | nil =>
    obtain ⟨n, rfl⟩ : ∃ m, n = m + 1 := ⟨n - 1, by omega⟩
    exact ⟨true, by simp [checkRedProperty], by simp [NoRedRed]⟩
  | node c l a r ihl ihr =>
    obtain ⟨⟨par, ha⟩, hne, hl, hr⟩ := h.node
    simp only [toList, List.length_append, List.length_cons] at hn
    obtain ⟨n, rfl⟩ : ∃ m, n = m + 1 := ⟨n - 1, by omega⟩
    obtain ⟨ok₁, e₁, hok₁⟩ := ihl (n := n) hl (by omega)
    obtain ⟨ok₂, e₂, hok₂⟩ := ihr (n := n) hr (by omega)
    simp only [link_node, checkRedProperty, if_neg hne, Links.deref_some, ha, Option.bind_eq_bind,
      Option.bind_some, redChild_eq hnil hl.hangs hr.hangs, Item.cell_left, Item.cell_right, e₁, e₂]
    rw [NoRedRed, ← hok₁, ← hok₂]
    by_cases hc : c = .red → l.color = .black ∧ r.color = .black
    · rw [if_neg (by rw [decide_eq_true_iff, not_not]; exact hc)]
      cases ok₁ with
      | false => exact ⟨false, rfl, by simp⟩
      | true => exact ⟨ok₂, rfl, by simp only [true_and, iff_and_self]; exact fun _ => hc⟩
    · rw [if_pos (decide_eq_true hc)]
      exact ⟨false, rfl, by simp only [Bool.false_eq_true, false_iff]; exact fun h => hc h.1⟩

theorem checkBlackHeight_eq {n : ℕ} {b : ℤ} (counts : List ℤ) (h : Walkable nil L s)
    (hn : s.toList.length < n) :
    ∃ x, checkBlackHeight nil n (s.link (some nil)) b L counts =
      some (x, counts ++ s.ways.map fun w => b + w.count .black) := by
  induction s generalizing n b counts with
  | nil =>
    obtain ⟨n, rfl⟩ : ∃ m, n = m + 1 := ⟨n - 1, by omega⟩
    exact ⟨b, by simp [checkBlackHeight, ways]⟩
  | node c l a r ihl ihr =>
    obtain ⟨⟨par, ha⟩, hne, hl, hr⟩ := h.node
    simp only [toList, List.length_append, List.length_cons] at hn
    obtain ⟨n, rfl⟩ : ∃ m, n = m + 1 := ⟨n - 1, by omega⟩
    have hw : (if c = .black then b + 1 else b) = b + c.weight := by cases c <;> simp [Color.weight]
    have hcount (w : List Color) : b + c.weight + (w.count .black : ℤ) = b + ((c :: w).count .black : ℤ) := by
      rw [count_cons]
      push_cast
      omega
    obtain ⟨x₁, e₁⟩ := ihl (n := n) (b := b + c.weight) counts hl (by omega)
    obtain ⟨x₂, e₂⟩ := ihr (n := n) (b := b + c.weight)
      (counts ++ l.ways.map fun w => b + c.weight + w.count .black) hr (by omega)
    refine ⟨b + c.weight, ?_⟩
    simp only [link_node, checkBlackHeight, if_neg hne, Links.deref_some, ha, Option.bind_eq_bind,
      Option.bind_some, Item.cell_color, Item.cell_left, Item.cell_right, hw, e₁, e₂]
    simp only [ways, List.map_append, List.map_map, Function.comp_def, hcount, List.append_assoc]
    rfl

theorem all_tail_iff {ws : List (List Color)} {first : ℤ} {rest : List ℤ}
    (h : ws.map (fun w => (w.count .black : ℤ)) = first :: rest) :
    rest.all (· = first) = true ↔ ∀ p ∈ ws, ∀ q ∈ ws, p.count .black = q.count .black := by
  cases ws with
  | nil => cases h
  | cons p ws =>
    obtain ⟨rfl, rfl⟩ := List.cons.inj h
    simp only [List.all_map, List.all_eq_true, Function.comp_apply, decide_eq_true_iff, Nat.cast_inj]
    refine ⟨?_, ?_⟩
    · intro hall q hq q' hq'
      have hfirst : ∀ w ∈ p :: ws, w.count .black = p.count .black := List.forall_mem_cons.2 ⟨rfl, hall⟩
      rw [hfirst q hq, hfirst q' hq']
    · intro hall w hw
      exact hall w (List.mem_cons_of_mem _ hw) p List.mem_cons_self

theorem verifyRBProperties_iff {t : RBTree T} {S : ColorTree (Item T T)} (h : t.Spells S) :
    ∃ ok, t.verifyRBProperties = some ok ∧ (ok = true ↔ IsRedBlack S) := by
  unfold verifyRBProperties
  cases S with
  | nil =>
    have hroot : t.links.root = some t.nil := h.root
    exact ⟨true, by rw [if_pos hroot]; rfl, by simp [isRedBlack_nil]⟩
  | node c l a r =>
    have hroot : t.links.root = some a.ptr := h.root
    obtain ⟨⟨par, ha⟩, hne, -, -⟩ := h.walkable.node
    have hfuel : (node c l a r).toList.length < t.fuel := Nat.lt_succ_of_le (Nat.le_succ_of_le h.size_le)
    obtain ⟨ok, e₁, hok⟩ := checkRedProperty_iff h.sentinel h.walkable hfuel
    obtain ⟨x, e₂⟩ := checkBlackHeight_eq (b := 0) [] h.walkable hfuel
    rw [link_node] at e₁ e₂
    simp only [hroot, if_neg hne, Links.deref_some, ha, Option.bind_eq_bind, Option.bind_some, Item.cell_color,
      e₁, e₂, List.nil_append, zero_add]
    rw [isRedBlack_iff_ways]
    cases c with
    | red => exact ⟨false, by simp, by simp [color]⟩
    | black =>
      cases ok with
      | false => exact ⟨false, by simp, by simp [← hok]⟩
      | true =>
        obtain ⟨first, rest, hcounts⟩ := List.exists_cons_of_ne_nil
          (show (node .black l a r).ways.map (fun w => (w.count .black : ℤ)) ≠ [] by simp [ways_ne_nil])
        refine ⟨rest.all (· = first), by simp [hcounts], ?_⟩
        rw [all_tail_iff hcounts]
        simp [color, hok.1 rfl, EvenWays]

end RBTree

/-- On trees of one shape with the same colours the two checkers give the same answer: whether
the tree is empty, or its root is black, no red node has a red child and all ways down pass the
same number of black nodes. -/
theorem checkers_agree {K V T : Type} {t : RedBlackTree K V} {t' : RBTree T} {S : ColorTree (Item K V)}
    {S' : ColorTree (Item T T)} (h : t.Spells S) (h' : t'.Spells S')
    (hsame : S.map (fun _ => ()) = S'.map fun _ => ()) :
    ∃ ok, t.validate = some ok ∧ t'.verifyRBProperties = some ok ∧
      (ok = true ↔ S = .nil ∨ S.color = .black ∧ S.NoRedRed ∧ S.EvenWays) := by
  obtain ⟨ok, e, hok⟩ := RedBlackTree.validate_iff h
  obtain ⟨ok', e', hok'⟩ := RBTree.verifyRBProperties_iff h'
  have hrb : IsRedBlack S ↔ IsRedBlack S' := by
    rw [← isRedBlack_map fun _ => (), hsame, isRedBlack_map]
  have heq : ok' = ok := Bool.eq_iff_iff.2 (hok'.trans (hrb.symm.trans hok.symm))
  exact ⟨ok, e, heq ▸ e', by rw [hok, isRedBlack_iff_ways]⟩

def lopsided : ColorTree (Item ℕ ℕ) := .node .black (.node .black .nil ⟨2, 1, 1⟩ .nil) ⟨1, 2, 2⟩ .nil

def lopsidedTree : RedBlackTree ℕ ℕ where
  links := {
    heap := fun q =>
      if q = 1 then some ⟨2, 2, .black, some 2, none, none⟩
      else if q = 2 then some ⟨1, 1, .black, none, none, some 1⟩
      else none
    root := some 1 }
  count := 2
  next := 3

def lopsidedSentinelTree : RBTree ℕ where
  links := {
    heap := fun q =>
      if q = 0 then some (RBTree.nilCell none)
      else if q = 1 then some ⟨2, 2, .black, some 2, some 0, none⟩
      else if q = 2 then some ⟨1, 1, .black, some 0, some 0, some 1⟩
      else none
    root := some 1 }
  nil := 0
  next := 3

theorem lopsidedTree_spells : lopsidedTree.Spells lopsided :=
  ⟨rfl, ⟨⟨none, rfl⟩, ⟨⟨some 1, rfl⟩, trivial, trivial⟩, trivial⟩, by decide, by decide⟩

theorem checkers_agree_of_lopsided :
    ∃ ok, lopsidedTree.validate = some ok ∧ lopsidedSentinelTree.verifyRBProperties = some ok ∧
      (ok = true ↔ lopsided = .nil ∨ lopsided.color = .black ∧ lopsided.NoRedRed ∧ lopsided.EvenWays) := by
  have h' : lopsidedSentinelTree.Spells lopsided :=
    ⟨rfl, ⟨⟨none, rfl⟩, ⟨⟨some 1, rfl⟩, trivial, trivial⟩, trivial⟩, by decide, by decide, by decide, _, rfl, rfl⟩
  exact checkers_agree lopsidedTree_spells h' rfl

end LearnSpdk
