import LearnSpdk.Lib.SearchTree

/-! The operations of a red-black search tree look at the keys of the items only:
they commute with every map of the items that keeps the keys. -/

namespace Lib

open ColorTree Trail

variable {α β κ : Type*} (f : α → β)

theorem raise_map (p : Trail α) (t : ColorTree α) :
    raise (p.map f) (t.map f) = (raise p t).map f := by
  fun_induction raise p t with
  | case1 g h p t hg hu ih =>
    rw [← ih]
    simp [raise, Frame.map, hg, hu]
  | case2 g h p t hg hu hs => simp [raise, Frame.map, hg, hu, hs, map_plug]
  | case3 g h p t hg hu hs c x a y hsplit =>
    simp [raise, Frame.map, hg, hu, hs, map_plug, split_map, hsplit]
  | case4 g h p t hg hu hs hsplit =>
    simp [raise, Frame.map, hg, hu, hs, map_plug, split_map, hsplit]
  | case5 g h p t hg => simp [raise, Frame.map, hg, map_plug]
  | case6 p t hp =>
    rcases p with _ | ⟨g, _ | ⟨h, p⟩⟩
    · rfl
    · simp [raise, map_plug]
    · exact absurd rfl (hp g h p)

theorem insertHole_map (p : Trail α) (a : α) :
    insertHole (p.map f) (f a) = (insertHole p a).map f := by
  unfold insertHole fixInsert
  rw [map_blacken, ← raise_map]
  rfl

def Round.map : Round α → Round β
  | .done t => .done (t.map f)
  | .up t => .up (t.map f)

theorem settle_map (d : Side) (c : Color) (x : ColorTree α) (a : α) (s : ColorTree α) :
    settle d c (x.map f) (f a) (s.map f) = (settle d c x a s).map f := by
  unfold settle
  rw [split_map]
  cases s.split d with
  | none => simp [Round.map]
  | some n =>
    obtain ⟨k, near, w, far⟩ := n
    simp only [Option.map_some, color_map, split_map]
    split_ifs
    · simp [Round.map]
    · cases near.split d with
      | none => simp [Round.map]
      | some n => simp [Round.map]
    · simp [Round.map]

theorem fixDelete_map (p : Trail α) (x : ColorTree α) :
    fixDelete (p.map f) (x.map f) = (fixDelete p x).map f := by
  fun_induction fixDelete p x with
  | case1 x => simp [fixDelete]
  | case2 g p x hx => simp [fixDelete, hx, map_plug]
  | case3 g p x hx near w far hs t ht =>
    have hm := settle_map f g.side .red x g.item near
    simp [fixDelete, hx, Frame.map, split_map, hs, hm, ht, Round.map, map_plug]
  | case4 g p x hx near w far hs t ht =>
    have hm := settle_map f g.side .red x g.item near
    simp [fixDelete, hx, Frame.map, split_map, hs, hm, ht, Round.map, map_plug]
  | case5 g p x hx t ht hs =>
    have hm := settle_map f g.side g.color x g.item g.other
    cases hsplit : g.other.split g.side with
    | none => simp [fixDelete, hx, Frame.map, split_map, hsplit, hm, ht, Round.map, map_plug]
    | some n =>
      obtain ⟨_ | _, near, w, far⟩ := n
      · exact absurd hsplit (hs near w far)
      · simp [fixDelete, hx, Frame.map, split_map, hsplit, hm, ht, Round.map, map_plug]
  | case6 g p x hx t ht hs ih =>
    have hm := settle_map f g.side g.color x g.item g.other
    cases hsplit : g.other.split g.side with
    | none => simp [fixDelete, hx, Frame.map, split_map, hsplit, hm, ht, Round.map, ih]
    | some n =>
      obtain ⟨_ | _, near, w, far⟩ := n
      · exact absurd hsplit (hs near w far)
      · simp [fixDelete, hx, Frame.map, split_map, hsplit, hm, ht, Round.map, ih]

theorem leftmost_map (p : Trail α) (t : ColorTree α) :
    leftmost (p.map f) (t.map f) = ((leftmost p t).1.map f, (leftmost p t).2.map f) := by
  fun_induction leftmost p t with
  | case1 p => rfl
  | case2 p c a r => rfl
  | case3 p c c' l' a' r' a r ih => exact ih

theorem splice_map (p : Trail α) (t : ColorTree α) :
    splice (p.map f) (t.map f) =
      ((splice p t).1, (splice p t).2.1.map f, (splice p t).2.2.map f) := by
  rcases t with _ | ⟨c, _ | ⟨cl, ll, al, rl⟩, a, _ | ⟨cr, lr, ar, rr⟩⟩
  · rfl
  · rfl
  · rfl
  · rfl
  · obtain ⟨q, cs, s, x, hq, -, -⟩ := leftmost_spec (node_ne_nil cr lr ar rr)
    have hm := leftmost_map f [] (.node cr lr ar rr)
    rw [hq] at hm
    simp only [ColorTree.map, Trail.map_nil] at hm
    simp only [ColorTree.map, splice, hq, hm, Trail.map, List.map_append, List.map_cons]
    rfl

theorem removeHole_map (p : Trail α) (t : ColorTree α) :
    removeHole (p.map f) (t.map f) = (removeHole p t).map f := by
  unfold removeHole
  rw [splice_map]
  cases (splice p t).1 with
  | red => exact (map_plug f _ _).symm
  | black => exact fixDelete_map f _ _

section Keys

variable [LinearOrder κ] {key : α → κ} {key' : β → κ} {f} (hf : ∀ a, key' (f a) = key a)
include hf

theorem locate_map (k : κ) (p : Trail α) (t : ColorTree α) :
    locate key' k (p.map f) (t.map f) = ((locate key k p t).1.map f, (locate key k p t).2.map f) := by
  fun_induction locate key k p t with
  | case1 p => rfl
  | case2 p c l a r hk ih =>
    rw [ColorTree.map, locate, hf, if_pos hk]
    exact ih
  | case3 p c l a r hk hk' ih =>
    rw [ColorTree.map, locate, hf, if_neg hk, if_pos hk']
    exact ih
  | case4 p c l a r hk hk' => rw [ColorTree.map, locate, hf, if_neg hk, if_neg hk']

theorem put_map {new : Option α → α} {new' : Option β → β} (k : κ) (t : ColorTree α)
    (hnew : ∀ o, new' (o.map f) = f (new o)) :
    put key' k new' (t.map f) = (put key k new t).map f := by
  have hloc := locate_map hf k [] t
  unfold put
  rw [Trail.map_nil] at hloc
  rw [hloc]
  rcases locate key k [] t with ⟨p, _ | ⟨c, l, a, r⟩⟩
  · simp only [ColorTree.map_nil]
    rw [← insertHole_map, ← hnew]
    rfl
  · simp only [ColorTree.map]
    rw [map_plug, ColorTree.map, ← hnew]
    rfl

theorem erase_map (k : κ) (t : ColorTree α) : erase key' k (t.map f) = (erase key k t).map f := by
  have hloc := locate_map hf k [] t
  unfold erase
  rw [Trail.map_nil] at hloc
  rw [hloc]
  rcases locate key k [] t with ⟨p, _ | ⟨c, l, a, r⟩⟩
  · rfl
  · exact removeHole_map f p (.node c l a r)

end Keys

end Lib
