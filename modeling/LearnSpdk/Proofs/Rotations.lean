import LearnSpdk.Lib.TreeRotation
import LearnSpdk.Proofs.RedBlackTreeRuns

/-! The rotations of `RedBlackTree` on every linked tree, whatever its keys and colours: what they
keep, which links they write, and that `left_rotate` and `right_rotate` undo each other. -/

namespace LearnSpdk.RedBlackTree

open Lib ColorTree Trail

variable {K V : Type} {t : RedBlackTree K V} {S : ColorTree (Item K V)}

/-- `L'` is the tree `t` turned at `x`, with `y` in its place: the same nodes in the same order, each
with its key, value and colour, and no link written but those of a turn. -/
structure Rotated (d : Side) (x y : Ptr) (t : RedBlackTree K V) (L' : Links K V) : Prop where
  inorder : ∃ entries, inorder t = some entries ∧ RedBlackTree.inorder { t with links := L' } = some entries
  nodes : ∃ S S', t.Spells S ∧ Spells { t with links := L' } S' ∧ S'.toList = S.toList
  data : ∀ q, (L'.heap q).map Cell.data = (t.links.heap q).map Cell.data
  parents : ParentsInverse L'
  turned : ∃ c k, Turned d x y c k t.links L'

/-- A rotation spells the turned tree, out of the same nodes. -/
theorem Spells.of_rep {L' : Links K V} {S' : ColorTree (Item K V)} (h : t.Spells S) (h' : Rep L' none [] S')
    (hlist : S'.toList = S.toList) : Spells { t with links := L' } S' := by
  have haddrs : S'.addrs = S.addrs := by rw [addrs, hlist, addrs]
  refine ⟨h'.above, h'.below.hangs, ?_, ?_⟩
  · rw [haddrs]
    exact h.nodup
  · rw [haddrs]
    exact h.fresh

/-- Both rotations at once: the turn at `x` towards `d`, and the turn at `y` back. -/
theorem rotate_spec {x y : Ptr} {c : Cell K V} {d : Side} (h : t.Spells S) (hp : ParentsInverse t.links)
    (hx : x ∈ S.addrs) (hc : t.links.heap x = some c) (hd : c.child d.other = some y) :
    ∃ L', rotate some d (some x) t.links = some L' ∧ Rotated d x y t L' ∧
      rotate some d.other (some y) L' = some t.links := by
  have hrep : Rep t.links none [] S := hp.rep h.root h.hangs h.nodup
  obtain ⟨p, k, s, a, o, rfl, rfl, hfocus, hcell⟩ := hrep.of_mem d hx
  cases hc.symm.trans hcell
  rw [Item.cell_child_other] at hd
  have ho : o ≠ .nil := by
    rintro rfl
    cases hd
  obtain ⟨k', u, b, v, rfl⟩ := exists_join d ho
  rw [link_join] at hd
  cases hd
  obtain ⟨L', e, h', hw⟩ := hfocus.rotate
  have hlist : (plug p (join d k' (join d k s a u) b v)).toList =
      (plug p (join d k s a (join d k' u b v))).toList := toList_plug_congr p (toList_rotate ..).symm
  have hroot : Rep L' none [] (plug p (join d k' (join d k s a u) b v)) := rep_plug.1 h'
  have hspells := h.of_rep hroot hlist
  have hturned := hfocus.turned h' hw
  refine ⟨L', by rw [rotate_eq some hfocus, e], ?_, ?_⟩
  · refine ⟨⟨_, h.inorder, ?_⟩, ⟨_, _, h, hspells, hlist⟩, hturned.data, hroot.parentsInverse, _, _, hturned⟩
    rw [hspells.inorder, pairs, hlist, pairs]
  · have hback : Rep L' none p (join d.other k' v b (join d.other k u a s)) := by
      rw [join_other, join_other]
      exact h'
    rw [rotate_eq some hback, hfocus.rotate_back e]

theorem run_rotate [LinearOrder K] (ops : List (Op K V)) :
    ∃ t T, run ops = some t ∧ t.Spells T ∧
      ∀ x ∈ T.addrs, ∀ c d y, t.links.heap x = some c → c.child d.other = some y →
        ∃ L', rotate some d (some x) t.links = some L' ∧ Rotated d x y t L' ∧
          rotate some d.other (some y) L' = some t.links := by
  obtain ⟨t, T, e, h, -⟩ := run_spec ops
  refine ⟨t, T, e, h.spells, ?_⟩
  intro x hx c d y hc hd
  exact rotate_spec h.spells h.rep.parentsInverse hx hc hd

/-- On every linked tree whose parent links are the inverse of its child links, at every node: the
rotation towards one side of a node with a child on the other side turns the tree there, and the
rotation of that child towards the other side restores the root and every cell. -/
theorem rotations_local_invertible {x : Ptr} {c : Cell K V} (h : t.Spells S) (hp : ParentsInverse t.links)
    (hx : x ∈ S.addrs) (hc : t.links.heap x = some c) :
    (∀ y, c.right = some y → ∃ L', leftRotate some (some x) t.links = some L' ∧ Rotated .left x y t L' ∧
      rightRotate some (some y) L' = some t.links) ∧
    ∀ y, c.left = some y → ∃ L', rightRotate some (some x) t.links = some L' ∧ Rotated .right x y t L' ∧
      leftRotate some (some y) L' = some t.links := by
  refine ⟨?_, ?_⟩
  · intro y hy
    exact rotate_spec (d := .left) h hp hx hc hy
  · intro y hy
    exact rotate_spec (d := .right) h hp hx hc hy

/-- A left child with both children, one of which has a left child. -/
def branch : ColorTree (Item ℕ ℕ) :=
  .node .black (.node .red (.node .black .nil ⟨3, 2, 2⟩ .nil) ⟨2, 4, 4⟩
    (.node .black (.node .red .nil ⟨5, 5, 5⟩ .nil) ⟨4, 6, 6⟩ .nil)) ⟨1, 7, 7⟩ .nil

def branchTree : RedBlackTree ℕ ℕ where
  links := {
    heap := fun q =>
      if q = 1 then some ⟨7, 7, .black, some 2, none, none⟩
      else if q = 2 then some ⟨4, 4, .red, some 3, some 4, some 1⟩
      else if q = 3 then some ⟨2, 2, .black, none, none, some 2⟩
      else if q = 4 then some ⟨6, 6, .black, some 5, none, some 2⟩
      else if q = 5 then some ⟨5, 5, .red, none, none, some 4⟩
      else none
    root := some 1 }
  count := 5
  next := 6

theorem branchTree_rep : Rep branchTree.links none [] branch :=
  ⟨rfl, ⟨rfl, ⟨rfl, ⟨rfl, trivial, trivial⟩, ⟨rfl, ⟨rfl, trivial, trivial⟩, trivial⟩⟩, trivial⟩, by decide,
    fun q _ => Option.some_ne_none q⟩

theorem branchTree_spells : branchTree.Spells branch :=
  ⟨rfl, branchTree_rep.below.hangs, by decide, by decide⟩

theorem rotations_of_branchTree :
    (∃ L', leftRotate some (some 2) branchTree.links = some L' ∧ Rotated .left 2 4 branchTree L' ∧
      rightRotate some (some 4) L' = some branchTree.links) ∧
    ∃ L', rightRotate some (some 2) branchTree.links = some L' ∧ Rotated .right 2 3 branchTree L' ∧
      leftRotate some (some 3) L' = some branchTree.links := by
  have h := rotations_local_invertible (x := 2) branchTree_spells branchTree_rep.parentsInverse (by decide) rfl
  exact ⟨h.1 4 rfl, h.2 3 rfl⟩

end LearnSpdk.RedBlackTree
