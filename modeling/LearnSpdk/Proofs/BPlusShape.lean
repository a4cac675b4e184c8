import LearnSpdk.Proofs.BPlusLookup
import Mathlib.Algebra.BigOperators.Group.List.Basic
import Mathlib.Tactic.Ring

/-! The shape of a tree after a run of insertions: one more child than keys in every
internal node, and `degree - 1` keys in every node but the root. Only a split of an
internal root breaks it, by erasing a key without a child. The number of children too
many is never changed by anything else, so the damage stays. -/

namespace LearnSpdk

open Lib BPlus

variable {K V : Type}

namespace Node

def nodes : Node K → List (Node K)
  | .leaf p => [.leaf p]
  | .internal keys children => .internal keys children :: all children
where
  all : List (Node K) → List (Node K)
    | [] => []
    | c :: cs => c.nodes ++ all cs

/-- How many children the internal nodes have beyond one more than their keys. -/
def excess : Node K → ℤ
  | .leaf _ => 0
  | .internal keys children => children.length - keys.length - 1 + all children
where
  all : List (Node K) → ℤ
    | [] => 0
    | c :: cs => c.excess + all cs

theorem nodes_internal (keys : List K) (children : List (Node K)) :
    (internal keys children).nodes = .internal keys children :: children.flatMap nodes := by
  have hall (cs : List (Node K)) : nodes.all cs = cs.flatMap nodes := by
    induction cs with
    | nil => rfl
    | cons c cs ih => rw [nodes.all, ih, List.flatMap_cons]
  rw [nodes, hall]

theorem flatMap_nodes_leaf (ps : List ℕ) :
    (ps.map (leaf (K := K))).flatMap nodes = ps.map .leaf := by
  induction ps with
  | nil => rfl
  | cons p ps ih => simp [nodes, ih]

theorem excess_internal (keys : List K) (children : List (Node K)) :
    (internal keys children).excess =
      children.length - keys.length - 1 + (children.map excess).sum := by
  have hall (cs : List (Node K)) : excess.all cs = (cs.map excess).sum := by
    induction cs with
    | nil => rfl
    | cons c cs ih => rw [excess.all, ih, List.map_cons, List.sum_cons]
  rw [excess, hall]

theorem induct {P : Node K → Prop} (leaf : ∀ p, P (.leaf p))
    (internal : ∀ keys children, (∀ c ∈ children, P c) → P (.internal keys children)) (n : Node K) :
    P n := by
  induction hn : n.depth using Nat.strong_induction_on generalizing n with
  | _ d ih =>
    cases n with
    | leaf p => exact leaf p
    | internal keys children =>
      refine internal keys children fun c hc => ih c.depth ?_ c rfl
      rw [← hn]
      exact Nat.lt_succ_of_le (depth_le_depths hc)

/-- A tree without a child too many or too few has no excess. -/
theorem excess_eq_zero (n : Node K)
    (h : ∀ keys children, internal keys children ∈ n.nodes → children.length = keys.length + 1) :
    n.excess = 0 := by
  induction n using induct with
  | leaf p => rw [excess]
  | internal keys children ih =>
    rw [nodes_internal] at h
    have hsum : (children.map excess).sum = 0 := by
      refine List.sum_eq_zero ?_
      intro x hx
      obtain ⟨c, hc, rfl⟩ := List.mem_map.1 hx
      refine ih c hc fun ks cs hcs => h ks cs ?_
      exact List.mem_cons_of_mem _ (List.mem_flatMap.2 ⟨c, hc, hcs⟩)
    rw [excess_internal, hsum, h keys children (by simp)]
    push_cast
    ring

inductive Roomy : Node K → Prop
  | leaf (p : ℕ) : Roomy (.leaf p)
  | internal {keys : List K} {children : List (Node K)} (hlen : keys.length + 1 ≤ children.length)
      (hall : ∀ c ∈ children, Roomy c) : Roomy (.internal keys children)

theorem Roomy.children {keys : List K} {children : List (Node K)} (h : (Node.internal keys children).Roomy) :
    keys.length + 1 ≤ children.length ∧ ∀ c ∈ children, c.Roomy := by
  cases h with
  | internal hlen hall => exact ⟨hlen, hall⟩

end Node

namespace BPlus

variable {degree : ℕ}

theorem splitInternal_eq {keys : List K} {children : List (Node K)}
    (h : keys.length + 1 ≤ children.length) :
    splitInternal keys children =
      some ((keys.take (keys.length / 2), children.take (keys.length / 2 + 1)),
        (keys.drop (keys.length / 2 + 1), children.drop (keys.length / 2 + 1))) := by
  rw [splitInternal, if_neg]
  omega

theorem splitInternal_roomy {keys : List K} {children : List (Node K)} (hkeys : 0 < keys.length)
    (h : (Node.internal keys children).Roomy) :
    (Node.internal (keys.take (keys.length / 2)) (children.take (keys.length / 2 + 1))).Roomy ∧
    (Node.internal (keys.drop (keys.length / 2 + 1)) (children.drop (keys.length / 2 + 1))).Roomy := by
  obtain ⟨hlen, hall⟩ := h.children
  refine ⟨?_, ?_⟩
  · refine .internal ?_ fun c hc => hall c (List.mem_of_mem_take hc)
    simp only [List.length_take]
    omega
  · refine .internal ?_ fun c hc => hall c (List.mem_of_mem_drop hc)
    simp only [List.length_drop]
    omega

theorem sum_take_add_drop (children : List (Node K)) (n : ℕ) :
    ((children.take n).map Node.excess).sum + ((children.drop n).map Node.excess).sum =
      (children.map Node.excess).sum := by
  rw [← List.sum_append, ← List.map_append, List.take_append_drop]

theorem splitLeafNode_roomy {p : ℕ} {H : Leaves K V} (hdegree : 2 ≤ degree)
    (hfull : isFull degree (leafAt H p).keys = true) :
    ∃ s, splitLeafNode p H = some (.leaf p, s, .leaf H.length, splitLeaf p H) := by
  have hlen := isFull_eq_true.1 hfull
  exact ⟨_, splitLeafNode_eq (List.getElem?_eq_getElem (by omega))⟩

/-- The split of a full internal root does not fault, and leaves one child too many. -/
theorem splitRoot_roomy {keys : List K} {children : List (Node K)} (hdegree : 2 ≤ degree)
    (h : (Node.internal keys children).Roomy) (hfull : isFull degree keys = true) (H : Leaves K V) :
    ∃ left s right, splitRoot (.internal keys children) H = some (left, s, right, H) ∧ left.Roomy ∧
      right.Roomy ∧ left.excess + right.excess = (Node.internal keys children).excess + 1 := by
  have hkeys : 2 * degree - 1 ≤ keys.length := isFull_eq_true.1 hfull
  obtain ⟨hleft, hright⟩ := splitInternal_roomy (by omega) h
  have hlen := h.children.1
  have hmid : (keys.take (keys.length / 2)).length = keys.length / 2 := by
    rw [List.length_take]
    omega
  have hlt : keys.length / 2 / 2 < (keys.take (keys.length / 2)).length := by omega
  obtain ⟨s, hs⟩ : ∃ s, (keys.take (keys.length / 2))[keys.length / 2 / 2]? = some s :=
    ⟨_, List.getElem?_eq_getElem hlt⟩
  have herase := List.length_eraseIdx_of_lt hlt
  refine ⟨.internal ((keys.take (keys.length / 2)).eraseIdx (keys.length / 2 / 2))
    (children.take (keys.length / 2 + 1)), s, _, ?_, ?_, hright, ?_⟩
  · simp only [splitRoot, splitInternal_eq hlen, Option.bind_eq_bind, Option.bind_some, hmid, hs]
    rfl
  · obtain ⟨hlen', hall⟩ := hleft.children
    refine .internal ?_ hall
    rw [herase]
    omega
  · rw [Node.excess_internal, Node.excess_internal, Node.excess_internal, ← sum_take_add_drop children
      (keys.length / 2 + 1), herase, hmid]
    simp only [List.length_take, List.length_drop]
    omega

theorem splitChild_roomy {child : Node K} {H : Leaves K V} (hdegree : 2 ≤ degree) (h : child.Roomy)
    (hfull : nodeFull degree H child = true) (promoted : K) :
    ∃ left s right H', splitChild promoted child H = some (left, s, right, H') ∧ left.Roomy ∧
      right.Roomy ∧ left.excess + right.excess = child.excess := by
  cases child with
  | leaf p =>
    obtain ⟨s, hsplit⟩ := splitLeafNode_roomy hdegree hfull
    exact ⟨_, s, _, _, hsplit, .leaf p, .leaf _, by simp [Node.excess]⟩
  | internal keys children =>
    have hkeys : 2 * degree - 1 ≤ keys.length := isFull_eq_true.1 hfull
    obtain ⟨hleft, hright⟩ := splitInternal_roomy (by omega) h
    have hlen := h.children.1
    refine ⟨_, promoted, _, H, ?_, hleft, hright, ?_⟩
    · rw [splitChild, splitInternal_eq hlen]
      rfl
    · rw [Node.excess_internal, Node.excess_internal, Node.excess_internal, ← sum_take_add_drop children
        (keys.length / 2 + 1)]
      simp only [List.length_take, List.length_drop]
      omega

theorem insertChild_length {idx : ℕ} (s : K) (child : Node K) {keys : List K} {children : List (Node K)}
    (hidx : idx ≤ keys.length) (hchildren : idx < children.length) :
    (insertChild idx s child keys children).1.length = keys.length + 1 ∧
      (insertChild idx s child keys children).2.length = children.length + 1 ∧
      (insertChild idx s child keys children).1[idx]? = some s := by
  unfold insertChild
  split
  · next hlt =>
    refine ⟨List.length_insertIdx_of_le_length hidx s, ?_, ?_⟩
    · exact List.length_insertIdx_of_le_length (by omega) child
    · rw [List.getElem?_insertIdx_self, if_pos hidx]
  · next hlt =>
    obtain rfl : idx = keys.length := by omega
    simp

variable [LinearOrder K]

theorem lowerBound_le (k : K) (keys : List K) : lowerBound k keys ≤ keys.length :=
  (List.takeWhile_sublist _).length_le

/-- `insert_nonfull` in an internal node with more children than keys makes room without
a fault. -/
theorem makeRoom_roomy {keys : List K} {children : List (Node K)} {H : Leaves K V} (hdegree : 2 ≤ degree)
    (hlen : keys.length + 1 ≤ children.length) (hall : ∀ c ∈ children, c.Roomy) (promoted k : K) :
    ∃ idx keys' children' H', makeRoom degree promoted k keys children H =
        some (idx, keys', children', H') ∧ idx < children'.length ∧
      (children'.length + keys.length = children.length + keys'.length) ∧
      (∀ c ∈ children', c.Roomy) ∧
      (children'.map Node.excess).sum = (children.map Node.excess).sum := by
  have hidx := lowerBound_le k keys
  have hlt : lowerBound k keys < children.length := by omega
  have hget := List.getElem?_eq_getElem hlt
  have hchild : children[lowerBound k keys].Roomy := hall _ (List.getElem_mem hlt)
  cases hfull : nodeFull degree H children[lowerBound k keys] with
  | false =>
    refine ⟨lowerBound k keys, keys, children, H, ?_, hlt, rfl, hall, rfl⟩
    simp [makeRoom, hget, hfull]
  | true =>
    obtain ⟨left, s, right, H', hsplit, hleft, hright, hexcess⟩ :=
      splitChild_roomy hdegree hchild hfull promoted
    obtain ⟨cs₁, cs₂, hchildren, -, hset⟩ := exists_append_of_getElem? hget
    have hltset : lowerBound k keys < (children.set (lowerBound k keys) left).length := by
      rw [List.length_set]
      exact hlt
    obtain ⟨hkeys', hchildren', hs⟩ := insertChild_length s right hidx hltset
    have hperm : (insertChild (lowerBound k keys) s right keys
        (children.set (lowerBound k keys) left)).2.Perm (right :: (cs₁ ++ left :: cs₂)) := by
      rw [← hset]
      exact insertChild_perm hltset
    obtain ⟨keys', children', hins⟩ : ∃ keys' children', insertChild (lowerBound k keys) s right keys
        (children.set (lowerBound k keys) left) = (keys', children') := ⟨_, _, rfl⟩
    simp only [hins, List.length_set] at hkeys' hchildren' hs hperm
    refine ⟨if s < k then lowerBound k keys + 1 else lowerBound k keys, keys', children', H',
      ?_, ?_, ?_, ?_, ?_⟩
    · simp only [makeRoom, Option.bind_eq_bind, hget, Option.bind_some, hfull, if_true, hsplit, hins, hs]
      rfl
    · rw [hchildren']
      split <;> omega
    · omega
    · intro c hc
      rcases List.mem_cons.1 (hperm.mem_iff.1 hc) with rfl | hc
      · exact hright
      · rcases List.mem_append.1 hc with hc | hc
        · exact hall c (hchildren ▸ List.mem_append_left _ hc)
        · rcases List.mem_cons.1 hc with rfl | hc
          · exact hleft
          · exact hall c (hchildren ▸ List.mem_append_right _ (List.mem_cons_of_mem _ hc))
    · rw [(hperm.map Node.excess).sum_eq]
      have hsum := congrArg (fun cs => (cs.map Node.excess).sum) hchildren
      simp only [List.map_cons, List.map_append, List.sum_cons, List.sum_append] at hsum ⊢
      omega

/-- `insert_nonfull` below a node with more children than keys everywhere does not fault,
and leaves the excess as it is. -/
theorem insertNonfull_roomy {node : Node K} {H : Leaves K V} (hdegree : 2 ≤ degree) (h : node.Roomy)
    (promoted : ℕ → K) (k : K) (v : V) :
    ∃ node' H', insertNonfull degree promoted k v node H = some (node', H') ∧ node'.Roomy ∧
      node'.excess = node.excess := by
  induction hn : node.depth using Nat.strong_induction_on generalizing node H with
  | _ d ih =>
    cases h with
    | leaf p => exact ⟨.leaf p, _, by rw [insertNonfull], .leaf p, rfl⟩
    | @internal keys children hlen hall =>
      obtain ⟨idx, keys', children', H₁, hroom, hidx, hcount, hall', hsum⟩ :=
        makeRoom_roomy hdegree hlen hall (promoted (Node.depth.depths children)) k
      have hget := List.getElem?_eq_getElem hidx
      have hdepth : children'[idx].depth < d := by
        rw [← hn]
        exact Nat.lt_succ_of_le (makeRoom_depth hroom (List.getElem_mem hidx))
      obtain ⟨child', H', hrec, hroomy, hexcess⟩ := ih _ hdepth (hall' _ (List.getElem_mem hidx)) rfl
      obtain ⟨cs₁, cs₂, hchildren, -, hset⟩ := exists_append_of_getElem? hget
      refine ⟨_, H', by rw [insertNonfull_internal hroom hget, hrec]; rfl, ?_, ?_⟩
      · refine .internal (by rw [List.length_set]; omega) fun c hc => ?_
        rcases List.mem_or_eq_of_mem_set hc with hc | rfl
        · exact hall' c hc
        · exact hroomy
      · have hsum' := congrArg (fun cs => (cs.map Node.excess).sum) hchildren
        simp only [Node.excess_internal, hset, List.map_append, List.map_cons, List.sum_append,
          List.sum_cons] at hsum' ⊢
        have hlength := congrArg List.length hchildren
        simp only [List.length_append, List.length_cons] at hlength ⊢
        push_cast
        omega

end BPlus

namespace BPlusTree

/-- One more child than keys in every internal node, and `degree - 1` keys in every node
but the root. -/
def WellShaped (t : BPlusTree K V) : Prop :=
  ∀ root, t.root = some root →
    (∀ keys children, .internal keys children ∈ root.nodes → children.length = keys.length + 1) ∧
    ∀ n ∈ root.nodes.tail, t.degree - 1 ≤
      (match n with
        | .leaf p => (leafAt t.leaves p).keys
        | .internal keys _ => keys).length

theorem roomy_pair {left right : Node K} (s : K) (hl : left.Roomy) (hr : right.Roomy) :
    (Node.internal [s] [left, right]).Roomy ∧
      (Node.internal [s] [left, right]).excess = left.excess + right.excess := by
  refine ⟨.internal le_rfl (by simp [hl, hr]), ?_⟩
  simp [Node.excess_internal]

variable {t : BPlusTree K V}

theorem growRoot_roomy {root : Node K} (hroot : t.root = some root) (h : root.Roomy) :
    ∃ root₁ H₁, t.growRoot root = some (root₁, H₁) ∧ root₁.Roomy ∧
      root₁.excess = root.excess + if t.fullInternalRoot then 1 else 0 := by
  have hdegree := t.two_le_degree
  unfold growRoot
  cases hfull : nodeFull t.degree t.leaves root with
  | false =>
    have hnot : t.fullInternalRoot = false := by
      cases root with
      | leaf p => rw [fullInternalRoot, hroot]
      | internal keys children =>
        rw [fullInternalRoot, hroot]
        exact hfull
    exact ⟨root, t.leaves, rfl, h, by simp [hnot]⟩
  | true =>
    cases root with
    | leaf p =>
      obtain ⟨s, hs⟩ := splitLeafNode_roomy hdegree hfull
      have hnot : t.fullInternalRoot = false := by rw [fullInternalRoot, hroot]
      obtain ⟨hroomy, hexcess⟩ := roomy_pair s (.leaf p) (.leaf t.leaves.length)
      refine ⟨_, splitLeaf p t.leaves, ?_, hroomy, ?_⟩
      · simp only [if_true, splitRoot, hs]
        rfl
      · rw [hexcess]
        simp [hnot, Node.excess]
    | internal keys children =>
      obtain ⟨left, s, right, hs, hl, hr, hsum⟩ := splitRoot_roomy hdegree h hfull t.leaves
      have hyes : t.fullInternalRoot = true := by
        rw [fullInternalRoot, hroot]
        exact hfull
      obtain ⟨hroomy, hexcess⟩ := roomy_pair s hl hr
      refine ⟨_, t.leaves, ?_, hroomy, ?_⟩
      · simp only [if_true, hs]
        rfl
      · rw [hexcess, hsum, hyes, if_pos rfl]

variable [LinearOrder K]

theorem insert_roomy {root : Node K} (hroot : t.root = some root) (h : root.Roomy) (promoted : ℕ → K)
    (k : K) (v : V) :
    ∃ t' root', t.insert promoted k v = some t' ∧ t'.root = some root' ∧ root'.Roomy ∧
      root'.excess = root.excess + if t.fullInternalRoot then 1 else 0 := by
  obtain ⟨root₁, H₁, hgrow, hroomy, hexcess⟩ := growRoot_roomy hroot h
  obtain ⟨root', H', hrec, hroomy', hexcess'⟩ :=
    insertNonfull_roomy (H := H₁) t.two_le_degree hroomy promoted k v
  refine ⟨{ t with leaves := H', root := some root' }, root', ?_, rfl, hroomy', hexcess'.trans hexcess⟩
  simp only [BPlusTree.insert, hroot, hgrow, Option.bind_eq_bind, Option.bind_some, hrec]
  rfl

/-- After a run of insertions, a tree without excess was built without a split of an
internal root. -/
theorem run_insert_excess (deg : ℤ) (l : List (Insertion K V)) :
    ∃ t, attempt step (fresh K V deg) (l.map .insert) = some t ∧
      (t.root = none → Meets step (fresh K V deg) NoRootSplit (l.map .insert)) ∧
      ∀ root, t.root = some root → root.Roomy ∧ 0 ≤ root.excess ∧
        (root.excess = 0 → Meets step (fresh K V deg) NoRootSplit (l.map .insert)) := by
  induction l using List.reverseRecOn with
  | nil => exact ⟨fresh K V deg, rfl, fun _ => meets_nil, fun root hroot => by cases hroot⟩
  | append_singleton l i ih =>
    obtain ⟨t, hrun, hnone, hsome⟩ := ih
    rw [List.map_append, List.map_singleton, attempt_snoc, hrun, Option.bind_some, meets_snoc]
    have hlast : (∀ t', attempt step (fresh K V deg) (l.map .insert) = some t' → t'.NoRootSplit (.insert i)) ↔
        t.fullInternalRoot = false := by
      simp [hrun, NoRootSplit]
    rw [hlast]
    cases hroot : t.root with
    | none =>
      have hfull : t.fullInternalRoot = false := by rw [fullInternalRoot, hroot]
      refine ⟨_, by rw [step, BPlusTree.insert, hroot], by simp, ?_⟩
      rintro root hroot'
      obtain rfl := Option.some_inj.1 hroot'
      exact ⟨.leaf _, by simp [Node.excess], fun _ => ⟨hnone hroot, hfull⟩⟩
    | some root =>
      obtain ⟨hroomy, hnonneg, hzero⟩ := hsome root hroot
      obtain ⟨t', root', hinsert, hroot', hroomy', hexcess⟩ :=
        insert_roomy hroot hroomy i.promoted i.key i.value
      refine ⟨t', hinsert, by simp [hroot'], ?_⟩
      rintro root'' hroot''
      obtain rfl : root' = root'' := Option.some_inj.1 (hroot'.symm.trans hroot'')
      refine ⟨hroomy', ?_, fun hz => ?_⟩
      · split at hexcess <;> omega
      · cases hfull : t.fullInternalRoot with
        | false =>
          rw [hfull] at hexcess
          exact ⟨hzero (by simpa [hz] using hexcess.symm), rfl⟩
        | true =>
          rw [hfull, if_pos rfl] at hexcess
          omega

theorem Row.wellShaped {ks : List K} {ps qs : List ℕ} (h : Row t ks ps qs) (hf : t.Filled ks ps) :
    t.WellShaped := by
  intro root hroot
  rw [h.root] at hroot
  rcases h.arity with ⟨rfl, rfl⟩ | hlen
  · cases hroot
  cases ks with
  | nil =>
    obtain ⟨p, rfl⟩ := List.length_eq_one_iff.1 hlen
    obtain rfl : Node.leaf p = root := Option.some_inj.1 hroot
    simp [Node.nodes]
  | cons s ks =>
    rw [rowRoot_of_ne_nil (by simp)] at hroot
    obtain rfl := Option.some_inj.1 hroot
    rw [Node.nodes_internal, Node.flatMap_nodes_leaf, List.tail_cons]
    refine ⟨?_, ?_⟩
    · intro keys children hmem
      obtain ⟨rfl, rfl⟩ : keys = s :: ks ∧ children = ps.map .leaf := by simpa using hmem
      simpa using hlen
    · intro n hn
      obtain ⟨p, hp, rfl⟩ := List.mem_map.1 hn
      exact hf (by simp) p hp

/-- A run of insertions never faults, and the shape of the tree it builds is right if and
only if no call met a full internal root. -/
theorem wellShaped_iff (deg : ℤ) (l : List (Insertion K V)) :
    ∃ t, attempt step (fresh K V deg) (l.map .insert) = some t ∧
      (t.WellShaped ↔ Meets step (fresh K V deg) NoRootSplit (l.map .insert)) := by
  obtain ⟨t, hrun, hnone, hsome⟩ := run_insert_excess deg l
  refine ⟨t, hrun, fun hshape => ?_, fun h => ?_⟩
  · cases hroot : t.root with
    | none => exact hnone hroot
    | some root => exact (hsome root hroot).2.2 (root.excess_eq_zero (hshape root hroot).1)
  · obtain ⟨t', ks, ps, hrun', hrow, -, hfilled⟩ := run_insert_row h
    obtain rfl : t' = t := Option.some_inj.1 (hrun'.symm.trans hrun)
    exact hrow.wellShaped hfilled

/-- The seventh insertion splits the root, and the left half keeps its two children without
a key. -/
theorem wellShaped_fails :
    ∃ t, attempt step (fresh ℕ ℕ 2) ((insertions [1, 2, 3, 4, 5, 6, 7]).map .insert) = some t ∧
      ¬t.WellShaped := by
  have h : ∃ t ∈ attempt step (fresh ℕ ℕ 2) ((insertions [1, 2, 3, 4, 5, 6, 7]).map .insert),
      ∃ root ∈ t.root, root.excess ≠ 0 := by
    decide +kernel
  obtain ⟨t, hrun, root, hroot, hexcess⟩ := h
  exact ⟨t, hrun, fun hshape => hexcess (root.excess_eq_zero (hshape root hroot).1)⟩

end BPlusTree

end LearnSpdk
