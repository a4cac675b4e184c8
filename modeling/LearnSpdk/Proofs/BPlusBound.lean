import LearnSpdk.Proofs.BPlusLevels

/-! The bound on the keys of a node. `insert_nonfull` splits a full child before it goes
on to one of the halves. But after the split of an internal root a node may have a child
too many, and `insert_child` then puts the right half of its last child behind that one:
the insertion goes on to the child that was not looked at, and it may be full. -/

namespace LearnSpdk

open Lib BPlus

variable {K V : Type}

namespace Node

/-- How far down the leaves below a node are. -/
def leafDepths : Node K → List ℕ
  | .leaf _ => [0]
  | .internal _ children => (all children).map (· + 1)
where
  all : List (Node K) → List ℕ
    | [] => []
    | c :: cs => c.leafDepths ++ all cs

theorem leafDepths_internal (keys : List K) (children : List (Node K)) :
    (internal keys children).leafDepths = (children.flatMap leafDepths).map (· + 1) := by
  have hall (cs : List (Node K)) : leafDepths.all cs = cs.flatMap leafDepths := by
    induction cs with
    | nil => rfl
    | cons c cs ih => rw [leafDepths.all, ih, List.flatMap_cons]
  rw [leafDepths, hall]

theorem Levels.leafDepths {Q : ℕ → ℕ → Prop} {n : ℕ} {node : Node K} (h : node.Levels Q n) :
    ∀ d ∈ node.leafDepths, d = n := by
  induction h with
  | leaf p => simp [Node.leafDepths]
  | internal hQ hall ih =>
    intro d hd
    rw [leafDepths_internal] at hd
    obtain ⟨d', hd', rfl⟩ := List.mem_map.1 hd
    obtain ⟨c, hc, hd'⟩ := List.mem_flatMap.1 hd'
    rw [ih c hc d' hd']

end Node

open Node

namespace BPlus

variable {degree : ℕ} {H H' : Leaves K V}

def nodeKeys (H : Leaves K V) : Node K → List K
  | .leaf p => (leafAt H p).keys
  | .internal keys _ => keys

theorem lt_length_of_keys {p : ℕ} (h : (leafAt H p).keys ≠ []) : p < H.length := by
  by_contra hp
  refine h ?_
  rw [leafAt, List.getElem?_eq_none (not_lt.1 hp)]
  rfl

def SmallLeaves (degree : ℕ) (H : Leaves K V) : Prop := ∀ l ∈ H, l.keys.length ≤ 2 * degree - 1

/-- Some node at or below `n` has too many keys. -/
def Big (degree : ℕ) (H : Leaves K V) (n : Node K) : Prop :=
  ∃ m ∈ n.nodes, 2 * degree - 1 < (nodeKeys H m).length

/-- No internal node has too many keys. -/
abbrev AtMost (m : ℕ) : ℕ → ℕ → Prop := fun k _ => k ≤ m

theorem closed_atMost (hdegree : 2 ≤ degree) : Closed degree (AtMost (2 * degree - 1)) where
  left k c _ h := by simp only [AtMost] at h ⊢; omega
  right k c _ h := by simp only [AtMost] at h ⊢; omega
  root := by simp only [AtMost]; omega
  erase k c h _ := by simp only [AtMost] at h ⊢; omega

theorem rootLeft_atMost : RootLeft degree (AtMost (2 * degree - 1)) := by
  intro k c _ h
  simp only [AtMost] at h ⊢
  omega

theorem SmallLeaves.leafAt (h : SmallLeaves degree H) (p : ℕ) : (leafAt H p).keys.length ≤ 2 * degree - 1 := by
  unfold BPlus.leafAt
  cases hp : H[p]? with
  | none => exact Nat.zero_le _
  | some l => exact h l (List.mem_of_getElem? hp)

theorem SmallLeaves.not_big (h : SmallLeaves degree H) {node : Node K} {n : ℕ}
    (hlevels : node.Levels (AtMost (2 * degree - 1)) n) : ¬Big degree H node := by
  rintro ⟨m, hm, hlt⟩
  induction hlevels with
  | leaf p =>
    obtain rfl : m = .leaf p := by simpa [Node.nodes] using hm
    exact absurd (h.leafAt p) (not_le.2 hlt)
  | internal hQ hall ih =>
    rw [nodes_internal] at hm
    rcases List.mem_cons.1 hm with rfl | hm
    · exact absurd hQ (not_le.2 hlt)
    · obtain ⟨c, hc, hm⟩ := List.mem_flatMap.1 hm
      exact ih c hc hm

theorem SmallLeaves.modify (h : SmallLeaves degree H) {p : ℕ} {f : LeafNode K V → LeafNode K V}
    (hf : (f (BPlus.leafAt H p)).keys.length ≤ 2 * degree - 1) : SmallLeaves degree (H.modify p f) := by
  intro l hl
  rw [List.modify_eq_set] at hl
  rcases List.mem_or_eq_of_mem_set hl with hl | rfl
  · exact h l hl
  · exact hf

theorem SmallLeaves.splitLeaf (h : SmallLeaves degree H) (p : ℕ) : SmallLeaves degree (splitLeaf p H) := by
  have hp := h.leafAt p
  intro l hl
  simp only [BPlus.splitLeaf, List.mem_append, List.mem_singleton] at hl
  rcases hl with hl | rfl
  · rcases List.mem_or_eq_of_mem_set hl with hl | rfl
    · exact h l hl
    · simp only [List.length_take]
      omega
  · simp only [List.length_drop]
    omega

theorem Big.child {keys : List K} {children : List (Node K)} {c : Node K} (h : Big degree H c)
    (hc : c ∈ children) : Big degree H (.internal keys children) := by
  obtain ⟨m, hm, hlt⟩ := h
  refine ⟨m, ?_, hlt⟩
  rw [nodes_internal]
  exact List.mem_cons_of_mem _ (List.mem_flatMap.2 ⟨c, hc, hm⟩)

/-- The two halves of a node that is full and no more are not full. -/
theorem splitChild_small (hdegree : 2 ≤ degree) {promoted s : K} {child left right : Node K} {n : ℕ}
    (h : splitChild promoted child H = some (left, s, right, H'))
    (hlevels : child.Levels (AtMost (2 * degree - 1)) n) (hsmall : SmallLeaves degree H) :
    nodeFull degree H' left = false ∧ nodeFull degree H' right = false ∧ SmallLeaves degree H' := by
  cases child with
  | leaf p =>
    obtain ⟨rfl, rfl, rfl, hs⟩ := splitLeafNode_eq_some h
    have hkeys := hsmall.leafAt p
    have hp : p < H.length := by
      refine lt_length_of_keys fun hnil => ?_
      simp [leafAt_splitLeaf_new, hnil] at hs
    refine ⟨?_, ?_, hsmall.splitLeaf p⟩
    · rw [nodeFull, isFull_eq_false, leafAt_splitLeaf_self hp]
      simp only [List.length_take]
      omega
    · rw [nodeFull, isFull_eq_false, leafAt_splitLeaf_new]
      simp only [List.length_drop]
      omega
  | internal keys children =>
    obtain ⟨l, r, hsplit, rfl, rfl, rfl⟩ := splitChild_internal h
    obtain ⟨-, rfl, rfl⟩ := splitInternal_eq_some hsplit
    have hkeys : keys.length ≤ 2 * degree - 1 := hlevels.children.1
    refine ⟨?_, ?_, hsmall⟩ <;>
    · rw [nodeFull, isFull_eq_false]
      simp only [List.length_take, List.length_drop]
      omega

/-- Where `insert_child` leaves the halves of the child at `idx`. The right one stands next to
the left one, or behind the children too many. -/
theorem getElem?_insertChild {idx : ℕ} {keys : List K} {children : List (Node K)} (s : K)
    (left right : Node K) (hidx : idx ≤ keys.length) (hlt : idx < children.length) :
    (insertChild idx s right keys (children.set idx left)).2[idx]? = some left ∧
      (insertChild idx s right keys (children.set idx left)).2[idx + 1]? =
        if idx = keys.length ∧ keys.length + 1 < children.length then children[keys.length + 1]?
        else some right := by
  have hlt' : idx < (children.set idx left).length := by simpa using hlt
  unfold insertChild
  split
  · next hlast =>
    rw [if_neg (fun h => hlast.ne h.1), List.getElem?_insertIdx_of_lt (Nat.lt_succ_self _),
      List.getElem?_set_self hlt, List.getElem?_insertIdx_self, if_pos (Nat.succ_le_of_lt hlt')]
    exact ⟨rfl, rfl⟩
  · next hlast =>
    obtain rfl : idx = keys.length := by omega
    rw [List.getElem?_append_left hlt', List.getElem?_set_self hlt]
    refine ⟨rfl, ?_⟩
    split
    · next hmore =>
      rw [List.getElem?_append_left (by simpa using hmore.2), List.getElem?_set_ne (by omega)]
    · next hmore =>
      have heq : keys.length + 1 = (children.set keys.length left).length := by
        rw [List.length_set]
        omega
      rw [heq, List.getElem?_concat_length]

variable (degree) in
/-- A node as an insertion goes through it: whole, or as one of its halves if it is full. -/
def parts : Node K → List (Node K)
  | .leaf p => [.leaf p]
  | .internal keys children =>
    if isFull degree keys then
      [.internal (keys.take (keys.length / 2)) (children.take (keys.length / 2 + 1)),
        .internal (keys.drop (keys.length / 2 + 1)) (children.drop (keys.length / 2 + 1))]
    else [.internal keys children]

theorem splitChild_parts {promoted s : K} {child left right : Node K}
    (h : splitChild promoted child H = some (left, s, right, H')) (hfull : nodeFull degree H child = true) :
    (∃ p q, left = .leaf p ∧ right = .leaf q) ∨
      H' = H ∧ left ∈ parts degree child ∧ right ∈ parts degree child := by
  cases child with
  | leaf p =>
    obtain ⟨rfl, rfl, -⟩ := splitLeafNode_eq_some h
    exact .inl ⟨p, _, rfl, rfl⟩
  | internal keys children =>
    obtain ⟨l, r, hsplit, rfl, rfl, rfl⟩ := splitChild_internal h
    obtain ⟨-, rfl, rfl⟩ := splitInternal_eq_some hsplit
    rw [nodeFull] at hfull
    exact .inr ⟨rfl, by simp [parts, hfull], by simp [parts, hfull]⟩

/-- One child more than keys at most. -/
abbrev Matched : ℕ → ℕ → Prop := fun k c => c ≤ k + 1

theorem closed_matched : Closed degree Matched where
  left k c _ _ := le_rfl
  right k c _ h := by simp only [Matched] at h ⊢; omega
  root := le_rfl
  erase k c h _ := by simp only [Matched] at h ⊢; omega

theorem parts_levels {n : ℕ} {node part : Node K} (h : node.Levels Matched n) (hpart : part ∈ parts degree node) :
    part.Levels Matched n := by
  cases h with
  | leaf p =>
    obtain rfl : part = .leaf p := by simpa [parts] using hpart
    exact .leaf p
  | @internal n keys children hQ hall =>
    rw [parts] at hpart
    split at hpart
    · simp only [List.mem_cons, List.not_mem_nil, or_false] at hpart
      rcases hpart with rfl | rfl
      · refine .internal ?_ fun c hc => hall c (List.mem_of_mem_take hc)
        simp only [Matched, List.length_take] at hQ ⊢
        omega
      · refine .internal ?_ fun c hc => hall c (List.mem_of_mem_drop hc)
        simp only [Matched, List.length_drop] at hQ ⊢
        omega
    · obtain rfl := List.mem_singleton.1 hpart
      exact .internal hQ hall

variable [LinearOrder K]

/-- What the split of a full child does to its parent. The insertion goes on to one of the
halves, or past both of them to a child too many. -/
theorem makeRoom_full {promoted key : K} {keys keys' : List K} {children children' : List (Node K)}
    {idx : ℕ} {child : Node K}
    (h : makeRoom degree promoted key keys children H = some (idx, keys', children', H'))
    (hchild : children[lowerBound key keys]? = some child) (hfull : nodeFull degree H child = true) :
    keys'.length = keys.length + 1 ∧ ∃ left s right,
      splitChild promoted child H = some (left, s, right, H') ∧
      children'[idx]? =
        if s < key then
          if lowerBound key keys = keys.length ∧ keys.length + 1 < children.length then
            children[keys.length + 1]?
          else some right
        else some left := by
  obtain ⟨c, hc, ⟨hnot, -⟩ | ⟨-, left, s, right, s', hsplit, hins, hs, rfl⟩⟩ := makeRoom_cases h
  · obtain rfl : c = child := Option.some_inj.1 (hc.symm.trans hchild)
    simp [hfull] at hnot
  obtain rfl : c = child := Option.some_inj.1 (hc.symm.trans hchild)
  obtain ⟨hlt, -⟩ := List.getElem?_eq_some_iff.1 hchild
  have hlt' : lowerBound key keys < (children.set (lowerBound key keys) left).length := by
    simpa using hlt
  obtain ⟨hlen, -, hget⟩ := insertChild_length s right (lowerBound_le key keys) hlt'
  obtain ⟨hleft, hright⟩ := getElem?_insertChild s left right (lowerBound_le key keys) hlt
  rw [← hins] at hlen hget hleft hright
  obtain rfl : s' = s := Option.some_inj.1 (hs.symm.trans hget)
  refine ⟨hlen, left, s', right, hsplit, ?_⟩
  split
  · exact hright
  · exact hleft

variable (degree) in
/-- A node that takes a key too many if the insertion goes through it: a full leaf, or a full
internal node whose child towards the key is full as well. -/
def Crowded (key : K) (H : Leaves K V) : Node K → Prop
  | .leaf p => isFull degree (leafAt H p).keys = true
  | .internal keys children => isFull degree keys = true ∧
      ∃ c, children[lowerBound key keys]? = some c ∧ nodeFull degree H c = true

theorem not_crowded {key : K} {n : Node K} (h : nodeFull degree H n = false) : ¬Crowded degree key H n := by
  cases n with
  | leaf p => simpa [Crowded, nodeFull] using h
  | internal keys children =>
    rintro ⟨hfull, -⟩
    simp [nodeFull, hfull] at h

variable (degree) in
/-- Somewhere on its way `insert_nonfull` splits the child behind the last key and goes past
both halves to a further child, and that one is crowded. -/
inductive Strays (promoted : ℕ → K) (key : K) : Node K → Leaves K V → Prop
  | here {keys : List K} {children : List (Node K)} {H H' : Leaves K V} {child left right next : Node K}
      {s : K} (hlast : lowerBound key keys = keys.length) (hchild : children[keys.length]? = some child)
      (hfull : nodeFull degree H child = true)
      (hsplit : splitChild (promoted (depth.depths children)) child H = some (left, s, right, H'))
      (hlt : s < key) (hnext : children[keys.length + 1]? = some next)
      (hcrowded : Crowded degree key H' next) : Strays promoted key (.internal keys children) H
  | further {keys keys' : List K} {children children' : List (Node K)} {H H' : Leaves K V} {idx : ℕ}
      {child : Node K}
      (hroom : makeRoom degree (promoted (depth.depths children)) key keys children H =
        some (idx, keys', children', H'))
      (hchild : children'[idx]? = some child) (h : Strays promoted key child H') :
      Strays promoted key (.internal keys children) H

variable (degree) in
/-- On the way of the key no full child at the index behind the last key has a child too many
behind it. -/
inductive Straight (key : K) (H : Leaves K V) : Node K → Prop
  | leaf (p : ℕ) : Straight key H (.leaf p)
  | internal {keys : List K} {children : List (Node K)}
      (hend : lowerBound key keys = keys.length → ∀ c, children[keys.length]? = some c →
        nodeFull degree H c = true → children.length ≤ keys.length + 1)
      (hchild : ∀ c, children[lowerBound key keys]? = some c → ∀ part ∈ parts degree c, Straight key H part) :
      Straight key H (.internal keys children)

theorem not_strays_leaf {promoted : ℕ → K} {key : K} (p : ℕ) :
    ¬Strays degree promoted key (.leaf p) H := by
  intro h
  cases h

theorem Straight.not_strays {promoted : ℕ → K} {key : K} {node : Node K} (h : Straight degree key H node) :
    ¬Strays degree promoted key node H := by
  induction h with
  | leaf p => exact not_strays_leaf p
  | @internal keys children hend hchild ih =>
    intro hstrays
    cases hstrays with
    | here hlast hc hfull hsplit hlt hnext hcrowded =>
      obtain ⟨hmore, -⟩ := List.getElem?_eq_some_iff.1 hnext
      have hle := hend hlast _ hc hfull
      omega
    | @further _ keys' _ children' _ H₁ idx child hroom hnext hstrays =>
      obtain ⟨c, hc, ⟨hfull, rfl, rfl, rfl, rfl⟩ | ⟨hfull, -⟩⟩ := makeRoom_cases hroom
      · obtain rfl := Option.some_inj.1 (hc.symm.trans hnext)
        cases c with
        | leaf p => exact not_strays_leaf p hstrays
        | internal ks cs =>
          rw [nodeFull] at hfull
          exact ih _ hc _ (by simp [parts, hfull]) hstrays
      · obtain ⟨-, left, s, right, hsplit, hentered⟩ := makeRoom_full hroom hc hfull
        have hhalf : child = left ∨ child = right := by
          rw [hnext] at hentered
          split at hentered
          · split at hentered
            · next hbehind =>
              rw [hbehind.1] at hc
              have hle := hend hbehind.1 c hc hfull
              omega
            · exact .inr (Option.some_inj.1 hentered)
          · exact .inl (Option.some_inj.1 hentered)
        obtain ⟨p, q, rfl, rfl⟩ | ⟨rfl, hleft, hright⟩ := splitChild_parts hsplit hfull
        · rcases hhalf with rfl | rfl
          · exact not_strays_leaf _ hstrays
          · exact not_strays_leaf _ hstrays
        · rcases hhalf with rfl | rfl
          · exact ih c hc _ hleft hstrays
          · exact ih c hc _ hright hstrays

theorem straight_of_levels {key : K} {node : Node K} {n : ℕ} (h : node.Levels Matched n) :
    Straight degree key H node := by
  induction n generalizing node with
  | zero =>
    obtain ⟨p, rfl⟩ := h.eq_leaf
    exact .leaf p
  | succ n ih =>
    cases h with
    | internal hQ hall =>
      exact .internal (fun _ _ _ _ => hQ) fun c hc part hpart =>
        ih (parts_levels (hall c (List.mem_of_getElem? hc)) hpart)

theorem entered_roomy (hdegree : 2 ≤ degree) {key : K} {root : Node K} {n : ℕ}
    (hlevels : root.Levels (AtMost (2 * degree - 1)) n) {ks : List K} {cs : List (Node K)}
    (h : entered degree key root = .internal ks cs) : isFull degree ks = false := by
  cases root with
  | leaf p => cases h
  | internal keys children =>
    have hkeys : keys.length ≤ 2 * degree - 1 := hlevels.children.1
    cases hfull : isFull degree keys with
    | false =>
      simp only [entered, hfull, Bool.false_eq_true, if_false, Node.internal.injEq] at h
      rwa [← h.1]
    | true =>
      have hpos := isFull_eq_true.1 hfull
      have herase := List.length_eraseIdx_le (keys.take (keys.length / 2)) (keys.length / 2 / 2)
      simp only [entered, hfull, if_true, rootHalf] at h
      rw [List.length_take] at herase
      split at h <;>
      · obtain ⟨rfl, -⟩ := Node.internal.inj h
        rw [isFull_eq_false]
        try rw [List.length_drop]
        omega

/-- The way from a new root goes on to one of its two children. -/
theorem straight_newRoot {key s : K} {left right : Node K}
    (h : ∀ part ∈ parts degree (if s < key then right else left), Straight degree key H part) :
    Straight degree key H (.internal [s] [left, right]) := by
  refine .internal (fun _ _ _ _ => le_rfl) fun c hc => ?_
  have hchild : [left, right][lowerBound key [s]]? = some (if s < key then right else left) := by
    rw [lowerBound_singleton]
    split <;> rfl
  obtain rfl := Option.some_inj.1 (hc.symm.trans hchild)
  exact h

theorem insertNonfull_small (hdegree : 2 ≤ degree) {promoted : ℕ → K} {key : K} {value : V}
    {node node' : Node K} {n : ℕ}
    (h : insertNonfull degree promoted key value node H = some (node', H'))
    (hlevels : node.Levels (AtMost (2 * degree - 1)) n) (hsmall : SmallLeaves degree H)
    (hcrowded : ¬Crowded degree key H node) (hstrays : ¬Strays degree promoted key node H) :
    node'.Levels (AtMost (2 * degree - 1)) n ∧ SmallLeaves degree H' := by
  refine insertNonfull_induct (P := fun node H node' H' => ∀ n,
    node.Levels (AtMost (2 * degree - 1)) n → SmallLeaves degree H → ¬Crowded degree key H node →
      ¬Strays degree promoted key node H →
      node'.Levels (AtMost (2 * degree - 1)) n ∧ SmallLeaves degree H') ?_ ?_ node h n hlevels hsmall
    hcrowded hstrays
  · intro p H n hp hsmall hcrowded _
    refine ⟨hp, hsmall.modify ?_⟩
    have hlt : (leafAt H p).keys.length < 2 * degree - 1 :=
      isFull_eq_false.1 (by simpa [Crowded] using hcrowded)
    rw [LeafNode.insertKey, List.length_insertIdx_of_le_length (lowerBound_le key _)]
    omega
  · intro keys children H idx keys' children' H₁ child child' H' hroom hchild ih n hnode hsmall
      hcrowded hstrays
    have hQ := closed_atMost hdegree
    obtain ⟨hkeys, m, rfl, hall⟩ := hnode.children
    obtain ⟨hall', -⟩ := makeRoom_levels hQ hroom hall
    have hchild' := hall' _ (List.mem_of_getElem? hchild)
    have hstrays' : ¬Strays degree promoted key child H₁ := fun hs => hstrays (.further hroom hchild hs)
    -- what is left to show of the node itself: its own bound, and that the child is not crowded
    suffices hstep : keys'.length ≤ 2 * degree - 1 ∧ ¬Crowded degree key H₁ child ∧ SmallLeaves degree H₁ by
      obtain ⟨hkeys', hcrowded', hsmall'⟩ := hstep
      obtain ⟨hc, hH⟩ := ih m hchild' hsmall' hcrowded' hstrays'
      exact ⟨.internal hkeys' (forall_mem_set hall' hc idx), hH⟩
    obtain ⟨c, hc, ⟨hfull, rfl, rfl, rfl, rfl⟩ | ⟨hfull, -⟩⟩ := makeRoom_cases hroom
    · obtain rfl : c = child := Option.some_inj.1 (hc.symm.trans hchild)
      exact ⟨hkeys, not_crowded hfull, hsmall⟩
    · obtain ⟨hlen, left, s, right, hsplit, hentered⟩ := makeRoom_full hroom hc hfull
      obtain ⟨hleft, hright, hsmall'⟩ :=
        splitChild_small hdegree hsplit (hall c (List.mem_of_getElem? hc)) hsmall
      have hroomy : isFull degree keys = false := by
        simpa using fun hf => hcrowded ⟨hf, c, hc, hfull⟩
      rw [isFull_eq_false] at hroomy
      refine ⟨by omega, ?_, hsmall'⟩
      rw [hchild] at hentered
      split at hentered
      · next hlt =>
        split at hentered
        · next hlast =>
          rw [hlast.1] at hc
          exact fun hcr => hstrays (.here hlast.1 hc hfull hsplit hlt hentered.symm hcr)
        · exact Option.some_inj.1 hentered ▸ not_crowded hright
      · exact Option.some_inj.1 hentered ▸ not_crowded hleft

theorem insertNonfull_big (hdegree : 2 ≤ degree) {promoted : ℕ → K} {key : K} {value : V} {node node' : Node K}
    (h : insertNonfull degree promoted key value node H = some (node', H'))
    (hbad : Crowded degree key H node ∨ Strays degree promoted key node H) : Big degree H' node' := by
  refine insertNonfull_induct (P := fun node H node' H' =>
    Crowded degree key H node ∨ Strays degree promoted key node H → Big degree H' node') ?_ ?_ node h hbad
  · rintro p H (hfull | hstrays)
    · have hlen := isFull_eq_true.1 hfull
      have hpos : p < H.length := lt_length_of_keys (List.length_pos_iff.1 (by omega))
      refine ⟨.leaf p, by simp [Node.nodes], ?_⟩
      rw [nodeKeys, leafAt_modify_self hpos, LeafNode.insertKey,
        List.length_insertIdx_of_le_length (lowerBound_le key _)]
      omega
    · cases hstrays
  · intro keys children H idx keys' children' H₁ child child' H' hroom hchild ih hbad
    have hmem : child' ∈ children'.set idx child' := by
      obtain ⟨hlt, -⟩ := List.getElem?_eq_some_iff.1 hchild
      exact List.mem_of_getElem? (List.getElem?_set_self hlt)
    rcases hbad with ⟨hfull, c, hc, hcfull⟩ | hstrays
    · -- the node is full and takes the key of the split below it
      have hlen := (makeRoom_full hroom hc hcfull).1
      rw [isFull_eq_true] at hfull
      refine ⟨.internal keys' (children'.set idx child'), by simp [nodes_internal], ?_⟩
      rw [nodeKeys]
      omega
    · cases hstrays with
      | here hlast hc hfull hsplit hlt hnext hcrowded =>
        rw [← hlast] at hc
        obtain ⟨-, left, s, right, hsplit', hentered⟩ := makeRoom_full hroom hc hfull
        obtain ⟨rfl, rfl, rfl, rfl⟩ : _ = left ∧ _ = s ∧ _ = right ∧ _ = H₁ := by
          simpa using hsplit.symm.trans hsplit'
        obtain ⟨hmore, -⟩ := List.getElem?_eq_some_iff.1 hnext
        rw [if_pos hlt, if_pos ⟨hlast, hmore⟩, hnext, hchild] at hentered
        obtain rfl := Option.some_inj.1 hentered
        exact (ih (.inl hcrowded)).child hmem
      | further hroom' hchild' h =>
        obtain ⟨rfl, rfl, rfl, rfl⟩ : _ = idx ∧ _ = keys' ∧ _ = children' ∧ _ = H₁ := by
          simpa using hroom'.symm.trans hroom
        obtain rfl := Option.some_inj.1 (hchild'.symm.trans hchild)
        exact (ih (.inr h)).child hmem

end BPlus

namespace BPlusTree

variable {t t' : BPlusTree K V}

/-- All leaves of the tree are equally far down. -/
def Uniform (t : BPlusTree K V) : Prop :=
  ∃ n, ∀ root, t.root = some root → ∀ d ∈ root.leafDepths, d = n

/-- No node of the tree has more than `2 * degree - 1` keys. -/
def Bounded (t : BPlusTree K V) : Prop :=
  ∀ root, t.root = some root → ∀ n ∈ root.nodes, (nodeKeys t.leaves n).length ≤ 2 * t.degree - 1

/-- What the insertions that do not go astray keep. It is said of all leaves ever made. -/
structure Slim (t : BPlusTree K V) : Prop where
  levels : t.Leveled (AtMost (2 * t.degree - 1))
  small : SmallLeaves t.degree t.leaves

theorem Slim.uniform (h : t.Slim) : t.Uniform := by
  cases hroot : t.root with
  | none => exact ⟨0, by simp [hroot]⟩
  | some root =>
    obtain ⟨n, hn⟩ := h.levels root hroot
    refine ⟨n, fun root' hroot' => ?_⟩
    obtain rfl := Option.some_inj.1 (hroot.symm.trans hroot')
    exact hn.leafDepths

theorem Slim.bounded (h : t.Slim) : t.Bounded := by
  intro root hroot n hn
  obtain ⟨m, hm⟩ := h.levels root hroot
  by_contra hlt
  exact h.small.not_big hm ⟨n, hn, not_le.1 hlt⟩

theorem slim_fresh (deg : ℤ) : (fresh K V deg).Slim := ⟨fresh_leveled deg, by simp [fresh, SmallLeaves]⟩

theorem growRoot_small {root root' : Node K} {H : Leaves K V} (h : t.growRoot root = some (root', H))
    (hsmall : SmallLeaves t.degree t.leaves) : SmallLeaves t.degree H := by
  obtain ⟨-, -, rfl⟩ | ⟨-, left, s, right, hsplit, -⟩ := growRoot_cases h
  · exact hsmall
  · rcases splitRoot_splitStep hsplit with ⟨-, rfl⟩ | ⟨p, -, -, rfl⟩
    · exact hsmall
    · exact hsmall.splitLeaf p

variable [LinearOrder K]

/-- The call does not go past a split child to a crowded one. -/
def OnCourse (t : BPlusTree K V) : Op K V → Prop
  | .insert i => ∀ root root' H, t.root = some root → t.growRoot root = some (root', H) →
      ¬Strays t.degree i.promoted i.key root' H
  | .remove _ => True

theorem Slim.remove {k : K} (h : t.Slim) (hr : t.remove k = some t') : t'.Slim := by
  have hlevels := remove_leveled (closed_atMost t.two_le_degree) hr h.levels
  cases hroot : t.root with
  | none =>
    simp only [BPlusTree.remove, hroot, Option.some.injEq] at hr
    exact hr ▸ h
  | some root =>
    obtain ⟨root', H', under, hrec, hcases⟩ := remove_cases hroot hr
    obtain ⟨p, hp⟩ := removeRecursive_spec hrec
    have hsmall : SmallLeaves t.degree H' := by
      rw [hp.store]
      exact h.small.modify ((LeafNode.removeKey_keys_sublist k _).length_le.trans (h.small.leafAt p))
    rcases hcases with ⟨q, -, -, rfl⟩ | ⟨q, -, -, rfl⟩ | ⟨child, -, rfl⟩ | ⟨keys, children, -, -, rfl⟩ <;>
    exact ⟨hlevels, hsmall⟩

theorem Slim.insert {i : Insertion K V} (h : t.Slim) (hi : t.insert i.promoted i.key i.value = some t')
    (hcourse : t.OnCourse (.insert i)) : t'.Slim := by
  cases hroot : t.root with
  | none =>
    simp only [BPlusTree.insert, hroot, Option.some.injEq] at hi
    subst hi
    refine ⟨?_, ?_⟩
    · intro root hroot
      obtain rfl := Option.some_inj.1 hroot
      exact ⟨0, .leaf _⟩
    · have hdegree := t.two_le_degree
      intro l hl
      rcases List.mem_append.1 hl with hl | hl
      · exact h.small l hl
      · obtain rfl := List.mem_singleton.1 hl
        simp only [LeafNode.insertKey, lowerBound, List.takeWhile_nil, List.length_nil,
          List.insertIdx_zero, List.length_singleton]
        omega
  | some root =>
    obtain ⟨n, hn⟩ := h.levels root hroot
    obtain ⟨root₁, H₁, root', H', hgrown, hrec, rfl⟩ := insert_grown hroot hi
    obtain ⟨hfull, n', hn'⟩ := growRoot_levels (closed_atMost t.two_le_degree) hgrown
      (fun _ _ _ _ => rootLeft_atMost) hn
    obtain ⟨hlevels, hsmall⟩ := insertNonfull_small t.two_le_degree hrec hn'
      (growRoot_small hgrown h.small) (not_crowded hfull) (hcourse root root₁ H₁ hroot hgrown)
    refine ⟨fun root hroot => ?_, hsmall⟩
    obtain rfl := Option.some_inj.1 hroot
    exact ⟨n', hlevels⟩

/-- The condition on the tree before a call: no child too many behind a full child on the way of
an insertion. A full root is met as one of its halves. -/
def NoSurplus (t : BPlusTree K V) : Op K V → Prop
  | .insert i => ∀ root, t.root = some root → Straight t.degree i.key t.leaves (entered t.degree i.key root)
  | .remove _ => True

theorem Slim.onCourse (h : t.Slim) {op : Op K V} (hop : t.NoSurplus op) : t.OnCourse op := by
  cases op with
  | remove k => trivial
  | insert i =>
    intro root root₁ H₁ hroot hgrown
    obtain ⟨n, hn⟩ := h.levels root hroot
    have hstraight := hop root hroot
    obtain ⟨rfl, rfl, -, hentered⟩ | ⟨s, left, right, rfl, ⟨p, q, -, rfl, rfl⟩ | ⟨rfl, -, hentered⟩⟩ :=
      growRoot_entered hgrown i.key
    · exact (hentered ▸ hstraight).not_strays
    · refine (straight_newRoot ?_).not_strays
      split <;>
      · simp only [parts, List.mem_singleton, forall_eq]
        exact .leaf _
    · refine (straight_newRoot ?_).not_strays
      rw [← hentered]
      cases hpart : entered t.degree i.key root with
      | leaf p => simp [parts, Straight.leaf]
      | internal ks cs =>
        rw [hpart] at hstraight
        simpa [parts, entered_roomy t.two_le_degree hn hpart] using hstraight

theorem Bounded.onCourse {i : Insertion K V} (h : t'.Bounded)
    (hi : t.insert i.promoted i.key i.value = some t') : t.OnCourse (.insert i) := by
  intro root root₁ H₁ hroot hgrown hstrays
  obtain ⟨root₂, H₂, root', H', hgrown', hrec, rfl⟩ := insert_grown hroot hi
  obtain ⟨rfl, rfl⟩ : root₂ = root₁ ∧ H₂ = H₁ := by simpa using hgrown'.symm.trans hgrown
  obtain ⟨m, hm, hlt⟩ := insertNonfull_big t.two_le_degree hrec (.inr hstrays)
  exact absurd (h root' rfl m hm) (not_le.2 hlt)

/-- In the states that a run reaches all leaves are on one level and no node has too many keys
if and only if no call that returns goes past a split child to a crowded one. -/
theorem run_bounded_iff (deg : ℤ) (ops : List (Op K V)) :
    Throughout step (fresh K V deg) (fun t => t.Uniform ∧ t.Bounded) ops ↔
      Meets step (fresh K V deg) (fun t op => (step op t).isSome = true → t.OnCourse op) ops := by
  refine throughout_iff (I := Slim) (slim_fresh deg) (fun t h => ⟨h.uniform, h.bounded⟩) ?_ ?_
  · intro t op t' h hstep hcourse
    have hon := hcourse (by rw [hstep]; rfl)
    cases op with
    | insert i => exact h.insert hstep hon
    | remove k => exact h.remove hstep
  · intro t op _ hP hsome
    obtain ⟨t', hstep⟩ := Option.isSome_iff_exists.1 hsome
    cases op with
    | insert i => exact (hP t' hstep).2.onCourse hstep
    | remove k => trivial

/-- In a run whose insertions meet no child too many on their way, all leaves are on one level and
no node has too many keys in every state reached. -/
theorem run_bounded (deg : ℤ) (ops : List (Op K V)) (h : Meets step (fresh K V deg) NoSurplus ops) :
    Throughout step (fresh K V deg) (fun t => t.Uniform ∧ t.Bounded) ops := by
  intro k _ t ht
  have hslim : t.Slim := by
    refine (h.take k).induct (slim_fresh deg) (fun t op t' h hstep hop => ?_) ht
    cases op with
    | insert i => exact h.insert hstep (h.onCourse hop)
    | remove k => exact h.remove hstep
  exact ⟨hslim.uniform, hslim.bounded⟩

theorem meets_noSurplus {deg : ℤ} {ops : List (Op K V)} (h : Meets step (fresh K V deg) NoRootSplit ops) :
    Meets step (fresh K V deg) NoSurplus ops := by
  intro k hk t ht
  have hlevels : t.Leveled Matched := by
    refine (h.take k).induct (fresh_leveled deg) (fun t op t' h hstep hop => ?_) ht
    exact step_leveled closed_matched (.inl hop) (fun _ _ h _ => Nat.succ_le_succ h) hstep h
  have hop := h k hk t ht
  cases hcall : ops[k] with
  | remove key => trivial
  | insert i =>
    rw [hcall] at hop
    intro root hroot
    obtain ⟨n, hn⟩ := hlevels root hroot
    have hwhole : entered t.degree i.key root = root := by
      cases root with
      | leaf p => rfl
      | internal keys children =>
        rw [NoRootSplit, fullInternalRoot, hroot] at hop
        simp only [entered, hop, Bool.false_eq_true, if_false]
    rw [hwhole]
    exact straight_of_levels hn

/-- A run that splits the root, which is a leaf, and two of its children. -/
theorem run_bounded_of_seven :
    Throughout step (fresh ℕ ℕ 2) (fun t => t.Uniform ∧ t.Bounded)
      ((insertions [1, 2, 3, 4, 5, 6]).map .insert ++ [.remove 1]) :=
  run_bounded 2 _ (meets_noSurplus (by decide +kernel))

/-- The last insertion splits the internal root. The left half is left with two full leaves and
no key; the first of them is split, its right half put behind the second one, and the key put
into the second one. -/
theorem run_overfills_leaf :
    ¬Throughout step (fresh ℕ ℕ 2) (fun t => t.Uniform ∧ t.Bounded)
      ((insertions [6, 1, 10, 9, 5, 2, 8, 7, 12, 11, 3]).map .insert) := by
  have hbig : ∃ t ∈ attempt step (fresh ℕ ℕ 2)
      ((insertions [6, 1, 10, 9, 5, 2, 8, 7, 12, 11, 3]).map .insert),
      ∃ root ∈ t.root, ∃ n ∈ root.nodes, 2 * t.degree - 1 < (nodeKeys t.leaves n).length := by
    decide +kernel
  obtain ⟨t, hrun, root, hroot, n, hn, hlt⟩ := hbig
  intro h
  have hbounded := (h _ le_rfl t (by rwa [List.take_length])).2
  exact absurd (hbounded root hroot n hn) (not_le.2 hlt)

end BPlusTree

end LearnSpdk
