import LearnSpdk.Spec.BPlusAccess
import LearnSpdk.Proofs.BPlusLevels

/-! Which calls stay inside their vectors. A removal leaves them only in an internal node
that lost its last child, and an insertion there and where it splits an internal child. The
child counts drift from the key counts, but no node that has a child has too few. -/

namespace LearnSpdk

open Lib BPlus

variable {K V : Type}

namespace BPlus

/-- All positions are inside their vectors. -/
def InRange (as : List Access) : Prop := ∀ a ∈ as, a.pos < a.size

@[simp] theorem inRange_nil : InRange [] := by simp [InRange]

@[simp] theorem inRange_cons {a : Access} {as : List Access} :
    InRange (a :: as) ↔ a.pos < a.size ∧ InRange as := by simp [InRange]

@[simp] theorem inRange_append {as bs : List Access} : InRange (as ++ bs) ↔ InRange as ∧ InRange bs := by
  simp [InRange, or_imp, forall_and]

/-- One child more than keys at least, or neither. -/
def Covered (k c : ℕ) : Prop := k + 1 ≤ c ∨ k = 0 ∧ c = 0

theorem closed_covered (degree : ℕ) : Closed degree Covered where
  left k c _ _ := by unfold Covered; omega
  right k c _ h := by unfold Covered at *; omega
  root := by unfold Covered; omega
  erase k c h _ := by unfold Covered at *; omega

theorem rootLeft_covered (degree : ℕ) : RootLeft degree Covered := by
  intro k c _ _
  unfold Covered
  omega

variable {degree : ℕ} {H : Leaves K V}

theorem splitLeafAccesses_inRange (hdegree : 2 ≤ degree) {p : ℕ}
    (hfull : isFull degree (leafAt H p).keys = true) : InRange (splitLeafAccesses p H) := by
  rw [isFull_eq_true] at hfull
  simp only [splitLeafAccesses, inRange_cons, inRange_nil, and_true, leafAt_splitLeaf_new, List.length_drop]
  omega

theorem splitRootAccesses_inRange (hdegree : 2 ≤ degree) {root : Node K} {n : ℕ}
    (hlevels : root.Levels Covered n) (hfull : nodeFull degree H root = true) :
    InRange (splitRootAccesses root H) := by
  cases root with
  | leaf p => exact splitLeafAccesses_inRange hdegree hfull
  | internal keys children =>
    have hkeys : 2 * degree - 1 ≤ keys.length := isFull_eq_true.1 hfull
    have hcovered := hlevels.children.1
    unfold Covered at hcovered
    simp only [splitRootAccesses, splitAccesses, inRange_append, inRange_cons, inRange_nil, and_true,
      List.length_take]
    omega

theorem eraseAccesses_inRange {idx : ℕ} {keys : List K} {children : List (Node K)}
    (hidx : idx ≤ keys.length) (hlt : idx < children.length) :
    InRange (eraseAccesses idx keys children) := by
  unfold eraseAccesses
  split
  · simp only [inRange_cons, inRange_nil, and_true]
    omega
  · split
    · simpa using hlt
    · next hnil =>
      have hpos : 0 < keys.length := List.length_pos_iff.2 (by simpa using hnil)
      simp [hlt, hpos]

theorem afterRemoveAccesses_inRange {idx : ℕ} {keys : List K} {children : List (Node K)}
    (hidx : idx ≤ keys.length) (hlt : idx < children.length) (r : Option (Node K × Leaves K V × Bool)) :
    InRange (afterRemoveAccesses idx keys children r) := by
  unfold afterRemoveAccesses
  split
  · rw [inRange_cons]
    refine ⟨hlt, ?_⟩
    split
    · exact eraseAccesses_inRange hidx (by simpa using hlt)
    · exact inRange_nil
  · exact inRange_nil

variable [LinearOrder K]

theorem findLeaf_of_none {key : K} {keys : List K} {children : List (Node K)}
    (h : children[lowerBound key keys]? = none) : findLeaf key (.internal keys children) = none := by
  rw [findLeaf]
  split
  · rfl
  · next hsome => simp [h] at hsome

/-- A removal stays inside the vectors if and only if `find_leaf` finds a leaf. -/
theorem removeRecursiveAccesses_inRange (key : K) (node : Node K) (H : Leaves K V) :
    InRange (removeRecursiveAccesses degree key node H) ↔ ∃ p, findLeaf key node = some p := by
  induction node using Node.induct generalizing H with
  | leaf p => simp [removeRecursiveAccesses, findLeaf]
  | internal keys children ih =>
    rw [removeRecursiveAccesses, inRange_cons]
    split
    · next hnone =>
      have hle := List.getElem?_eq_none_iff.1 hnone
      simp [findLeaf_of_none hnone, hle]
    · next child hchild =>
      obtain ⟨hlt, -⟩ := List.getElem?_eq_some_iff.1 hchild
      have hafter := afterRemoveAccesses_inRange (lowerBound_le key keys) hlt
        (removeRecursive degree key child H)
      rw [inRange_append, ih child (List.mem_of_getElem? hchild), findLeaf_internal hchild]
      simp [hlt, hafter]

/-- On the way of `find_leaf` every internal node has the child, and no child is a full
internal node. -/
inductive Clear (degree : ℕ) (key : K) : Node K → Prop
  | leaf (p : ℕ) : Clear degree key (.leaf p)
  | internal {keys : List K} {children : List (Node K)} {child : Node K}
      (hchild : children[lowerBound key keys]? = some child)
      (hroom : ∀ ks cs, child = .internal ks cs → isFull degree ks = false)
      (h : Clear degree key child) : Clear degree key (.internal keys children)

theorem Clear.child {key : K} {keys : List K} {children : List (Node K)}
    (h : Clear degree key (.internal keys children)) :
    ∃ child, children[lowerBound key keys]? = some child ∧
      (∀ ks cs, child = .internal ks cs → isFull degree ks = false) ∧ Clear degree key child := by
  cases h with
  | internal hchild hroom h => exact ⟨_, hchild, hroom, h⟩

theorem insertNonfullAccesses_internal {promoted : ℕ → K} {key : K} {keys keys' : List K}
    {children children' : List (Node K)} {H' : Leaves K V} {idx : ℕ} {child : Node K}
    (hroom : makeRoom degree (promoted (Node.depth.depths children)) key keys children H =
      some (idx, keys', children', H')) (hchild : children'[idx]? = some child) :
    insertNonfullAccesses degree promoted key (.internal keys children) H =
      makeRoomAccesses degree key keys children H ++
        ⟨idx, children'.length⟩ :: insertNonfullAccesses degree promoted key child H' := by
  rw [insertNonfullAccesses]
  split
  · next hnone => simp [hnone] at hroom
  · next idx₁ keys₁ children₁ H₁ hroom₁ =>
    obtain ⟨rfl, rfl, rfl, rfl⟩ : idx₁ = idx ∧ keys₁ = keys' ∧ children₁ = children' ∧ H₁ = H' := by
      simpa using hroom₁.symm.trans hroom
    split
    · next hnone => simp [hnone] at hchild
    · next child₁ hchild₁ =>
      obtain rfl : child₁ = child := Option.some_inj.1 (hchild₁.symm.trans hchild)
      rfl

theorem makeRoom_leaf (hdegree : 2 ≤ degree) (promoted : K) {key : K} {keys : List K}
    {children : List (Node K)} {p : ℕ} (hcovered : Covered keys.length children.length)
    (hall : ∀ c ∈ children, c.Levels Covered 0)
    (hchild : children[lowerBound key keys]? = some (.leaf p)) :
    ∃ idx keys' children' H' q, makeRoom degree promoted key keys children H =
      some (idx, keys', children', H') ∧ children'[idx]? = some (.leaf q) := by
  obtain ⟨hlt, -⟩ := List.getElem?_eq_some_iff.1 hchild
  have hlen : keys.length + 1 ≤ children.length := by
    unfold Covered at hcovered
    omega
  have hroomy : ∀ c ∈ children, c.Roomy := by
    intro c hc
    obtain ⟨q, rfl⟩ := (hall c hc).eq_leaf
    exact .leaf q
  obtain ⟨idx, keys', children', H', hroom, hidx, -⟩ := makeRoom_roomy (H := H) hdegree hlen hroomy promoted key
  have hchild' := List.getElem?_eq_getElem hidx
  obtain ⟨hall', -⟩ := makeRoom_levels (closed_covered degree) hroom hall
  obtain ⟨q, hq⟩ := (hall' _ (List.mem_of_getElem? hchild')).eq_leaf
  exact ⟨idx, keys', children', H', q, hroom, hchild'.trans (by rw [hq])⟩

/-- Below a node whose children are leaves: the insertion stays inside the vectors. -/
theorem insertNonfullAccesses_leaf (hdegree : 2 ≤ degree) (promoted : ℕ → K) {key : K} {keys : List K}
    {children : List (Node K)} {p : ℕ} (hcovered : Covered keys.length children.length)
    (hall : ∀ c ∈ children, c.Levels Covered 0)
    (hchild : children[lowerBound key keys]? = some (.leaf p))
    (hfull : nodeFull degree H (.leaf p) = true) :
    InRange (insertNonfullAccesses degree promoted key (.internal keys children) H) := by
  obtain ⟨hlt, -⟩ := List.getElem?_eq_some_iff.1 hchild
  obtain ⟨idx, keys', children', H', q, hroom, hchild'⟩ :=
    makeRoom_leaf (H := H) hdegree (promoted (Node.depth.depths children)) hcovered hall hchild
  obtain ⟨hidx, -⟩ := List.getElem?_eq_some_iff.1 hchild'
  rw [insertNonfullAccesses_internal hroom hchild', insertNonfullAccesses, makeRoomAccesses, hchild]
  have hidx' := lowerBound_le key keys
  have hsplit : InRange (splitLeafAccesses p H) := splitLeafAccesses_inRange hdegree hfull
  simp only [hfull, if_true, splitChildAccesses, inRange_append, inRange_cons, inRange_nil, and_true]
  exact ⟨⟨hlt, hsplit, by omega⟩, hidx⟩

/-- No split in the node: the insertion goes on to the child. -/
theorem insertNonfullAccesses_of_room {promoted : ℕ → K} {key : K} {keys : List K}
    {children : List (Node K)} {child : Node K} (hchild : children[lowerBound key keys]? = some child)
    (hfull : nodeFull degree H child = false) :
    InRange (insertNonfullAccesses degree promoted key (.internal keys children) H) ↔
      InRange (insertNonfullAccesses degree promoted key child H) := by
  obtain ⟨hlt, -⟩ := List.getElem?_eq_some_iff.1 hchild
  have hroom : makeRoom degree (promoted (Node.depth.depths children)) key keys children H =
      some (lowerBound key keys, keys, children, H) := by simp [makeRoom, hchild, hfull]
  rw [insertNonfullAccesses_internal hroom hchild, makeRoomAccesses, hchild]
  simp [hfull, hlt]

/-- A full internal child: its promoted key is read past the end. -/
theorem insertNonfullAccesses_past {promoted : ℕ → K} {key : K} {keys ks : List K}
    {children cs : List (Node K)} (hchild : children[lowerBound key keys]? = some (.internal ks cs))
    (hfull : isFull degree ks = true) :
    ¬InRange (insertNonfullAccesses degree promoted key (.internal keys children) H) := by
  rw [insertNonfullAccesses, inRange_append, makeRoomAccesses, inRange_cons, hchild]
  intro h
  have hpast := h.1.2
  simp [nodeFull, hfull, splitChildAccesses] at hpast

/-- An insertion stays inside the vectors if and only if its way is clear. -/
theorem insertNonfullAccesses_inRange (hdegree : 2 ≤ degree) (promoted : ℕ → K) (key : K) {n : ℕ}
    {node : Node K} (hlevels : node.Levels Covered n) (H : Leaves K V) :
    InRange (insertNonfullAccesses degree promoted key node H) ↔ Clear degree key node := by
  induction hlevels generalizing H with
  | leaf p => simp [insertNonfullAccesses, Clear.leaf]
  | @internal n keys children hcovered hall ih =>
    cases hchild : children[lowerBound key keys]? with
    | none =>
      have hle := List.getElem?_eq_none_iff.1 hchild
      rw [insertNonfullAccesses, inRange_append, makeRoomAccesses, inRange_cons]
      refine ⟨fun h => absurd h.1.1 (not_lt.2 hle), fun h => ?_⟩
      obtain ⟨child, hsome, -⟩ := h.child
      simp [hchild] at hsome
    | some child =>
      have hmem := List.mem_of_getElem? hchild
      have hclear (h : Clear degree key (.internal keys children)) :
          (∀ ks cs, child = .internal ks cs → isFull degree ks = false) ∧ Clear degree key child := by
        obtain ⟨child', hchild', h⟩ := h.child
        exact Option.some_inj.1 (hchild'.symm.trans hchild) ▸ h
      cases hfull : nodeFull degree H child with
      | false =>
        rw [insertNonfullAccesses_of_room hchild hfull, ih child hmem]
        refine ⟨fun h => .internal hchild ?_ h, fun h => (hclear h).2⟩
        rintro ks cs rfl
        exact hfull
      | true =>
        cases child with
        | leaf p =>
          obtain rfl : n = 0 := by cases hall _ hmem; rfl
          exact ⟨fun _ => .internal hchild (by simp) (.leaf p),
            fun _ => insertNonfullAccesses_leaf hdegree promoted hcovered hall hchild hfull⟩
        | internal ks cs =>
          refine ⟨fun h => absurd h (insertNonfullAccesses_past hchild hfull), fun h => ?_⟩
          have hroom := (hclear h).1 ks cs rfl
          rw [nodeFull, hroom] at hfull
          cases hfull

theorem removeRecursive_isSome {key : K} {node : Node K} (h : ∃ p, findLeaf key node = some p)
    (H : Leaves K V) : ∃ r, removeRecursive degree key node H = some r := by
  induction node using Node.induct generalizing H with
  | leaf p => exact ⟨_, by rw [removeRecursive]⟩
  | internal keys children ih =>
    cases hchild : children[lowerBound key keys]? with
    | none => simp [findLeaf_of_none hchild] at h
    | some child =>
      rw [findLeaf_internal hchild] at h
      obtain ⟨⟨child', H', under⟩, hrec⟩ := ih child (List.mem_of_getElem? hchild) h H
      exact ⟨_, removeRecursive_internal hchild hrec⟩

theorem insertNonfull_isSome (hdegree : 2 ≤ degree) (promoted : ℕ → K) {key : K} (value : V) {n : ℕ}
    {node : Node K} (hlevels : node.Levels Covered n) (hclear : Clear degree key node) (H : Leaves K V) :
    ∃ r, insertNonfull degree promoted key value node H = some r := by
  induction hlevels generalizing H with
  | leaf p => exact ⟨_, by rw [insertNonfull]⟩
  | @internal n keys children hcovered hall ih =>
    obtain ⟨child, hchild, hroom, hclear'⟩ := hclear.child
    have hmem := List.mem_of_getElem? hchild
    cases hfull : nodeFull degree H child with
    | false =>
      have hmake : makeRoom degree (promoted (Node.depth.depths children)) key keys children H =
          some (lowerBound key keys, keys, children, H) := by simp [makeRoom, hchild, hfull]
      obtain ⟨r, hr⟩ := ih child hmem hclear' H
      exact ⟨_, by rw [insertNonfull_internal hmake hchild, hr]; rfl⟩
    | true =>
      cases child with
      | leaf p =>
        obtain rfl : n = 0 := by cases hall _ hmem; rfl
        obtain ⟨idx, keys', children', H', q, hmake, hchild'⟩ :=
          makeRoom_leaf (H := H) hdegree (promoted (Node.depth.depths children)) hcovered hall hchild
        exact ⟨_, by rw [insertNonfull_internal hmake hchild', insertNonfull]; rfl⟩
      | internal ks cs =>
        have hnot := hroom ks cs rfl
        rw [nodeFull, hnot] at hfull
        cases hfull

end BPlus

namespace BPlusTree

variable {t t' : BPlusTree K V}

theorem growRoot_isSome {root : Node K} {n : ℕ} (hlevels : root.Levels Covered n) :
    ∃ r, t.growRoot root = some r := by
  unfold growRoot
  split
  swap
  · exact ⟨_, rfl⟩
  · next hfull =>
    cases root with
    | leaf p =>
      obtain ⟨s, hs⟩ := splitLeafNode_roomy t.two_le_degree hfull
      exact ⟨_, by rw [splitRoot, hs]; rfl⟩
    | internal keys children =>
      have hkeys : 2 * t.degree - 1 ≤ keys.length := isFull_eq_true.1 hfull
      have hdegree := t.two_le_degree
      have hlen : keys.length + 1 ≤ children.length := by
        have hcovered := hlevels.children.1
        unfold Covered at hcovered
        omega
      have hlt : (keys.take (keys.length / 2)).length / 2 < (keys.take (keys.length / 2)).length := by
        rw [List.length_take]
        omega
      simp only [splitRoot, splitInternal_eq hlen, Option.bind_eq_bind, Option.bind_some,
        List.getElem?_eq_getElem hlt]
      exact ⟨_, rfl⟩

variable [LinearOrder K]

/-- The call meets no internal node without children on its way, and as an insertion no full
internal node. A full root is met as one of its halves. -/
def WayClear (t : BPlusTree K V) : Op K V → Prop
  | .insert i => ∀ root, t.root = some root →
      (∀ ks cs, entered t.degree i.key root = .internal ks cs → isFull t.degree ks = false) ∧
        Clear t.degree i.key (entered t.degree i.key root)
  | .remove key => ∀ root, t.root = some root → ∃ p, findLeaf key root = some p

theorem clear_growRoot_iff {root root' : Node K} {H : Leaves K V} (h : t.growRoot root = some (root', H))
    (key : K) : Clear t.degree key root' ↔
      (∀ ks cs, entered t.degree key root = .internal ks cs → isFull t.degree ks = false) ∧
        Clear t.degree key (entered t.degree key root) := by
  obtain ⟨rfl, -, hfull, hentered⟩ | ⟨s, left, right, rfl, ⟨p, q, rfl, rfl, rfl⟩ | ⟨-, -, hentered⟩⟩ :=
    growRoot_entered h key
  · rw [hentered]
    refine ⟨fun hclear => ⟨?_, hclear⟩, fun hclear => hclear.2⟩
    rintro ks cs rfl
    exact hfull
  · have hleaf : ∃ r, ([.leaf p, .leaf q] : List (Node K))[lowerBound key [s]]? = some (.leaf r) := by
      rw [lowerBound_singleton]
      split
      · exact ⟨q, rfl⟩
      · exact ⟨p, rfl⟩
    obtain ⟨r, hr⟩ := hleaf
    exact ⟨fun _ => ⟨by simp [entered], .leaf p⟩, fun _ => .internal hr (by simp) (.leaf r)⟩
  · have hchild : [left, right][lowerBound key [s]]? = some (entered t.degree key root) := by
      rw [hentered, lowerBound_singleton]
      split <;> rfl
    refine ⟨fun hclear => ?_, fun hclear => .internal hchild hclear.1 hclear.2⟩
    obtain ⟨child, hchild', hroom, hclear'⟩ := hclear.child
    obtain rfl := Option.some_inj.1 (hchild'.symm.trans hchild)
    exact ⟨hroom, hclear'⟩

theorem accesses_inRange (h : t.Leveled Covered) (op : Op K V) :
    InRange (t.accesses op) ↔ t.WayClear op := by
  cases hroot : t.root with
  | none => cases op <;> simp [accesses, WayClear, hroot]
  | some root =>
    obtain ⟨n, hn⟩ := h root hroot
    cases op with
    | remove key => simp [accesses, WayClear, hroot, removeRecursiveAccesses_inRange]
    | insert i =>
      have hsplit : InRange
          (if nodeFull t.degree t.leaves root then splitRootAccesses root t.leaves else []) := by
        split
        · next hfull => exact splitRootAccesses_inRange t.two_le_degree hn hfull
        · exact inRange_nil
      obtain ⟨⟨root', H'⟩, hgrown⟩ := growRoot_isSome (t := t) hn
      obtain ⟨-, n', hn'⟩ := growRoot_levels (closed_covered t.degree) hgrown
        (fun _ _ _ _ => rootLeft_covered t.degree) hn
      simp only [accesses, hroot, hgrown, inRange_append, hsplit, true_and, WayClear, Option.some_inj,
        forall_eq']
      exact (insertNonfullAccesses_inRange t.two_le_degree i.promoted i.key hn' H').trans
        (clear_growRoot_iff hgrown i.key)

theorem step_isSome_of_inRange (h : t.Leveled Covered) {op : Op K V} (hin : InRange (t.accesses op)) :
    ∃ t', step op t = some t' := by
  rw [accesses_inRange h] at hin
  cases hroot : t.root with
  | none =>
    cases op with
    | insert i => exact ⟨_, by rw [step, BPlusTree.insert, hroot]⟩
    | remove key => exact ⟨_, by rw [step, BPlusTree.remove, hroot]⟩
  | some root =>
    obtain ⟨n, hn⟩ := h root hroot
    cases op with
    | insert i =>
      obtain ⟨⟨root₁, H₁⟩, hgrown⟩ := growRoot_isSome (t := t) hn
      obtain ⟨-, n', hn'⟩ := growRoot_levels (closed_covered t.degree) hgrown
        (fun _ _ _ _ => rootLeft_covered t.degree) hn
      obtain ⟨r, hr⟩ := insertNonfull_isSome t.two_le_degree i.promoted i.value hn'
        ((clear_growRoot_iff hgrown i.key).2 (hin root hroot)) H₁
      simp only [step, BPlusTree.insert, hroot, Option.bind_eq_bind, hgrown, Option.bind_some, hr]
      exact ⟨_, rfl⟩
    | remove key =>
      obtain ⟨⟨root', H', under⟩, hrec⟩ : ∃ r, removeRecursive t.degree key root t.leaves = some r :=
        removeRecursive_isSome (hin root hroot) t.leaves
      simp only [step, BPlusTree.remove, hroot, Option.bind_eq_bind, hrec, Option.bind_some]
      split
      · split <;> exact ⟨_, rfl⟩
      · exact ⟨_, rfl⟩
      · exact ⟨_, rfl⟩

theorem step_covered {op : Op K V} (h : t.Leveled Covered) (hstep : step op t = some t') :
    t'.Leveled Covered :=
  step_leveled (closed_covered t.degree) (.inr (rootLeft_covered t.degree))
    (fun k c h _ => by unfold Covered at *; omega) hstep h

theorem attempt_covered {deg : ℤ} {ops : List (Op K V)} (h : attempt step (fresh K V deg) ops = some t) :
    t.Leveled Covered :=
  attempt_induct (fresh_leveled deg) (fun _ _ _ => step_covered) h

/-- Every access of every call of a run is in range if and only if each call finds its way
clear, and then the run comes to its end. -/
theorem run_inRange_iff (deg : ℤ) (ops : List (Op K V)) :
    (Meets step (fresh K V deg) (fun t op => InRange (t.accesses op)) ops ↔
      Meets step (fresh K V deg) WayClear ops) ∧
    (Meets step (fresh K V deg) WayClear ops → ∃ t, attempt step (fresh K V deg) ops = some t) := by
  have hiff : Meets step (fresh K V deg) (fun t op => InRange (t.accesses op)) ops ↔
      Meets step (fresh K V deg) WayClear ops :=
    meets_congr fun _ _ op hrun => accesses_inRange (attempt_covered hrun) op
  refine ⟨hiff, fun h => ?_⟩
  obtain ⟨t, ht, -⟩ := (hiff.2 h).survives (fresh_leveled deg) fun t op hcovered hin => by
    obtain ⟨t', hstep⟩ := step_isSome_of_inRange hcovered hin
    exact ⟨t', hstep, step_covered hcovered hstep⟩
  exact ⟨t, ht⟩

/-- Keys in ascending order: the ninth insertion splits the last child of the root and reads
its promoted key past the end. -/
theorem run_reads_past_end :
    ¬Meets step (fresh ℕ ℕ 2) (fun t op => InRange (t.accesses op))
      ((insertions [1, 2, 3, 4, 5, 6, 7, 8, 9]).map .insert) := by
  have hout : ∃ t ∈ attempt step (fresh ℕ ℕ 2) ((insertions [1, 2, 3, 4, 5, 6, 7, 8]).map .insert),
      ∃ a ∈ t.accesses (.insert ⟨9, 9, fun _ => 0⟩), a.size ≤ a.pos := by
    decide +kernel
  obtain ⟨t, hrun, a, ha, hle⟩ := hout
  intro h
  exact absurd (h 8 (by decide) t hrun a ha) (not_lt.2 hle)

end BPlusTree

end LearnSpdk
