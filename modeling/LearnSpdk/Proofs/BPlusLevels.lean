import LearnSpdk.Lib.Attempt
import LearnSpdk.Proofs.BPlusShape

/-! The levels of a tree. All leaves stay on one level, in every run of `insert` and
`remove` and whatever the separators are: a split makes two nodes of one level out of one,
a new root is one level above the old one, and what a removal takes away is a leaf. The
numbers of keys and of children of the internal nodes are followed along. -/

namespace LearnSpdk

open Lib BPlus

variable {K V : Type}

namespace Node

/-- The leaves below a node are `n` levels down, and the numbers of keys and of children of
every internal node are related by `Q`. -/
inductive Levels (Q : ℕ → ℕ → Prop) : ℕ → Node K → Prop
  | leaf (p : ℕ) : Levels Q 0 (.leaf p)
  | internal {n : ℕ} {keys : List K} {children : List (Node K)} (hQ : Q keys.length children.length)
      (hall : ∀ c ∈ children, Levels Q n c) : Levels Q (n + 1) (.internal keys children)

variable {Q : ℕ → ℕ → Prop} {n : ℕ}

theorem Levels.children {keys : List K} {children : List (Node K)}
    (h : (Node.internal keys children).Levels Q n) :
    Q keys.length children.length ∧ ∃ m, n = m + 1 ∧ ∀ c ∈ children, c.Levels Q m := by
  cases h with
  | internal hQ hall => exact ⟨hQ, _, rfl, hall⟩

theorem Levels.eq_leaf {node : Node K} (h : node.Levels Q 0) : ∃ p, node = .leaf p := by
  cases h with
  | leaf p => exact ⟨p, rfl⟩

end Node

open Node

namespace BPlus

variable {degree : ℕ} {Q : ℕ → ℕ → Prop} {n : ℕ}

/-- A relation between numbers of keys and of children that the splits and the removals
keep. -/
structure Closed (degree : ℕ) (Q : ℕ → ℕ → Prop) : Prop where
  left : ∀ k c, 2 * degree - 1 ≤ k → Q k c → Q (k / 2) (k / 2 + 1)
  right : ∀ k c, 2 * degree - 1 ≤ k → Q k c → Q (k - (k / 2 + 1)) (c - (k / 2 + 1))
  root : Q 1 2
  erase : ∀ k c, Q k c → 0 < c → Q (k - 1) (c - 1)

/-- The left half of a full root keeps the relation although it loses a key. -/
def RootLeft (degree : ℕ) (Q : ℕ → ℕ → Prop) : Prop :=
  ∀ k c, 2 * degree - 1 ≤ k → Q k c → Q (k / 2 - 1) (k / 2 + 1)

/-- The two halves of a full internal node, the left one perhaps with a key less. -/
theorem splitInternal_levels (hQ : Closed degree Q) {keys : List K} {children : List (Node K)}
    {l r : List K × List (Node K)} (h : splitInternal keys children = some (l, r))
    (hfull : isFull degree keys = true) (hlevels : (Node.internal keys children).Levels Q n) :
    (Node.internal l.1 l.2).Levels Q n ∧ (Node.internal r.1 r.2).Levels Q n ∧
      (RootLeft degree Q → ∀ ks : List K, ks.length = l.1.length - 1 → (Node.internal ks l.2).Levels Q n) := by
  obtain ⟨hlen, rfl, rfl⟩ := splitInternal_eq_some h
  obtain ⟨hkc, m, rfl, hall⟩ := hlevels.children
  have hkeys := isFull_eq_true.1 hfull
  have hleft : ∀ c ∈ children.take (keys.length / 2 + 1), c.Levels Q m :=
    fun c hc => hall c (List.mem_of_mem_take hc)
  have hmid : (keys.take (keys.length / 2)).length = keys.length / 2 := by
    rw [List.length_take]
    omega
  have hmid' : (children.take (keys.length / 2 + 1)).length = keys.length / 2 + 1 := by
    rw [List.length_take]
    omega
  refine ⟨.internal ?_ hleft, .internal ?_ fun c hc => hall c (List.mem_of_mem_drop hc), ?_⟩
  · rw [hmid, hmid']
    exact hQ.left _ _ hkeys hkc
  · rw [List.length_drop, List.length_drop]
    exact hQ.right _ _ hkeys hkc
  · intro hroot ks hks
    refine .internal ?_ hleft
    rw [hks, hmid, hmid']
    exact hroot _ _ hkeys hkc

theorem splitLeafNode_levels {p : ℕ} {H H' : Leaves K V} {left right : Node K} {s : K}
    (h : splitLeafNode p H = some (left, s, right, H')) (hlevels : (Node.leaf p : Node K).Levels Q n) :
    left.Levels Q n ∧ right.Levels Q n := by
  obtain ⟨rfl, rfl, -, -⟩ := splitLeafNode_eq_some h
  cases hlevels with
  | leaf => exact ⟨.leaf p, .leaf _⟩

theorem splitChild_levels (hQ : Closed degree Q) {promoted s : K} {child left right : Node K}
    {H H' : Leaves K V} (h : splitChild promoted child H = some (left, s, right, H'))
    (hfull : nodeFull degree H child = true) (hlevels : child.Levels Q n) :
    left.Levels Q n ∧ right.Levels Q n := by
  cases child with
  | leaf p => exact splitLeafNode_levels h hlevels
  | internal keys children =>
    obtain ⟨l, r, hsplit, rfl, rfl, rfl⟩ := splitChild_internal h
    obtain ⟨hl, hr, -⟩ := splitInternal_levels hQ hsplit hfull hlevels
    exact ⟨hl, hr⟩

theorem splitRoot_levels (hQ : Closed degree Q) {root left right : Node K} {s : K}
    {H H' : Leaves K V} (h : splitRoot root H = some (left, s, right, H'))
    (hfull : nodeFull degree H root = true)
    (hroot : ∀ keys children, root = .internal keys children → RootLeft degree Q)
    (hlevels : root.Levels Q n) : left.Levels Q n ∧ right.Levels Q n := by
  cases root with
  | leaf p => exact splitLeafNode_levels h hlevels
  | internal keys children =>
    obtain ⟨l, r, hsplit, hpromote, rfl, rfl, rfl⟩ := splitRoot_internal h
    obtain ⟨-, hr, hl⟩ := splitInternal_levels hQ hsplit hfull hlevels
    refine ⟨hl (hroot keys children rfl) _ ?_, hr⟩
    exact List.length_eraseIdx_of_lt (List.getElem?_eq_some_iff.1 hpromote).1

theorem eraseChild_length (idx : ℕ) (keys : List K) (children : List (Node K))
    (hidx : idx ≤ keys.length) (hlt : idx < children.length) :
    (eraseChild idx keys children).1.length = keys.length - 1 ∧
      (eraseChild idx keys children).2.length = children.length - 1 := by
  refine ⟨?_, List.length_eraseIdx_of_lt hlt⟩
  unfold eraseChild
  split
  · exact List.length_eraseIdx_of_lt (by omega)
  · split
    · next hnil => simp [List.isEmpty_iff.1 hnil]
    · next hnil =>
      refine List.length_eraseIdx_of_lt (List.length_pos_iff.2 ?_)
      simpa using hnil

theorem forall_mem_set {children : List (Node K)} {child : Node K} (hall : ∀ c ∈ children, c.Levels Q n)
    (hchild : child.Levels Q n) (idx : ℕ) : ∀ c ∈ children.set idx child, c.Levels Q n := by
  intro c hc
  rcases List.mem_or_eq_of_mem_set hc with hc | rfl
  · exact hall c hc
  · exact hchild

variable [LinearOrder K]

/-- The half of a full internal root that an insertion of `key` goes into. The left one has lost
the promoted key, but not its child. -/
def rootHalf (key : K) (keys : List K) (children : List (Node K)) : Node K :=
  let mid := keys.length / 2
  if keys[mid / 2]?.any (· < key) then .internal (keys.drop (mid + 1)) (children.drop (mid + 1))
  else .internal ((keys.take mid).eraseIdx (mid / 2)) (children.take (mid + 1))

/-- The root, or the half of a full internal root, that an insertion of `key` goes through. -/
def entered (degree : ℕ) (key : K) : Node K → Node K
  | .leaf p => .leaf p
  | .internal keys children =>
    if isFull degree keys then rootHalf key keys children else .internal keys children

theorem lowerBound_singleton (key s : K) : lowerBound key [s] = if s < key then 1 else 0 := by
  by_cases hlt : s < key <;> simp [lowerBound, hlt]

/-- The children stay on their level, and a split makes one key and one child more. -/
theorem makeRoom_levels (hQ : Closed degree Q) {promoted key : K} {keys keys' : List K}
    {children children' : List (Node K)} {H H' : Leaves K V} {idx : ℕ}
    (h : makeRoom degree promoted key keys children H = some (idx, keys', children', H'))
    (hall : ∀ c ∈ children, c.Levels Q n) :
    (∀ c ∈ children', c.Levels Q n) ∧
      (keys' = keys ∧ children' = children ∨ 0 < children.length ∧
        keys'.length = keys.length + 1 ∧ children'.length = children.length + 1) := by
  obtain ⟨child, hchild, ⟨-, -, rfl, rfl, -⟩ | ⟨hfull, left, s, right, s', hsplit, hins, -, -⟩⟩ :=
    makeRoom_cases h
  · exact ⟨hall, .inl ⟨rfl, rfl⟩⟩
  · obtain ⟨hl, hr⟩ := splitChild_levels hQ hsplit hfull (hall _ (List.mem_of_getElem? hchild))
    obtain ⟨hlt, -⟩ := List.getElem?_eq_some_iff.1 hchild
    have hlt' : lowerBound key keys < (children.set (lowerBound key keys) left).length := by
      simpa using hlt
    obtain ⟨hlen, hlen', -⟩ := insertChild_length s right (lowerBound_le key keys) hlt'
    rw [← hins, List.length_set] at hlen'
    rw [← hins] at hlen
    refine ⟨?_, .inr ⟨by omega, hlen, hlen'⟩⟩
    intro c hc
    rw [show children' = (insertChild _ _ _ _ _).2 from congrArg Prod.snd hins] at hc
    rcases mem_insertChild hc with rfl | hc
    · exact hr
    · exact forall_mem_set hall hl _ c hc

theorem insertNonfull_levels (hQ : Closed degree Q) (hgrow : ∀ k c, Q k c → 0 < c → Q (k + 1) (c + 1))
    {promoted : ℕ → K} {key : K} {value : V} {node node' : Node K} {H H' : Leaves K V}
    (h : insertNonfull degree promoted key value node H = some (node', H')) (hlevels : node.Levels Q n) :
    node'.Levels Q n := by
  refine insertNonfull_induct (P := fun node _ node' _ => ∀ n, node.Levels Q n → node'.Levels Q n)
    ?_ ?_ node h n hlevels
  · intro p H n hp
    exact hp
  · intro keys children H idx keys' children' H₁ child child' H' hroom hchild ih n hnode
    obtain ⟨hkc, m, rfl, hall⟩ := hnode.children
    obtain ⟨hall', hcount⟩ := makeRoom_levels hQ hroom hall
    refine .internal ?_ (forall_mem_set hall' (ih m (hall' _ (List.mem_of_getElem? hchild))) idx)
    rw [List.length_set]
    obtain ⟨rfl, rfl⟩ | ⟨hpos, hk, hc⟩ := hcount
    · exact hkc
    · rw [hk, hc]
      exact hgrow _ _ hkc hpos

theorem removeRecursive_levels (hQ : Closed degree Q) {key : K} {node node' : Node K}
    {H H' : Leaves K V} {under : Bool}
    (h : removeRecursive degree key node H = some (node', H', under)) (hlevels : node.Levels Q n) :
    node'.Levels Q n := by
  refine removeRecursive_induct
    (P := fun node _ node' _ _ => ∀ n, node.Levels Q n → node'.Levels Q n) ?_ ?_ ?_ node h n hlevels
  · intro p H n hp
    exact hp
  · intro keys children H child child' H' under hchild ih _ n hnode
    obtain ⟨hkc, m, rfl, hall⟩ := hnode.children
    have hset := forall_mem_set hall (ih m (hall _ (List.mem_of_getElem? hchild))) (lowerBound key keys)
    exact .internal (by rwa [List.length_set]) hset
  · intro keys children H child child' H' keys' children' hchild ih _ herase n hnode
    obtain ⟨hkc, m, rfl, hall⟩ := hnode.children
    have hset := forall_mem_set hall (ih m (hall _ (List.mem_of_getElem? hchild))) (lowerBound key keys)
    obtain ⟨hlt, -⟩ := List.getElem?_eq_some_iff.1 hchild
    obtain ⟨hk, hc⟩ := eraseChild_length (lowerBound key keys) keys
      (children.set (lowerBound key keys) child') (lowerBound_le key keys) (by simpa using hlt)
    rw [← herase] at hk hc
    rw [List.length_set] at hc
    refine .internal ?_ ?_
    · rw [hk, hc]
      exact hQ.erase _ _ hkc (by omega)
    · intro c hc
      rw [show children' = (eraseChild _ _ _).2 from congrArg Prod.snd herase] at hc
      exact hset c (List.mem_of_mem_eraseIdx hc)

end BPlus

namespace BPlusTree

variable {Q : ℕ → ℕ → Prop} {t t' : BPlusTree K V}

def Leveled (Q : ℕ → ℕ → Prop) (t : BPlusTree K V) : Prop :=
  ∀ root, t.root = some root → ∃ n, root.Levels Q n

theorem fresh_leveled (deg : ℤ) : (fresh K V deg).Leveled Q := by
  intro root hroot
  cases hroot

theorem growRoot_levels (hQ : Closed t.degree Q) {root root' : Node K} {H : Leaves K V} {n : ℕ}
    (h : t.growRoot root = some (root', H))
    (hroot : ∀ keys children, root = .internal keys children → isFull t.degree keys = true → RootLeft t.degree Q)
    (hlevels : root.Levels Q n) :
    nodeFull t.degree H root' = false ∧ ∃ n', root'.Levels Q n' := by
  obtain ⟨hfull, rfl, rfl⟩ | ⟨hfull, left, s, right, hsplit, rfl⟩ := growRoot_cases h
  · exact ⟨hfull, n, hlevels⟩
  · have hleft : ∀ keys children, root = .internal keys children → RootLeft t.degree Q := by
      rintro keys children rfl
      exact hroot keys children rfl hfull
    obtain ⟨hl, hr⟩ := splitRoot_levels hQ hsplit hfull hleft hlevels
    refine ⟨?_, n + 1, .internal hQ.root ?_⟩
    · have := t.two_le_degree
      rw [nodeFull, isFull_eq_false, List.length_singleton]
      omega
    · simp [hl, hr]

variable [LinearOrder K]

/-- The root that an insertion starts from, in terms of the tree before. -/
theorem growRoot_entered {root root' : Node K} {H : Leaves K V} (h : t.growRoot root = some (root', H))
    (key : K) :
    root' = root ∧ H = t.leaves ∧ nodeFull t.degree t.leaves root = false ∧ entered t.degree key root = root ∨
      ∃ s left right, root' = .internal [s] [left, right] ∧
        ((∃ p q, root = .leaf p ∧ left = .leaf p ∧ right = .leaf q) ∨
          H = t.leaves ∧ (∃ keys children, root = .internal keys children) ∧
            entered t.degree key root = if s < key then right else left) := by
  obtain ⟨hfull, rfl, rfl⟩ | ⟨hfull, left, s, right, hsplit, rfl⟩ := growRoot_cases h
  · refine .inl ⟨rfl, rfl, hfull, ?_⟩
    cases root' with
    | leaf p => rfl
    | internal keys children =>
      rw [nodeFull] at hfull
      simp [entered, hfull]
  · refine .inr ⟨s, left, right, rfl, ?_⟩
    cases root with
    | leaf p =>
      obtain ⟨rfl, rfl, -⟩ := splitLeafNode_eq_some hsplit
      exact .inl ⟨p, _, rfl, rfl, rfl⟩
    | internal keys children =>
      obtain ⟨l, r, hhalves, hs, rfl, rfl, rfl⟩ := splitRoot_internal hsplit
      obtain ⟨-, rfl, rfl⟩ := splitInternal_eq_some hhalves
      refine .inr ⟨rfl, ⟨keys, children, rfl⟩, ?_⟩
      rw [nodeFull] at hfull
      have hkeys := isFull_eq_true.1 hfull
      have hdegree := t.two_le_degree
      have hmid : (keys.take (keys.length / 2)).length = keys.length / 2 := by
        rw [List.length_take]
        omega
      simp only [hmid] at hs ⊢
      rw [List.getElem?_take_of_lt (by omega)] at hs
      simp [entered, hfull, rootHalf, hs]

theorem remove_leveled (hQ : Closed t.degree Q) {k : K} (h : t.remove k = some t')
    (hlevels : t.Leveled Q) : t'.Leveled Q := by
  cases hroot : t.root with
  | none =>
    simp only [BPlusTree.remove, hroot, Option.some.injEq] at h
    exact h ▸ hlevels
  | some root =>
    obtain ⟨n, hn⟩ := hlevels root hroot
    obtain ⟨root', H', under, hrec, hcases⟩ := remove_cases hroot h
    have hn' := removeRecursive_levels hQ hrec hn
    rcases hcases with ⟨q, rfl, -, rfl⟩ | ⟨q, rfl, -, rfl⟩ | ⟨child, rfl, rfl⟩ |
      ⟨keys, children, rfl, -, rfl⟩
    · intro root hroot
      cases hroot
    · intro root hroot
      obtain rfl := Option.some_inj.1 hroot
      exact ⟨n, hn'⟩
    · intro root hroot
      obtain rfl := Option.some_inj.1 hroot
      obtain ⟨-, m, -, hall⟩ := hn'.children
      exact ⟨m, hall _ (by simp)⟩
    · intro root hroot
      obtain rfl := Option.some_inj.1 hroot
      exact ⟨n, hn'⟩

theorem insert_leveled (hQ : Closed t.degree Q) (hroot : t.fullInternalRoot = true → RootLeft t.degree Q)
    (hgrow : ∀ k c, Q k c → 0 < c → Q (k + 1) (c + 1)) {promoted : ℕ → K} {k : K} {v : V}
    (h : t.insert promoted k v = some t') (hlevels : t.Leveled Q) : t'.Leveled Q := by
  cases hnode : t.root with
  | none =>
    simp only [BPlusTree.insert, hnode, Option.some.injEq] at h
    subst h
    intro root hroot
    obtain rfl := Option.some_inj.1 hroot
    exact ⟨0, .leaf _⟩
  | some root =>
    obtain ⟨n, hn⟩ := hlevels root hnode
    obtain ⟨root₁, H₁, root', H', hgrown, hrec, rfl⟩ := insert_grown hnode h
    have hleft : ∀ keys children, root = .internal keys children → isFull t.degree keys = true →
        RootLeft t.degree Q := by
      rintro keys children rfl hfull
      exact hroot (by rw [fullInternalRoot, hnode]; exact hfull)
    obtain ⟨-, n', hn'⟩ := growRoot_levels hQ hgrown hleft hn
    intro root hroot
    obtain rfl := Option.some_inj.1 hroot
    exact ⟨n', insertNonfull_levels hQ hgrow hrec hn'⟩

/-- A call keeps the levels, if it splits no internal root or the split of a root keeps them. -/
theorem step_leveled (hQ : Closed t.degree Q) {op : Op K V} (hroot : t.NoRootSplit op ∨ RootLeft t.degree Q)
    (hgrow : ∀ k c, Q k c → 0 < c → Q (k + 1) (c + 1)) (h : step op t = some t')
    (hlevels : t.Leveled Q) : t'.Leveled Q := by
  cases op with
  | insert i =>
    refine insert_leveled hQ (fun hfull => hroot.resolve_left fun hnot => ?_) hgrow h hlevels
    exact Bool.false_ne_true (hnot.symm.trans hfull)
  | remove key => exact remove_leveled hQ h hlevels

end BPlusTree

end LearnSpdk
