import LearnSpdk.Spec.BPlusCheck
import LearnSpdk.Proofs.BPlusShape

/-! What `validate` accepts. Its `child_min` is the least key below the first child and not
below the child looked at, so the test against the separator before the second child
fails in every internal node that has a key. -/

namespace LearnSpdk

open Lib BPlus

variable {K V : Type}

namespace Node

theorem length_le_leaves (n : Node K)
    (h : ∀ keys children, internal keys children ∈ n.nodes → children.length = keys.length + 1) :
    0 < n.leaves.length ∧
      ∀ keys children, n = internal keys children → children.length ≤ n.leaves.length := by
  induction n using induct with
  | leaf p => exact ⟨by simp, fun keys children he => by cases he⟩
  | internal keys children ih =>
    rw [nodes_internal] at h
    have hpos : ∀ c ∈ children, 0 < c.leaves.length := fun c hc =>
      (ih c hc fun ks cs hcs => h ks cs (List.mem_cons_of_mem _ (List.mem_flatMap.2 ⟨c, hc, hcs⟩))).1
    have hle : children.length ≤ (children.flatMap leaves).length := by
      clear h ih
      induction children with
      | nil => simp
      | cons c cs ihcs =>
        have hc := hpos c (by simp)
        have hcs := ihcs fun c' hc' => hpos c' (List.mem_cons_of_mem _ hc')
        simp only [List.length_cons, List.flatMap_cons, List.length_append]
        omega
    have hlen := h keys children (by simp)
    rw [leaves_internal]
    refine ⟨by omega, ?_⟩
    intro keys' children' he
    cases he
    exact hle

end Node

namespace BPlus

variable [LinearOrder K] {degree : ℕ} {H : Leaves K V}

theorem keysSorted_iff (keys : List K) : keysSorted keys = true ↔ keys.Pairwise (· < ·) := by
  rw [← List.isChain_iff_pairwise]
  fun_induction keysSorted keys with
  | case1 k k' keys h => simp [not_lt.2 h]
  | case2 k k' keys h ih => simp [ih, not_le.1 h]
  | case3 keys h =>
    rcases keys with _ | ⟨k, _ | ⟨k', keys⟩⟩
    · simp
    · simp
    · exact absurd rfl (h k k' keys)

theorem validateLeaf_declared (keys : List K) :
    validateLeaf keys .declared = some (false, .declared) ∧ ¬(keys ≠ [] ∧ keys.Pairwise (· < ·)) ∨
      ∃ lo hi, validateLeaf keys .declared = some (true, ⟨some lo, some hi, false⟩) ∧ lo ≤ hi ∧
        keys ≠ [] ∧ keys.Pairwise (· < ·) := by
  cases keys with
  | nil => exact .inl ⟨rfl, by simp⟩
  | cons k keys =>
    rw [← keysSorted_iff]
    obtain ⟨hi, hlast⟩ : ∃ hi, (k :: keys).getLast? = some hi := ⟨_, List.getLast?_eq_some_getLast (by simp)⟩
    cases hsorted : keysSorted (k :: keys) with
    | false => exact .inl ⟨by simp [validateLeaf, hlast, hsorted], by simp⟩
    | true =>
      refine .inr ⟨k, hi, by simp [validateLeaf, hlast, hsorted, Bounds.declared], ?_, by simp, rfl⟩
      rcases List.mem_cons.1 (List.mem_of_getLast? hlast) with rfl | hmem
      · exact le_rfl
      · exact (List.rel_of_pairwise_cons ((keysSorted_iff _).1 hsorted) hmem).le

theorem validateLeaf_later (keys : List K) (lo hi : K) :
    ∃ valid hi', validateLeaf keys ⟨some lo, some hi, false⟩ = some (valid, ⟨some lo, some hi', false⟩) := by
  unfold validateLeaf
  split
  · next front back _ _ =>
    split
    · by_cases h : front ≤ hi
      · exact ⟨false, hi, by simp [h]⟩
      · exact ⟨true, back, by simp [h]⟩
    · exact ⟨false, hi, rfl⟩
  · exact ⟨false, hi, rfl⟩

theorem validateChildren_rejects {s : K} {keys : List K} {c c' : Node K} {children : List (Node K)}
    (h : ∀ d ∈ c :: c' :: children, (∃ p, d = .leaf p) ∨
      ∀ b, validateNode degree H false d b = some (false, b)) :
    validateNode.validateChildren degree H (s :: keys) (c :: c' :: children) 0 .declared = some false := by
  rw [validateNode.validateChildren]
  obtain ⟨p, rfl⟩ | hc := h c (by simp)
  swap
  · simp [hc]
  rw [validateNode]
  split
  · simp
  obtain ⟨hfalse, -⟩ | ⟨lo, hi, htrue, hle, -⟩ := validateLeaf_declared (leafAt H p).keys
  · simp [hfalse]
  rw [htrue]
  by_cases hs : s < hi
  · simp [maxExceeds, hs]
  have hlo : lo ≤ s := hle.trans (not_lt.1 hs)
  simp only [Option.bind_eq_bind, Option.bind_some, Bool.not_true, Bool.false_eq_true, if_false,
    maxExceeds, List.getElem?_cons_zero, hs, decide_false, minReaches, lt_irrefl, Nat.zero_add,
    Option.pure_def]
  -- the second child: `child_min` still is `lo`
  rw [validateNode.validateChildren]
  obtain ⟨q, rfl⟩ | hc := h c' (by simp)
  swap
  · simp [hc]
  rw [validateNode]
  split
  · simp
  obtain ⟨valid, hi', heq⟩ := validateLeaf_later (leafAt H q).keys lo hi
  rw [heq]
  cases valid with
  | false => rfl
  | true =>
    simp only [Option.bind_eq_bind, Option.bind_some, Bool.not_true, Bool.false_eq_true, if_false,
      maxExceeds, minReaches, Nat.one_pos, if_true, Nat.sub_self, List.getElem?_cons_zero, hlo,
      decide_true, Option.pure_def]
    split <;> simp

theorem validateNode_of_key {isRoot : Bool} {s : K} {keys : List K} {children : List (Node K)}
    (h : ∀ d ∈ children, (∃ p, d = .leaf p) ∨ ∀ b, validateNode degree H false d b = some (false, b))
    (b : Bounds K) :
    validateNode degree H isRoot (.internal (s :: keys) children) b = some (false, b) := by
  rw [validateNode]
  split
  · rfl
  rcases children with _ | ⟨c, _ | ⟨c', children⟩⟩
  · rfl
  · simp
  · split
    · rfl
    · split
      · rfl
      · rw [validateChildren_rejects h]
        rfl

theorem leaf_or_rejected (hdegree : 2 ≤ degree) (n : Node K) :
    (∃ p, n = .leaf p) ∨ ∀ b, validateNode degree H false n b = some (false, b) := by
  induction n using Node.induct with
  | leaf p => exact .inl ⟨p, rfl⟩
  | internal keys children ih =>
    refine .inr fun b => ?_
    rcases keys with _ | ⟨s, keys⟩
    · have hunder : isUnderflow degree ([] : List K) = true := by
        rw [isUnderflow, decide_eq_true_iff, List.length_nil]
        omega
      rw [validateNode, hunder]
      rfl
    · exact validateNode_of_key ih b

def leafKeys (H : Leaves K V) (n : Node K) : List K := n.leaves.flatMap fun p => (leafAt H p).keys

end BPlus

namespace BPlusTree

variable [LinearOrder K] {t : BPlusTree K V}

/-- The invariant that `validate` is for. -/
structure Valid (t : BPlusTree K V) : Prop where
  shape : t.WellShaped
  leaf : ∀ p ∈ t.treeLeaves, (leafAt t.leaves p).keys ≠ [] ∧ (leafAt t.leaves p).keys.Pairwise (· < ·)
  fence : ∀ root, t.root = some root → ∀ keys children, .internal keys children ∈ root.nodes →
    ∀ i s, keys[i]? = some s →
      (∀ c, children[i]? = some c → ∀ k ∈ leafKeys t.leaves c, k ≤ s) ∧
      ∀ c, children[i + 1]? = some c → ∀ k ∈ leafKeys t.leaves c, s < k

theorem valid_leaf {p : ℕ} (hroot : t.root = some (.leaf p)) :
    t.Valid ↔ (leafAt t.leaves p).keys ≠ [] ∧ (leafAt t.leaves p).keys.Pairwise (· < ·) := by
  have hleaves : t.treeLeaves = [p] := by simp [treeLeaves, hroot]
  refine ⟨fun h => h.leaf p (by simp [hleaves]), fun h => ⟨?_, ?_, ?_⟩⟩
  · intro root hr
    obtain rfl := Option.some_inj.1 (hroot.symm.trans hr)
    simp [Node.nodes]
  · simpa [hleaves] using h
  · intro root hr keys children hmem
    obtain rfl := Option.some_inj.1 (hroot.symm.trans hr)
    simp [Node.nodes] at hmem

theorem valid_single {p : ℕ} (hroot : t.root = some (.internal [] [.leaf p])) :
    t.Valid ↔ isUnderflow t.degree (leafAt t.leaves p).keys = false ∧
      (leafAt t.leaves p).keys ≠ [] ∧ (leafAt t.leaves p).keys.Pairwise (· < ·) := by
  have hleaves : t.treeLeaves = [p] := by simp [treeLeaves, hroot, Node.leaves_internal]
  have hnodes : (Node.internal [] [.leaf p] : Node K).nodes = [.internal [] [.leaf p], .leaf p] := by
    rw [Node.nodes_internal]
    simp [Node.nodes]
  rw [isUnderflow, decide_eq_false_iff_not, not_lt]
  refine ⟨fun h => ⟨?_, h.leaf p (by simp [hleaves])⟩, fun h => ⟨?_, ?_, ?_⟩⟩
  · simpa [hnodes] using (h.shape _ hroot).2
  · intro root hr
    obtain rfl := Option.some_inj.1 (hroot.symm.trans hr)
    simpa [hnodes] using h.1
  · simpa [hleaves] using h.2
  · intro root hr keys children hmem i s hs
    obtain rfl := Option.some_inj.1 (hroot.symm.trans hr)
    obtain ⟨rfl, -⟩ : keys = [] ∧ children = [.leaf p] := by simpa [hnodes] using hmem
    simp at hs

theorem Valid.two_le_treeLeaves (h : t.Valid) {root : Node K} (hroot : t.root = some root)
    {s : K} {keys : List K} {children : List (Node K)}
    (hmem : root = .internal (s :: keys) children ∨
      root = .internal [] [.internal (s :: keys) children]) :
    2 ≤ t.treeLeaves.length := by
  obtain ⟨hcount, -⟩ := h.shape root hroot
  have hleaves : t.treeLeaves = (Node.internal (s :: keys) children).leaves := by
    obtain rfl | rfl := hmem <;> simp [treeLeaves, hroot, Node.leaves_internal]
  have hsub : ∀ n ∈ (Node.internal (s :: keys) children).nodes, n ∈ root.nodes := by
    obtain rfl | rfl := hmem
    · exact fun n hn => hn
    · intro n hn
      rw [Node.nodes_internal]
      simp [hn]
  have hlen := (Node.length_le_leaves (.internal (s :: keys) children) fun ks cs hcs =>
    hcount ks cs (hsub _ hcs)).2 _ _ rfl
  have := hcount (s :: keys) children (hsub _ (by simp [Node.nodes_internal]))
  rw [hleaves]
  simp only [List.length_cons] at this
  omega

/-- The case of an internal root. It is accepted over a single leaf only. -/
theorem validate_internal {keys : List K} {children : List (Node K)}
    (hroot : t.root = some (.internal keys children)) :
    ∃ b, (do return (← validateNode t.degree t.leaves true (.internal keys children) .declared).1) = some b ∧
      (b = true ↔ t.Valid ∧ t.treeLeaves.length ≤ 1) := by
  have hcount (h : t.Valid) : children.length = keys.length + 1 :=
    (h.shape _ hroot).1 _ _ (by simp [Node.nodes_internal])
  have hno (s : K) (ks : List K) (cs : List (Node K))
      (hkey : Node.internal keys children = .internal (s :: ks) cs ∨
        Node.internal keys children = .internal [] [.internal (s :: ks) cs]) :
      ¬(t.Valid ∧ t.treeLeaves.length ≤ 1) := by
    rintro ⟨hvalid, hle⟩
    have := hvalid.two_le_treeLeaves hroot hkey
    omega
  rcases keys with _ | ⟨s, keys⟩
  swap
  · have hrej : validateNode t.degree t.leaves true (.internal (s :: keys) children) .declared =
        some (false, .declared) :=
      validateNode_of_key (fun d _ => leaf_or_rejected t.two_le_degree d) .declared
    exact ⟨false, by simp [hrej], by simpa using hno s keys children (.inl rfl)⟩
  rcases children with _ | ⟨c, _ | ⟨c', children⟩⟩
  · exact ⟨false, by simp [validateNode], by simpa using fun h => absurd (hcount h) (by simp)⟩
  · rcases c with p | ⟨ks, cs⟩
    · rw [valid_single hroot]
      cases hunder : isUnderflow t.degree (leafAt t.leaves p).keys with
      | true => exact ⟨false, by simp [validateNode, validateNode.validateChildren, hunder], by simp⟩
      | false =>
        obtain ⟨hfalse, hnot⟩ | ⟨lo, hi, htrue, -, h⟩ := validateLeaf_declared (leafAt t.leaves p).keys
        · exact ⟨false, by simp [validateNode, validateNode.validateChildren, hunder, hfalse], by simp [hnot]⟩
        · refine ⟨true, ?_, by simp [h, treeLeaves, hroot, Node.leaves_internal]⟩
          simp [validateNode, validateNode.validateChildren, hunder, htrue, maxExceeds, minReaches]
    · have hrej := (leaf_or_rejected (H := t.leaves) t.two_le_degree (.internal ks cs)).resolve_left
        (by simp)
      refine ⟨false, by rw [validateNode, validateNode.validateChildren, hrej]; rfl, ?_⟩
      rcases ks with _ | ⟨s, ks⟩
      · have hsize (h : t.Valid) : t.degree - 1 ≤ 0 :=
          (h.shape _ hroot).2 (.internal [] cs) (by simp [Node.nodes_internal])
        simpa using fun h => absurd (hsize h) (by have := t.two_le_degree; omega)
      · simpa using hno s ks cs (.inr rfl)
  · exact ⟨false, by simp [validateNode], by simpa using fun h => absurd (hcount h) (by simp)⟩

/-- `validate` reads no key that was not written, and accepts the valid trees of at most one
leaf. -/
theorem validate_spec (t : BPlusTree K V) :
    ∃ b, t.validate = some b ∧ (b = true ↔ t.Valid ∧ t.treeLeaves.length ≤ 1) := by
  unfold validate
  split
  · next hroot =>
    have hvalid : t.Valid := by
      refine ⟨?_, ?_, ?_⟩ <;> simp [WellShaped, treeLeaves, hroot]
    exact ⟨true, rfl, by simp [hvalid, treeLeaves, hroot]⟩
  · next root hroot =>
    rcases root with p | ⟨keys, children⟩
    · rw [valid_leaf hroot, validateNode]
      obtain ⟨hfalse, hnot⟩ | ⟨lo, hi, htrue, -, h⟩ := validateLeaf_declared (leafAt t.leaves p).keys
      · exact ⟨false, by simp [hfalse], by simp [hnot]⟩
      · exact ⟨true, by simp [htrue], by simp [h, treeLeaves, hroot]⟩
    · exact validate_internal hroot

/-- The answer of `validate` is right exactly for the trees of at most one leaf and those
that break the invariant. -/
theorem validate_correct_iff (t : BPlusTree K V) :
    (∃ b, t.validate = some b ∧ (b = true ↔ t.Valid)) ↔ t.treeLeaves.length ≤ 1 ∨ ¬t.Valid := by
  obtain ⟨b, hb, hiff⟩ := t.validate_spec
  rw [hb]
  refine ⟨?_, ?_⟩
  · rintro ⟨b', hb', hright⟩
    obtain rfl := Option.some_inj.1 hb'
    by_cases hvalid : t.Valid
    · exact .inl (hiff.1 (hright.2 hvalid)).2
    · exact .inr hvalid
  · intro h
    refine ⟨b, rfl, hiff.trans ⟨And.left, fun hvalid => ⟨hvalid, ?_⟩⟩⟩
    exact h.resolve_right (not_not_intro hvalid)

def pair : BPlusTree ℕ ℕ where
  degree := 2
  two_le_degree := le_rfl
  leaves := [⟨[1], [1], some 1⟩, ⟨[2], [2], none⟩]
  root := some (.internal [1] [.leaf 0, .leaf 1])
  firstLeaf := some 0

theorem validate_rejects_pair : ¬∃ b, pair.validate = some b ∧ (b = true ↔ pair.Valid) := by
  have hfalse : pair.validate = some false := by decide
  have hnodes : (Node.internal [1] [.leaf 0, .leaf 1] : Node ℕ).nodes =
      [.internal [1] [.leaf 0, .leaf 1], .leaf 0, .leaf 1] := by
    rw [Node.nodes_internal]
    simp [Node.nodes]
  have hvalid : pair.Valid := by
    refine ⟨?_, by decide, ?_⟩
    · intro root hroot
      obtain rfl := Option.some_inj.1 hroot
      rw [hnodes]
      simp [pair, leafAt]
    · intro root hroot keys children hmem i s hs
      obtain rfl := Option.some_inj.1 hroot
      obtain ⟨rfl, rfl⟩ : keys = [1] ∧ children = [.leaf 0, .leaf 1] := by simpa [hnodes] using hmem
      obtain ⟨rfl, rfl⟩ : i = 0 ∧ 1 = s := by simpa [List.getElem?_singleton] using hs
      simp [leafKeys, pair, leafAt]
  rintro ⟨b, hb, hiff⟩
  obtain rfl := Option.some_inj.1 (hfalse.symm.trans hb)
  simpa using hiff.2 hvalid

end BPlusTree

end LearnSpdk
