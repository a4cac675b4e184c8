import LearnSpdk.Lib.RedBlack

/-! Search trees: the position a key belongs to, the insertion of a new item at
it, and the removal of the item found there (by its in-order successor when it
has two children). Each is described by what it does to the list of items. -/

namespace Lib

open ColorTree Trail

variable {α β κ : Type*}

/-- The items are strictly increasing in their keys. -/
def Increasing [LT κ] (key : α → κ) (l : List α) : Prop := l.Pairwise fun a b => key a < key b

section Locate

variable [LinearOrder κ] (key : α → κ)

/-- Descends from the subtree `t` at the hole of `p` to the place of `k`: the
item with that key, or the empty tree where it would hang. -/
def locate (k : κ) : Trail α → ColorTree α → Trail α × ColorTree α
  | p, .nil => (p, .nil)
  | p, .node c l a r =>
    if k < key a then locate k (⟨.left, c, a, r⟩ :: p) l
    else if key a < k then locate k (⟨.right, c, a, l⟩ :: p) r
    else (p, .node c l a r)

variable {key}

theorem plug_locate (k : κ) (p : Trail α) (t : ColorTree α) :
    plug (locate key k p t).1 (locate key k p t).2 = plug p t := by
  fun_induction locate key k p t with
  | case1 p => rfl
  | case2 p c l a r h ih => exact ih
  | case3 p c l a r h h' ih => exact ih
  | case4 p c l a r h h' => rfl

theorem key_of_locate {k : κ} {p : Trail α} {t : ColorTree α} {c : Color} {l : ColorTree α} {a : α}
    {r : ColorTree α} (h : (locate key k p t).2 = .node c l a r) : key a = k := by
  fun_induction locate key k p t with
  | case1 p => cases h
  | case2 p c l a r _ ih => exact ih h
  | case3 p c l a r _ _ ih => exact ih h
  | case4 p c' l' a' r' h1 h2 =>
    cases h
    exact le_antisymm (not_lt.1 h1) (not_lt.1 h2)

/-- `k` lies strictly between the items on the two sides of the hole. -/
def Between (key : α → κ) (k : κ) (p : Trail α) : Prop :=
  (∀ a ∈ before p, key a < k) ∧ ∀ a ∈ after p, k < key a

theorem between_locate {k : κ} {p : Trail α} {t : ColorTree α} (hp : Between key k p)
    (h : Increasing key (plug p t).toList) : Between key k (locate key k p t).1 := by
  fun_induction locate key k p t with
  | case1 p => exact hp
  | case2 p c l a r hk ih =>
    refine ih ⟨hp.1, ?_⟩ h
    intro b hb
    rw [toList_plug, Increasing, List.pairwise_append] at h
    simp only [toList, List.append_assoc, List.cons_append, List.pairwise_append,
      List.pairwise_cons] at h
    simp only [after, List.mem_cons, List.mem_append] at hb
    rcases hb with rfl | hb | hb
    · exact hk
    · exact hk.trans (h.2.1.2.1.1 b (List.mem_append_left _ hb))
    · exact hp.2 b hb
  | case3 p c l a r hk hk' ih =>
    refine ih ⟨?_, hp.2⟩ h
    intro b hb
    rw [toList_plug, Increasing, List.pairwise_append] at h
    simp only [toList, List.append_assoc, List.cons_append, List.pairwise_append,
      List.pairwise_cons] at h
    simp only [before, List.mem_append, List.mem_singleton] at hb
    rcases hb with hb | hb | rfl
    · exact hp.1 b hb
    · exact (h.2.1.2.2 b hb a List.mem_cons_self).trans hk'
    · exact hk'
  | case4 p c l a r hk hk' => exact hp

theorem between_locate_nil {k : κ} {t : ColorTree α} (h : Increasing key t.toList) :
    Between key k (locate key k [] t).1 :=
  between_locate ⟨by simp [before], by simp [after]⟩ h

/-- The side of the hole below its parent, told by a comparison. -/
theorem side_of_between {k : κ} {f : Frame α} {p : Trail α} (h : Between key k (f :: p)) :
    (if k < key f.item then Side.left else Side.right) = f.side := by
  obtain ⟨d, c, a, o⟩ := f
  cases d with
  | left => exact if_pos (h.2 a List.mem_cons_self)
  | right =>
    have ha : a ∈ before (⟨.right, c, a, o⟩ :: p) := by simp [before]
    exact if_neg (h.1 a ha).asymm

theorem plug_of_locate {k : κ} {t s : ColorTree α} {p : Trail α} (h : locate key k [] t = (p, s)) :
    plug p s = t := by
  rw [← plug_nil t, ← plug_locate k [] t, h]

end Locate

/-! ### Insertion at a located hole -/

def insertHole (p : Trail α) (a : α) : ColorTree α := fixInsert p (.node .red .nil a .nil)

theorem toList_insertHole (p : Trail α) (a : α) :
    (insertHole p a).toList = before p ++ a :: after p := by
  rw [insertHole, toList_fixInsert, toList_plug]
  rfl

theorem isRedBlack_insertHole {p : Trail α} (h : IsRedBlack (plug p .nil)) (a : α) :
    IsRedBlack (insertHole p a) := by
  obtain ⟨n, hn, hp⟩ := h.focus
  rw [balanced_nil] at hn
  subst hn
  exact isRedBlack_fixInsert rfl ⟨rfl, rfl, rfl, rfl⟩ hp

/-! ### Removal of a located item -/

/-- Down the left children to the first item. -/
def leftmost : Trail α → ColorTree α → Trail α × ColorTree α
  | p, .nil => (p, .nil)
  | p, .node c .nil a r => (p, .node c .nil a r)
  | p, .node c (.node c' l' a' r') a r => leftmost (⟨.left, c, a, r⟩ :: p) (.node c' l' a' r')

theorem plug_leftmost (p : Trail α) (t : ColorTree α) :
    plug (leftmost p t).1 (leftmost p t).2 = plug p t := by
  fun_induction leftmost p t with
  | case1 p => rfl
  | case2 p c a r => rfl
  | case3 p c a r c' l' a' r' ih => exact ih

theorem before_leftmost (p : Trail α) (t : ColorTree α) : before (leftmost p t).1 = before p := by
  fun_induction leftmost p t with
  | case1 p => rfl
  | case2 p c a r => rfl
  | case3 p c a r c' l' a' r' ih => exact ih

theorem leftmost_snd (p q : Trail α) (t : ColorTree α) : (leftmost p t).2 = (leftmost q t).2 := by
  fun_induction leftmost p t generalizing q with
  | case1 p => rfl
  | case2 p c a r => rfl
  | case3 p c c' l' a' r' a r ih => exact ih _

theorem exists_leftmost (p : Trail α) {t : ColorTree α} (h : t ≠ .nil) :
    ∃ q c a r, leftmost p t = (q, .node c .nil a r) := by
  fun_induction leftmost p t with
  | case1 p => exact absurd rfl h
  | case2 p c a r => exact ⟨p, c, a, r, rfl⟩
  | case3 p c a r c' l' a' r' ih => exact ih (by simp)

/-- The first item of a non-empty tree, the context it sits in, and what
remains below it. -/
theorem leftmost_spec {t : ColorTree α} (h : t ≠ .nil) :
    ∃ q c a r, leftmost [] t = (q, .node c .nil a r) ∧ plug q (.node c .nil a r) = t ∧
      before q = [] := by
  obtain ⟨q, c, a, r, hq⟩ := exists_leftmost [] h
  have hplug := plug_leftmost [] t
  have hbefore := before_leftmost [] t
  rw [hq] at hplug hbefore
  exact ⟨q, c, a, r, hq, hplug, hbefore⟩

/-- Takes the root of the subtree at the hole of `p` out of the tree: the colour
of the node that leaves, and the position that took its place. With two
children the successor's item moves up and the successor's node leaves. -/
def splice (p : Trail α) : ColorTree α → Color × Trail α × ColorTree α
  | .nil => (.red, p, .nil)
  | .node c .nil _ r => (c, p, r)
  | .node c l _ .nil => (c, p, l)
  | .node c l _ r =>
    match leftmost [] r with
    | (q, .node cs _ s x) => (cs, q ++ ⟨.right, c, s, l⟩ :: p, x)
    | (q, .nil) => (.red, q, .nil)

/-- The repair after a node of the given colour has left. -/
def mend : Color → Trail α → ColorTree α → ColorTree α
  | .red, q, x => plug q x
  | .black, q, x => fixDelete q x

/-- Removes the root of the subtree at the hole of `p`. -/
def removeHole (p : Trail α) (t : ColorTree α) : ColorTree α :=
  mend (splice p t).1 (splice p t).2.1 (splice p t).2.2

theorem toList_mend (c : Color) (q : Trail α) (x : ColorTree α) :
    (mend c q x).toList = (plug q x).toList := by
  cases c with
  | red => rfl
  | black => exact toList_fixDelete q x

theorem toList_splice (p : Trail α) (c : Color) (l : ColorTree α) (a : α) (r : ColorTree α) :
    (plug (splice p (.node c l a r)).2.1 (splice p (.node c l a r)).2.2).toList =
      before p ++ ((l.toList ++ r.toList) ++ after p) := by
  rcases l with _ | ⟨cl, ll, al, rl⟩
  · exact toList_plug p r
  rcases r with _ | ⟨cr, lr, ar, rr⟩
  · rw [toList_nil, List.append_nil]
    exact toList_plug p _
  obtain ⟨q, cs, s, x, hq, hplug, hbefore⟩ :=
    leftmost_spec (node_ne_nil cr lr ar rr)
  simp only [splice, hq]
  rw [plug_append, plug_cons, toList_plug, ← hplug, toList_plug q]
  simp [Frame.fill, join, toList, toList_plug, hbefore]

theorem toList_removeHole (p : Trail α) (c : Color) (l : ColorTree α) (a : α) (r : ColorTree α) :
    (removeHole p (.node c l a r)).toList = before p ++ ((l.toList ++ r.toList) ++ after p) := by
  rw [removeHole, toList_mend, toList_splice]

/-- The red-black conditions do not read the items of the ancestors. -/
theorem fits_swap_item {q : Trail α} {d : Side} {c : Color} {a b : α} {o : ColorTree α}
    {p : Trail α} {n : ℕ} {k : Color} (h : Fits (q ++ ⟨d, c, a, o⟩ :: p) n k) :
    Fits (q ++ ⟨d, c, b, o⟩ :: p) n k := by
  induction q generalizing n k with
  | nil => exact h
  | cons f q ih => exact ⟨h.1, h.2.1, ih h.2.2⟩

/-- A node with an empty child leaves: harmless when it is red, one black node
short when it is black. -/
theorem splice_one {d : Side} {c : Color} {a : α} {x : ColorTree α} {p : Trail α} {n : ℕ}
    (hb : Balanced (join d c .nil a x) n) (hp : Fits p n c) :
    (c = .red → IsRedBlack (plug p x)) ∧ (c = .black → ∃ m, Short p x m) := by
  refine ⟨?_, ?_⟩
  · rintro rfl
    obtain ⟨-, hx, -, hbx⟩ := balanced_red.1 hb
    exact Fits.plug (by rw [hx]; exact hp.black) hbx
  · rintro rfl
    obtain ⟨m, rfl, -, hbx⟩ := balanced_black_inv hb
    exact ⟨m, hp, fun _ => hbx, fun hx => hbx.blacken_red hx⟩

theorem splice_spec {p : Trail α} {c : Color} {l : ColorTree α} {a : α} {r : ColorTree α}
    (h : IsRedBlack (plug p (.node c l a r))) :
    ((splice p (.node c l a r)).1 = .red →
      IsRedBlack (plug (splice p (.node c l a r)).2.1 (splice p (.node c l a r)).2.2)) ∧
    ((splice p (.node c l a r)).1 = .black →
      ∃ m, Short (splice p (.node c l a r)).2.1 (splice p (.node c l a r)).2.2 m) := by
  rcases l with _ | ⟨cl, ll, al, rl⟩
  · obtain ⟨n, hn, hp⟩ := h.focus
    exact splice_one (d := .left) hn hp
  rcases r with _ | ⟨cr, lr, ar, rr⟩
  · obtain ⟨n, hn, hp⟩ := h.focus
    exact splice_one (d := .right) hn hp
  obtain ⟨q, cs, s, x, hq, hplug, -⟩ :=
    leftmost_spec (node_ne_nil cr lr ar rr)
  simp only [splice, hq]
  -- the successor seen from the root, before it moves up
  have h' : IsRedBlack (plug (q ++ ⟨.right, c, a, .node cl ll al rl⟩ :: p) (.node cs .nil s x)) := by
    rw [plug_append, plug_cons]
    simpa only [Frame.fill, join, hplug] using h
  obtain ⟨n, hn, hp⟩ := h'.focus
  exact splice_one (d := .left) hn (fits_swap_item hp)

theorem isRedBlack_removeHole {p : Trail α} {c : Color} {l : ColorTree α} {a : α} {r : ColorTree α}
    (h : IsRedBlack (plug p (.node c l a r))) : IsRedBlack (removeHole p (.node c l a r)) := by
  obtain ⟨hr, hb⟩ := splice_spec h
  unfold removeHole
  cases hc : (splice p (.node c l a r)).1 with
  | red => exact hr hc
  | black =>
    obtain ⟨m, hm⟩ := hb hc
    exact isRedBlack_fixDelete hm

/-! ### The operations of a map -/

section Map

variable [LinearOrder κ] (key : α → κ)

/-- The item with key `k`. -/
def lookup (k : κ) (t : ColorTree α) : Option α :=
  match locate key k [] t with
  | (_, .nil) => none
  | (_, .node _ _ a _) => some a

/-- Puts `new` in the place of the item with key `k`, which it is told of. -/
def put (k : κ) (new : Option α → α) (t : ColorTree α) : ColorTree α :=
  match locate key k [] t with
  | (p, .nil) => insertHole p (new none)
  | (p, .node c l a r) => plug p (.node c l (new (some a)) r)

/-- Removes the item with key `k`. -/
def erase (k : κ) (t : ColorTree α) : ColorTree α :=
  match locate key k [] t with
  | (_, .nil) => t
  | (p, .node c l a r) => removeHole p (.node c l a r)

variable {key}

/-- The items below and above `k`, and what the operations put between them. -/
theorem toList_split (k : κ) {t : ColorTree α} (h : Increasing key t.toList) :
    ∃ lo hi, (∀ a ∈ lo, key a < k) ∧ (∀ a ∈ hi, k < key a) ∧
      (∀ a, lookup key k t = some a → key a = k) ∧
      t.toList = lo ++ ((lookup key k t).toList ++ hi) ∧
      (∀ new, (put key k new t).toList = lo ++ new (lookup key k t) :: hi) ∧
      (erase key k t).toList = lo ++ hi := by
  have hbetween := between_locate_nil (k := k) h
  unfold lookup put erase
  rcases hloc : locate key k [] t with ⟨p, _ | ⟨c, l, a, r⟩⟩
  · have hplug := plug_of_locate hloc
    rw [hloc] at hbetween
    refine ⟨before p, after p, hbetween.1, hbetween.2, (by simp), ?_, ?_, ?_⟩
    · rw [← hplug, toList_plug]; rfl
    · exact fun new => toList_insertHole p _
    · rw [← hplug, toList_plug]; rfl
  · have hplug := plug_of_locate hloc
    rw [hloc] at hbetween
    have hk : key a = k := key_of_locate (congrArg Prod.snd hloc)
    rw [← hplug, toList_plug, Increasing] at h
    simp only [toList, List.append_assoc, List.cons_append, List.pairwise_append,
      List.pairwise_cons] at h
    refine ⟨before p ++ l.toList, r.toList ++ after p, ?_, ?_, ?_, ?_, ?_, ?_⟩
    · intro b hb
      rcases List.mem_append.1 hb with hb | hb
      · exact hbetween.1 b hb
      · rw [← hk]; exact h.2.1.2.2 b hb a List.mem_cons_self
    · intro b hb
      rcases List.mem_append.1 hb with hb | hb
      · rw [← hk]; exact h.2.1.2.1.1 b (List.mem_append_left _ hb)
      · exact hbetween.2 b hb
    · rintro b ⟨⟩; exact hk
    · rw [← hplug, toList_plug]; simp [toList]
    · intro new; rw [toList_plug]; simp [toList]
    · rw [toList_removeHole]; simp

theorem increasing_erase (k : κ) {t : ColorTree α} (h : Increasing key t.toList) :
    Increasing key (erase key k t).toList := by
  obtain ⟨lo, hi, -, -, -, ht, -, herase⟩ := toList_split k h
  rw [ht] at h
  rw [herase]
  exact h.sublist ((List.sublist_append_right _ _).append_left lo)

theorem increasing_put {k : κ} {new : Option α → α} {t : ColorTree α} (h : Increasing key t.toList)
    (hk : key (new (lookup key k t)) = k) : Increasing key (put key k new t).toList := by
  have hrest := increasing_erase k h
  obtain ⟨lo, hi, hlo, hhi, -, -, hput, herase⟩ := toList_split k h
  rw [herase, Increasing, List.pairwise_append] at hrest
  rw [hput, Increasing, List.pairwise_append]
  refine ⟨hrest.1, List.pairwise_cons.2 ⟨?_, hrest.2.1⟩, ?_⟩
  · intro b hb
    rw [hk]
    exact hhi b hb
  · intro b hb b' hb'
    rcases List.mem_cons.1 hb' with rfl | hb'
    · rw [hk]
      exact hlo b hb
    · exact hrest.2.2 b hb b' hb'

theorem mem_put {k : κ} {new : Option α → α} {t : ColorTree α} (h : Increasing key t.toList) {b : α}
    (hb : b ∈ (put key k new t).toList) : b = new (lookup key k t) ∨ b ∈ t.toList := by
  obtain ⟨lo, hi, -, -, -, ht, hput, -⟩ := toList_split k h
  rw [hput, List.mem_append, List.mem_cons] at hb
  rw [ht, List.mem_append, List.mem_append]
  tauto

theorem mem_erase {k : κ} {t : ColorTree α} (h : Increasing key t.toList) {b : α}
    (hb : b ∈ (erase key k t).toList) : b ∈ t.toList := by
  obtain ⟨lo, hi, -, -, -, ht, -, herase⟩ := toList_split k h
  rw [herase, List.mem_append] at hb
  rw [ht, List.mem_append, List.mem_append]
  tauto

theorem lookup_eq_some {k : κ} {t : ColorTree α} (h : Increasing key t.toList) {a : α} :
    lookup key k t = some a ↔ a ∈ t.toList ∧ key a = k := by
  obtain ⟨lo, hi, hlo, hhi, hkey, ht, -, -⟩ := toList_split k h
  refine ⟨?_, ?_⟩
  · intro ha
    refine ⟨?_, hkey a ha⟩
    rw [ht, ha]
    simp
  · rintro ⟨ha, hk⟩
    rw [ht, List.mem_append, List.mem_append, Option.mem_toList] at ha
    rcases ha with ha | ha | ha
    · exact absurd hk (hlo a ha).ne
    · exact ha
    · exact absurd hk (hhi a ha).ne'

theorem lookup_put {k : κ} {new : Option α → α} {t : ColorTree α} (h : Increasing key t.toList)
    (hk : key (new (lookup key k t)) = k) :
    lookup key k (put key k new t) = some (new (lookup key k t)) := by
  rw [lookup_eq_some (increasing_put h hk)]
  obtain ⟨lo, hi, -, -, -, -, hput, -⟩ := toList_split k h
  refine ⟨?_, hk⟩
  rw [hput]
  simp

/-- Putting back the item that is there changes nothing. -/
theorem put_eq_self {k : κ} {new : Option α → α} {t : ColorTree α} {a : α}
    (ha : lookup key k t = some a) (hnew : new (some a) = a) : put key k new t = t := by
  unfold lookup at ha
  unfold put
  rcases hloc : locate key k [] t with ⟨p, _ | ⟨c, l, b, r⟩⟩
  · rw [hloc] at ha
    cases ha
  · rw [hloc] at ha
    cases ha
    simp only [hnew]
    exact plug_of_locate hloc

theorem isRedBlack_put (key : α → κ) (k : κ) (new : Option α → α) {t : ColorTree α} (h : IsRedBlack t) :
    IsRedBlack (put key k new t) := by
  unfold put
  rcases hloc : locate key k [] t with ⟨p, _ | ⟨c, l, a, r⟩⟩
  · rw [← plug_of_locate hloc] at h
    exact isRedBlack_insertHole h _
  · rw [← plug_of_locate hloc] at h
    obtain ⟨n, hn, hp⟩ := h.focus
    have hn' : Balanced (.node c l (new (some a)) r) n := by cases c <;> exact hn
    exact Fits.plug (t := .node c l (new (some a)) r) hp hn'

theorem isRedBlack_erase (key : α → κ) (k : κ) {t : ColorTree α} (h : IsRedBlack t) :
    IsRedBlack (erase key k t) := by
  unfold erase
  rcases hloc : locate key k [] t with ⟨p, _ | ⟨c, l, a, r⟩⟩
  · exact h
  · rw [← plug_of_locate hloc] at h
    exact isRedBlack_removeHole h

end Map

end Lib
