import LearnSpdk.Lib.ColorTree

/-! The red-black conditions, and the repair of a single violation by moving it
towards the root: a red node that may have a red parent (`fixInsert`), and a
subtree one black node short (`fixDelete`). Both keep the items in order. -/

namespace Lib

open ColorTree Trail

variable {α β : Type*}

/-- `Balanced t n`: no red node has a red child and every way down from the
root passes `n` black nodes. -/
def Balanced : ColorTree α → ℕ → Prop
  | .nil, n => n = 0
  | .node .red l _ r, n => l.color = .black ∧ r.color = .black ∧ Balanced l n ∧ Balanced r n
  | .node .black l _ r, n => ∃ m, n = m + 1 ∧ Balanced l m ∧ Balanced r m

@[simp] theorem balanced_nil {n : ℕ} : Balanced (.nil : ColorTree α) n ↔ n = 0 := Iff.rfl

theorem balanced_red {d : Side} {t : ColorTree α} {a : α} {o : ColorTree α} {n : ℕ} :
    Balanced (join d .red t a o) n ↔
      t.color = .black ∧ o.color = .black ∧ Balanced t n ∧ Balanced o n := by
  cases d <;> simp only [join, Balanced]
  tauto

theorem balanced_black {d : Side} {t : ColorTree α} {a : α} {o : ColorTree α} {n : ℕ} :
    Balanced (join d .black t a o) (n + 1) ↔ Balanced t n ∧ Balanced o n := by
  cases d <;> simp only [join, Balanced, Nat.add_right_cancel_iff]
  · simp
  · simp [and_comm]

theorem balanced_black_inv {d : Side} {t : ColorTree α} {a : α} {o : ColorTree α} {n : ℕ}
    (h : Balanced (join d .black t a o) n) : ∃ m, n = m + 1 ∧ Balanced t m ∧ Balanced o m := by
  cases d <;> obtain ⟨m, hm, h1, h2⟩ := h
  exacts [⟨m, hm, h1, h2⟩, ⟨m, hm, h2, h1⟩]

/-- A tree that is due a black node on every way down has a root. -/
theorem Balanced.ne_nil {t : ColorTree α} {n : ℕ} (h : Balanced t (n + 1)) : t ≠ .nil := by
  rintro rfl
  exact absurd h (by simp)

theorem Balanced.blacken_red {t : ColorTree α} {n : ℕ} (h : Balanced t n) (hc : t.color = .red) :
    Balanced t.blacken (n + 1) := by
  obtain ⟨x, a, y, rfl⟩ := exists_join_of_red .left hc
  rw [balanced_red] at h
  rw [blacken_join, balanced_black]
  exact ⟨h.2.2.1, h.2.2.2⟩

/-- The red-black conditions of a whole tree. -/
def IsRedBlack (t : ColorTree α) : Prop := t.color = .black ∧ ∃ n, Balanced t n

theorem isRedBlack_nil : IsRedBlack (.nil : ColorTree α) := ⟨rfl, 0, rfl⟩

theorem Balanced.isRedBlack_blacken {t : ColorTree α} {n : ℕ} (h : Balanced t n) :
    IsRedBlack t.blacken := by
  refine ⟨color_blacken t, ?_⟩
  cases hc : t.color with
  | red => exact ⟨_, h.blacken_red hc⟩
  | black => exact ⟨n, by rwa [blacken_of_black hc]⟩

def Color.weight : Color → ℕ
  | .red => 0
  | .black => 1

/-- `Fits p n c`: a balanced tree with `n` black nodes on every way down and a
root of colour `c` completes `p` to a red-black tree. -/
def Fits : Trail α → ℕ → Color → Prop
  | [], _, c => c = .black
  | f :: p, n, c => Balanced f.other n ∧ (f.color = .red → c = .black ∧ f.other.color = .black) ∧
      Fits p (n + f.color.weight) f.color

theorem Fits.black {p : Trail α} {n : ℕ} {c : Color} (h : Fits p n c) : Fits p n .black := by
  cases p with
  | nil => rfl
  | cons f p => exact ⟨h.1, fun hf => ⟨rfl, (h.2.1 hf).2⟩, h.2.2⟩

theorem fits_cons_fill {f : Frame α} {t : ColorTree α} {n : ℕ} (h : Balanced t n)
    (ho : Balanced f.other n) (hr : f.color = .red → t.color = .black ∧ f.other.color = .black) :
    Balanced (f.fill t) (n + f.color.weight) := by
  obtain ⟨d, c, a, o⟩ := f
  cases c with
  | red => exact balanced_red.2 ⟨(hr rfl).1, (hr rfl).2, h, ho⟩
  | black => exact balanced_black.2 ⟨h, ho⟩

/-- Completing a fitting context gives a red-black tree. -/
theorem Fits.plug {p : Trail α} {t : ColorTree α} {n : ℕ} (hp : Fits p n t.color) (ht : Balanced t n) :
    IsRedBlack (plug p t) := by
  induction p generalizing t n with
  | nil => exact ⟨hp, n, ht⟩
  | cons f p ih =>
    rw [plug_cons]
    refine ih (t := f.fill t) (n := n + f.color.weight) ?_ (fits_cons_fill ht hp.1 hp.2.1)
    rw [Frame.fill, color_join]
    exact hp.2.2

/-- Every position of a red-black tree sits in a fitting context. -/
theorem IsRedBlack.focus {p : Trail α} {t : ColorTree α} (h : IsRedBlack (Trail.plug p t)) :
    ∃ n, Balanced t n ∧ Fits p n t.color := by
  induction p generalizing t with
  | nil => exact ⟨h.2.choose, h.2.choose_spec, h.1⟩
  | cons f p ih =>
    obtain ⟨n, hb, hf⟩ := ih h
    obtain ⟨d, c, a, o⟩ := f
    simp only [Frame.fill, color_join] at hb hf
    cases c with
    | red =>
      obtain ⟨ht, ho, hbt, hbo⟩ := balanced_red.1 hb
      exact ⟨n, hbt, hbo, fun _ => ⟨ht, ho⟩, hf⟩
    | black =>
      obtain ⟨m, rfl, hbt, hbo⟩ := balanced_black_inv hb
      exact ⟨m, hbt, hbo, (by simp), hf⟩

/-- A red parent has a black parent of its own, since the root is black. -/
theorem Fits.exists_grandparent {f : Frame α} {p : Trail α} {n : ℕ} {c : Color}
    (h : Fits (f :: p) n c) (hf : f.color = .red) : ∃ g q, p = g :: q ∧ g.color = .black := by
  have hp := h.2.2
  rw [hf] at hp
  cases p with
  | nil => cases hp
  | cons g q =>
    refine ⟨g, q, rfl, ?_⟩
    cases hg : g.color with
    | red => cases (hp.2.1 hg).1
    | black => rfl

/-- Above a red parent with a fitting context: the sibling, the uncle and the
context of the grandparent. -/
theorem Fits.below_red {f g : Frame α} {p : Trail α} {n : ℕ} {c : Color}
    (h : Fits (f :: g :: p) n c) (hf : f.color = .red) :
    Balanced f.other n ∧ f.other.color = .black ∧ Balanced g.other n ∧ Fits p (n + 1) .black := by
  obtain ⟨g', q, hq, hg⟩ := h.exists_grandparent hf
  cases hq
  obtain ⟨hfo, hfr, hgo, -, hgp⟩ := h
  simp only [hf, hg, Color.weight, Nat.add_zero] at hgo hgp
  exact ⟨hfo, (hfr hf).2, hgo, hgp⟩

theorem Fits.any_color {f : Frame α} {p : Trail α} {n : ℕ} {c : Color} (h : Fits (f :: p) n c)
    (hf : f.color = .black) (c' : Color) : Fits (f :: p) n c' :=
  ⟨h.1, fun hr => absurd (hf.symm.trans hr) (by decide), h.2.2⟩

theorem Fits.plug_black {p : Trail α} {t : ColorTree α} {n : ℕ} (hp : Fits p n .black)
    (ht : Balanced t n) (hc : t.color = .black) : IsRedBlack (Trail.plug p t).blacken := by
  have := Fits.plug (t := t) (by rwa [hc]) ht
  rwa [blacken_of_black this.1]

/-! ### A red node below a red node -/

/-- Lifts the violation at a red `t` in the hole of `p` until it is gone or at
the root. -/
def raise : Trail α → ColorTree α → ColorTree α
  | f :: g :: p, t =>
    if f.color = .red then
      if g.other.color = .red then
        raise p (join g.side .red (join f.side .black t f.item f.other) g.item g.other.blacken)
      else if f.side = g.side then
        plug p (join g.side .black t f.item (join g.side .red f.other g.item g.other))
      else match t.split g.side with
        | some (_, x, a, y) =>
          plug p (join g.side .black (join g.side .red f.other f.item x) a
            (join g.side .red y g.item g.other))
        | none => plug (f :: g :: p) t
    else plug (f :: g :: p) t
  | p, t => plug p t

theorem raise_of_black {f : Frame α} (h : f.color = .black) (p : Trail α) (t : ColorTree α) :
    raise (f :: p) t = plug (f :: p) t := by
  cases p with
  | nil => rfl
  | cons g p => rw [raise, if_neg (by simp [h])]

/-- Repairs a red `t` placed at the hole of `p`. -/
def fixInsert (p : Trail α) (t : ColorTree α) : ColorTree α := (raise p t).blacken

theorem toList_raise (p : Trail α) (t : ColorTree α) : (raise p t).toList = (plug p t).toList := by
  fun_induction raise p t with
  | case1 f g p t hf hu ih =>
    rw [ih]
    apply toList_plug_congr
    apply toList_join_congr
    · exact toList_join_congr _ rfl rfl
    · exact toList_blacken _
  | case2 f g p t hf hu hs =>
    rw [plug_cons, plug_cons]
    apply toList_plug_congr
    rw [Frame.fill, Frame.fill, hs]
    cases g.side <;> simp [join, toList]
  | case3 f g p t hf hu hs c x a y hsplit =>
    rw [plug_cons, plug_cons]
    apply toList_plug_congr
    obtain ⟨d, c', b, o⟩ := f
    obtain ⟨e, c'', b', o'⟩ := g
    cases t with
    | nil => cases hsplit
    | node ct l at' r =>
      cases d <;> cases e <;> simp_all [split, Frame.fill, join, toList]
  | case4 f g p t hf hu hs hsplit => rfl
  | case5 f g p t hf => rfl
  | case6 p t hp => rfl

theorem raise_ne_nil (p : Trail α) {t : ColorTree α} (ht : t ≠ .nil) :
    raise p t ≠ .nil := by
  intro e
  have h := toList_raise p t
  obtain ⟨c, x, a, y, rfl⟩ := exists_join .left ht
  rw [e, toList_plug] at h
  simp [join, toList] at h

theorem toList_fixInsert (p : Trail α) (t : ColorTree α) :
    (fixInsert p t).toList = (plug p t).toList := (toList_blacken _).trans (toList_raise p t)

/-- The repair ends in a red-black tree when the only violations are that `t`
is the root or has a red parent. -/
theorem isRedBlack_fixInsert {p : Trail α} {t : ColorTree α} {n : ℕ} (hc : t.color = .red)
    (ht : Balanced t n) (hp : Fits p n .black) : IsRedBlack (fixInsert p t) := by
  unfold fixInsert
  fun_induction raise p t generalizing n with
  | case1 f g p t hf hu ih =>
    -- the violation moves two levels up
    obtain ⟨hfo, -, hgo, hgp⟩ := hp.below_red hf
    refine ih (n := n + 1) (color_join ..) ?_ hgp
    rw [balanced_red]
    exact ⟨color_join .., color_blacken _, balanced_black.2 ⟨ht, hfo⟩, hgo.blacken_red hu⟩
  | case2 f g p t hf hu hs =>
    obtain ⟨hfo, hfb, hgo, hgp⟩ := hp.below_red hf
    refine hgp.plug_black ?_ (color_join ..)
    exact balanced_black.2 ⟨ht, balanced_red.2 ⟨hfb, Color.ne_red.1 hu, hfo, hgo⟩⟩
  | case3 f g p t hf hu hs c x a y hsplit =>
    obtain ⟨hfo, hfb, hgo, hgp⟩ := hp.below_red hf
    obtain ⟨x', a', y', rfl⟩ := exists_join_of_red g.side hc
    rw [split_join] at hsplit
    cases hsplit
    obtain ⟨hx, hy, hbx, hby⟩ := balanced_red.1 ht
    refine hgp.plug_black ?_ (color_join ..)
    exact balanced_black.2 ⟨balanced_red.2 ⟨hfb, hx, hfo, hbx⟩,
      balanced_red.2 ⟨hy, Color.ne_red.1 hu, hby, hgo⟩⟩
  | case4 f g p t hf hu hs hsplit =>
    obtain ⟨x', a', y', rfl⟩ := exists_join_of_red g.side hc
    simp at hsplit
  | case5 f g p t hf =>
    have := (hp.any_color (Color.ne_red.1 hf) t.color).plug ht
    rwa [blacken_of_black this.1]
  | case6 p t hp' =>
    cases p with
    | nil => exact ht.isRedBlack_blacken
    | cons f p =>
      have hf : f.color = .black := by
        by_contra h
        obtain ⟨g, q, rfl, -⟩ := hp.exists_grandparent (Color.ne_black.1 h)
        exact hp' f g q rfl
      have := (hp.any_color hf t.color).plug ht
      rwa [blacken_of_black this.1]

/-! ### A subtree one black node short -/

/-- What one round of the repair leaves at the parent's position. -/
inductive Round (α : Type*)
  | done (t : ColorTree α)
  | up (t : ColorTree α)

/-- The round at a parent of colour `c` and item `a` with the short subtree `x`
on side `d` and a black sibling `s`. -/
def settle (d : Side) (c : Color) (x : ColorTree α) (a : α) (s : ColorTree α) : Round α :=
  match s.split d with
  | none => .done (join d c x a s)
  | some (_, near, w, far) =>
    if near.color = .black ∧ far.color = .black then .up (join d c x a (join d .red near w far))
    else if far.color = .black then
      match near.split d with
      | none => .done (join d c x a s)
      | some (_, nn, v, nf) => .done (join d c (join d .black x a nn) v (join d .black nf w far))
    else .done (join d c (join d .black x a near) w far.blacken)

/-- Repairs an `x` placed at the hole of `p` that is one black node short. -/
def fixDelete : Trail α → ColorTree α → ColorTree α
  | [], x => x.blacken
  | f :: p, x =>
    if x.color = .red then plug (f :: p) x.blacken
    else match f.other.split f.side with
      | some (.red, near, w, far) =>
        match settle f.side .red x f.item near with
        | .done t => (plug (⟨f.side, .black, w, far⟩ :: p) t).blacken
        | .up t => plug (⟨f.side, .black, w, far⟩ :: p) t.blacken
      | _ =>
        match settle f.side f.color x f.item f.other with
        | .done t => (plug p t).blacken
        | .up t => fixDelete p t

def Round.tree : Round α → ColorTree α
  | .done t => t
  | .up t => t

theorem toList_settle (d : Side) (c : Color) (x : ColorTree α) (a : α) (s : ColorTree α) :
    (settle d c x a s).tree.toList = (join d c x a s).toList := by
  unfold settle
  by_cases hs : s = nil
  · subst hs; rfl
  obtain ⟨cs, near, w, far, rfl⟩ := exists_join d hs
  simp only [split_join]
  split_ifs with h1 h2
  · exact toList_join_congr d rfl (toList_join_congr d rfl rfl)
  · by_cases hn : near = nil
    · subst hn; rfl
    obtain ⟨cn, nn, v, nf, rfl⟩ := exists_join d hn
    simp only [split_join, Round.tree]
    cases d <;> simp [join, toList]
  · rw [Round.tree, toList_rotate d c cs c .black]
    exact toList_join_congr d rfl (toList_blacken far)

theorem toList_fixDelete (p : Trail α) (x : ColorTree α) :
    (fixDelete p x).toList = (plug p x).toList := by
  fun_induction fixDelete p x with
  | case1 x => exact toList_blacken x
  | case2 f p x hx => exact toList_plug_congr _ (toList_blacken x)
  | case3 f p x hx near w far hs t ht =>
    have h := toList_settle f.side .red x f.item near
    rw [ht, Round.tree] at h
    rw [toList_blacken, plug_cons, plug_cons]
    apply toList_plug_congr
    rw [Frame.fill, Frame.fill, eq_join_of_split hs, toList_rotate f.side f.color .red .black .red]
    exact toList_join_congr _ h rfl
  | case4 f p x hx near w far hs t ht =>
    have h := toList_settle f.side .red x f.item near
    rw [ht, Round.tree] at h
    rw [plug_cons, plug_cons]
    apply toList_plug_congr
    rw [Frame.fill, Frame.fill, eq_join_of_split hs, toList_rotate f.side f.color .red .black .red]
    exact toList_join_congr _ ((toList_blacken t).trans h) rfl
  | case5 f p x hx t ht hs =>
    have h := toList_settle f.side f.color x f.item f.other
    rw [ht, Round.tree] at h
    rw [toList_blacken, plug_cons]
    exact toList_plug_congr _ h
  | case6 f p x hx t ht hs ih =>
    have h := toList_settle f.side f.color x f.item f.other
    rw [ht, Round.tree] at h
    rw [ih, plug_cons]
    exact toList_plug_congr _ h

/-- What a round at a parent of colour `c` guarantees when the sibling carries
`n + 1` black nodes and the short subtree `n`. -/
def Round.Ok (n : ℕ) (c : Color) : Round α → Prop
  | .done t => t.color = c ∧ Balanced t (n + 1 + c.weight)
  | .up t => t.color = c ∧ Balanced t.blacken (n + 1)

theorem settle_ok {d : Side} {c : Color} {x : ColorTree α} {a : α} {s : ColorTree α} {n : ℕ}
    (hbx : Balanced x n) (hs : s.color = .black)
    (hbs : Balanced s (n + 1)) : (settle d c x a s).Ok n c := by
  obtain ⟨cs, near, w, far, rfl⟩ := exists_join d hbs.ne_nil
  rw [color_join] at hs
  subst hs
  obtain ⟨hn, hf⟩ := balanced_black.1 hbs
  have paint {l r : ColorTree α} {b : α} (hl : l.color = .black) (hr : r.color = .black)
      (hbl : Balanced l (n + 1)) (hbr : Balanced r (n + 1)) :
      Balanced (join d c l b r) (n + 1 + c.weight) := by
    cases c
    · exact balanced_red.2 ⟨hl, hr, hbl, hbr⟩
    · exact balanced_black.2 ⟨hbl, hbr⟩
  unfold settle
  simp only [split_join]
  split_ifs with h1 h2
  · refine ⟨color_join .., ?_⟩
    rw [blacken_join, balanced_black, balanced_red]
    exact ⟨hbx, h1.1, h1.2, hn, hf⟩
  · have hred : near.color = .red := Color.ne_black.1 fun h => h1 ⟨h, h2⟩
    obtain ⟨nn, v, nf, rfl⟩ := exists_join_of_red d hred
    obtain ⟨-, -, hnn, hnf⟩ := balanced_red.1 hn
    rw [split_join]
    refine ⟨color_join .., paint (color_join ..) (color_join ..) ?_ ?_⟩
    · exact balanced_black.2 ⟨hbx, hnn⟩
    · exact balanced_black.2 ⟨hnf, hf⟩
  · refine ⟨color_join .., paint (color_join ..) (color_blacken _) ?_ ?_⟩
    · exact balanced_black.2 ⟨hbx, hn⟩
    · exact hf.blacken_red (Color.ne_black.1 h2)

/-- `x` at the hole of `p` is one black node short: painting a red `x` black
would settle it, a black `x` leaves it open. -/
def Short (p : Trail α) (x : ColorTree α) (n : ℕ) : Prop :=
  Fits p (n + 1) .black ∧ (x.color = .black → Balanced x n) ∧
    (x.color = .red → Balanced x.blacken (n + 1))

/-- A sibling that is not red is there and black. -/
theorem Short.black_sibling {f : Frame α} {p : Trail α} {x : ColorTree α} {n : ℕ}
    (h : Short (f :: p) x n)
    (hs : ∀ near w far, f.other.split f.side = some (.red, near, w, far) → False) :
    ∃ near w far, f.other = join f.side .black near w far := by
  obtain ⟨c, near, w, far, ho⟩ := exists_join f.side h.1.1.ne_nil
  cases c with
  | red => exact absurd (by rw [ho, split_join]) (hs near w far)
  | black => exact ⟨near, w, far, ho⟩

/-- A round at a black node with a black sibling. -/
theorem Short.settle_ok {f : Frame α} {p : Trail α} {x : ColorTree α} {n : ℕ}
    (h : Short (f :: p) x n) (hx : x.color ≠ .red)
    (hs : ∀ near w far, f.other.split f.side = some (.red, near, w, far) → False) :
    (settle f.side f.color x f.item f.other).Ok n f.color := by
  obtain ⟨near, w, far, ho⟩ := h.black_sibling hs
  exact Lib.settle_ok (h.2.1 (Color.ne_red.1 hx)) (by rw [ho, color_join]) h.1.1

/-- A red sibling: after the rotation the parent is red, and its new sibling is
black and carries `n + 1` black nodes. -/
theorem Short.red_sibling {f : Frame α} {p : Trail α} {x near far : ColorTree α} {w : α} {n : ℕ}
    (h : Short (f :: p) x n) (hs : f.other = join f.side .red near w far) :
    near.color = .black ∧ Balanced near (n + 1) ∧
      ∀ c, Fits (⟨f.side, .black, w, far⟩ :: p) (n + 1) c := by
  obtain ⟨ho, hr, hp⟩ := h.1
  rw [hs] at ho hr
  have hf : f.color = .black := by
    by_contra hc
    exact absurd (hr (Color.ne_black.1 hc)).2 (by simp)
  rw [hf] at hp
  obtain ⟨hn, hfar, hbn, hbf⟩ := balanced_red.1 ho
  exact ⟨hn, hbn, fun c => ⟨hbf, (by simp), hp⟩⟩

/-- A round at a black node below a red sibling, once that has been rotated up. -/
theorem Short.settle_red {f : Frame α} {p : Trail α} {x near far : ColorTree α} {w : α} {n : ℕ}
    (h : Short (f :: p) x n) (hx : x.color ≠ .red) (hs : f.other = join f.side .red near w far) :
    (settle f.side .red x f.item near).Ok n .red ∧
      ∀ c, Fits (⟨f.side, .black, w, far⟩ :: p) (n + 1) c := by
  obtain ⟨hn, hbn, hp⟩ := h.red_sibling hs
  exact ⟨Lib.settle_ok (h.2.1 (Color.ne_red.1 hx)) hn hbn, hp⟩

/-- After an upward round the shortage sits one level higher. -/
theorem Short.up {f : Frame α} {p : Trail α} {x t : ColorTree α} {n : ℕ} (h : Short (f :: p) x n)
    (hx : x.color ≠ .red) (hs : ∀ near w far, f.other.split f.side = some (.red, near, w, far) → False)
    (ht : settle f.side f.color x f.item f.other = .up t) : ∃ m, Short p t m := by
  obtain ⟨-, -, hp⟩ := h.1
  have hok := h.settle_ok hx hs
  rw [ht] at hok
  obtain ⟨hc, hb⟩ := hok
  cases hf : f.color with
  | red =>
    rw [hf] at hp hc
    exact ⟨n, hp.black, fun hk => absurd (hc.symm.trans hk) (by decide), fun _ => hb⟩
  | black =>
    rw [hf] at hp hc
    rw [blacken_of_black hc] at hb
    exact ⟨n + 1, hp, fun _ => hb, fun hk => absurd (hc.symm.trans hk) (by decide)⟩

/-- The repair of a short subtree ends in a red-black tree. -/
theorem isRedBlack_fixDelete {p : Trail α} {x : ColorTree α} {n : ℕ} (h : Short p x n) :
    IsRedBlack (fixDelete p x) := by
  fun_induction fixDelete p x generalizing n with
  | case1 x =>
    refine ⟨color_blacken x, ?_⟩
    by_cases hx : x.color = .black
    · exact ⟨n, by rw [blacken_of_black hx]; exact h.2.1 hx⟩
    · exact ⟨n + 1, h.2.2 (Color.ne_black.1 hx)⟩
  | case2 f p x hx =>
    exact Fits.plug (by rw [color_blacken]; exact h.1) (h.2.2 hx)
  | case3 f p x hx near w far hs t ht =>
    obtain ⟨hok, hp⟩ := h.settle_red hx (eq_join_of_split hs)
    rw [ht] at hok
    have := (hp t.color).plug hok.2
    rwa [blacken_of_black this.1]
  | case4 f p x hx near w far hs t ht =>
    obtain ⟨hok, hp⟩ := h.settle_red hx (eq_join_of_split hs)
    rw [ht] at hok
    exact (hp _).plug hok.2
  | case5 f p x hx t ht hs =>
    have hok := h.settle_ok hx hs
    rw [ht] at hok
    have hp := h.1.2.2
    rw [← hok.1] at hp
    have := hp.plug (by rw [hok.1]; exact hok.2)
    rwa [blacken_of_black this.1]
  | case6 f p x hx t ht hs ih =>
    obtain ⟨m, hm⟩ := h.up hx hs ht
    exact ih hm

end Lib
