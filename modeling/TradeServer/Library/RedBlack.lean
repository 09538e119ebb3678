import Mathlib.Analysis.SpecialFunctions.Log.Base
import TradeServer.Library.SearchTree

/-!
# Red-black balance and its bottom-up repair

`repair fs t` is the loop that repairs a tree after the red subtree `t` was placed
below the frames `fs`: a red uncle is recolored and the violation moves up two
levels, a black uncle ends the loop with one or two rotations.
-/

namespace TradeServer.Library

variable {κ β : Type*}

namespace ColorTree

/-- No red node has a red child. -/
def NoRedRed : ColorTree κ β → Prop
  | nil => True
  | node c l _ _ r =>
    (c = .red → l.rootColor = .black ∧ r.rootColor = .black) ∧ l.NoRedRed ∧ r.NoRedRed

/-- What a node adds to the number of black nodes on a path. -/
def blackCount : Color → Nat
  | .red => 0
  | .black => 1

/-- Every path from the root to a leaf has `n` black nodes. -/
def BlackHeight : ColorTree κ β → Nat → Prop
  | nil, n => n = 0
  | node c l _ _ r, n =>
    ∃ m, n = m + blackCount c ∧ l.BlackHeight m ∧ r.BlackHeight m

/-- The balance conditions of a red-black tree. -/
structure RedBlack (t : ColorTree κ β) : Prop where
  rootBlack : t.rootColor = .black
  noRedRed : t.NoRedRed
  blackHeight : ∃ n, t.BlackHeight n

@[simp] theorem noRedRed_mk (d : Dir) (c : Color) (a b : ColorTree κ β) (k : κ) (v : β) :
    (mk d c a k v b).NoRedRed ↔
      (c = .red → a.rootColor = .black ∧ b.rootColor = .black) ∧ a.NoRedRed ∧ b.NoRedRed := by
  cases d
  · rfl
  · simp only [mk, NoRedRed]
    exact and_congr (imp_congr_right fun _ => and_comm) and_comm

@[simp] theorem blackHeight_mk (d : Dir) (c : Color) (a b : ColorTree κ β) (k : κ) (v : β)
    (n : Nat) :
    (mk d c a k v b).BlackHeight n ↔
      ∃ m, n = m + blackCount c ∧ a.BlackHeight m ∧ b.BlackHeight m := by
  cases d
  · rfl
  · simp only [mk, BlackHeight]
    exact exists_congr fun m => and_congr_right fun _ => and_comm

theorem redBlack_nil : (nil : ColorTree κ β).RedBlack := ⟨rfl, trivial, 0, rfl⟩

/-- Blackening a node never creates a red pair. -/
theorem NoRedRed.setBlack {t : ColorTree κ β} (h : t.NoRedRed) : (t.setColor .black).NoRedRed := by
  cases t with
  | nil => exact h
  | node c l k v r => exact ⟨by simp, h.2⟩

theorem rootColor_setBlack (t : ColorTree κ β) : (t.setColor .black).rootColor = .black := by
  cases t <;> rfl

/-- Blackening a red root adds one black node to every path. -/
theorem BlackHeight.setBlack {t : ColorTree κ β} {n : Nat} (h : t.BlackHeight n)
    (hc : t.rootColor = .red) : (t.setColor .black).BlackHeight (n + 1) := by
  cases t with
  | nil => simp [rootColor] at hc
  | node c l k v r =>
    obtain rfl : c = .red := hc
    obtain ⟨m, hm, hl, hr⟩ := h
    exact ⟨m, by simpa [blackCount] using hm, hl, hr⟩

theorem redBlack_setBlack {t : ColorTree κ β} {n : Nat} (h : t.NoRedRed) (hb : t.BlackHeight n) :
    (t.setColor .black).RedBlack := by
  refine ⟨rootColor_setBlack t, h.setBlack, ?_⟩
  cases hc : t.rootColor with
  | red => exact ⟨n + 1, hb.setBlack hc⟩
  | black =>
    cases t with
    | nil => exact ⟨n, hb⟩
    | node c l k v r =>
      obtain rfl : c = .black := hc
      exact ⟨n, hb⟩

/-- A tree of black height `n` has `2 ^ n - 1` nodes at least. -/
theorem BlackHeight.two_pow_le {t : ColorTree κ β} {n : Nat} (h : t.BlackHeight n) :
    2 ^ n ≤ t.size + 1 := by
  induction t generalizing n with
  | nil => simp [show n = 0 from h]
  | node c l k v r ihl ihr =>
    obtain ⟨m, rfl, hl, hr⟩ := h
    have h1 := ihl hl
    have h2 := ihr hr
    have hc : 2 ^ (m + blackCount c) ≤ 2 ^ (m + 1) :=
      Nat.pow_le_pow_right (by decide) (by cases c <;> simp [blackCount])
    rw [size_node]
    omega

/-- On a path without red pairs at most every second node is red. -/
theorem NoRedRed.height_le {t : ColorTree κ β} {n : Nat} (h : t.NoRedRed) (hb : t.BlackHeight n) :
    t.height ≤ 2 * n + (1 - blackCount t.rootColor) := by
  induction t generalizing n with
  | nil => simp [height]
  | node c l k v r ihl ihr =>
    obtain ⟨m, rfl, hl, hr⟩ := hb
    obtain ⟨hc, hnl, hnr⟩ := h
    have h1 := ihl hnl hl
    have h2 := ihr hnr hr
    cases c with
    | red =>
      obtain ⟨hcl, hcr⟩ := hc rfl
      rw [hcl, blackCount] at h1
      rw [hcr, blackCount] at h2
      simp only [blackCount, height, rootColor]
      omega
    | black =>
      simp only [blackCount, height, rootColor]
      omega

theorem RedBlack.two_pow_height_le {t : ColorTree κ β} (h : t.RedBlack) :
    2 ^ t.height ≤ (t.size + 1) ^ 2 := by
  obtain ⟨n, hn⟩ := h.blackHeight
  have hh := h.noRedRed.height_le hn
  rw [h.rootBlack] at hh
  calc 2 ^ t.height ≤ 2 ^ (2 * n) :=
      Nat.pow_le_pow_right (by decide) (by simpa [blackCount] using hh)
    _ = (2 ^ n) ^ 2 := by rw [mul_comm, pow_mul]
    _ ≤ (t.size + 1) ^ 2 := Nat.pow_le_pow_left hn.two_pow_le 2

/-- A red-black tree of `n` nodes has height at most `2 * log₂ (n + 1)`. -/
theorem RedBlack.height_le_logb {t : ColorTree κ β} (h : t.RedBlack) :
    (t.height : ℝ) ≤ 2 * Real.logb 2 (t.size + 1) := by
  have hpos : (0 : ℝ) < (t.size + 1 : ℝ) ^ 2 := by positivity
  have hpow : (2 : ℝ) ^ (t.height : ℝ) ≤ (t.size + 1 : ℝ) ^ 2 := by
    rw [Real.rpow_natCast]
    exact_mod_cast h.two_pow_height_le
  have := (Real.le_logb_iff_rpow_le one_lt_two hpos).mpr hpow
  rwa [Real.logb_pow, Nat.cast_ofNat] at this

end ColorTree

/-- The tree left by the rotations: parent `p` and grandparent `g` around the red `t`. -/
def rotated (p g : Frame κ β) (t : ColorTree κ β) : ColorTree κ β :=
  if p.dir = g.dir then
    .mk g.dir .black t p.key p.val (.mk g.dir .red p.sib g.key g.val g.sib)
  else
    match t, g.dir with
    | .nil, _ => .nil
    | .node _ l k v r, .left =>
      .mk .left .black (.mk .left .red p.sib p.key p.val l) k v (.mk .left .red r g.key g.val g.sib)
    | .node _ l k v r, .right =>
      .mk .right .black (.mk .right .red p.sib p.key p.val r) k v
        (.mk .right .red l g.key g.val g.sib)

/-- The tree left by a recoloring: the grandparent is red now. -/
def recolored (p g : Frame κ β) (t : ColorTree κ β) : ColorTree κ β :=
  ({ g with color := .red, sib := g.sib.setColor .black } : Frame κ β).plug
    (({ p with color := .black } : Frame κ β).plug t)

def repair : List (Frame κ β) → ColorTree κ β → ColorTree κ β
  | p :: g :: fs, t =>
    if p.color = .black then plug (p :: g :: fs) t
    else if g.sib.rootColor = .red then repair fs (recolored p g t)
    else plug fs (rotated p g t)
  | fs, t => plug fs t

/-- The subtrees around a position of black height `n` make a red-black tree, whatever
the color at the position: a red ancestor has a black parent and a black sibling. -/
def Fits : List (Frame κ β) → Nat → Prop
  | [], _ => True
  | f :: fs, n =>
    f.sib.NoRedRed ∧ f.sib.BlackHeight n ∧
      (f.color = .red → f.sib.rootColor = .black ∧ ∃ g gs, fs = g :: gs ∧ g.color = .black) ∧
      Fits fs (n + ColorTree.blackCount f.color)

theorem rotated_inner {p g : Frame κ β} {c : Color} {a b : ColorTree κ β} {k : κ} {v : β}
    (h : p.dir ≠ g.dir) :
    rotated p g (.mk g.dir c a k v b) =
      .mk g.dir .black (.mk g.dir .red p.sib p.key p.val a) k v
        (.mk g.dir .red b g.key g.val g.sib) := by
  unfold rotated
  rw [if_neg h]
  cases hd : g.dir <;> rfl

theorem exists_mk (d : Dir) (c : Color) (l : ColorTree κ β) (k : κ) (v : β) (r : ColorTree κ β) :
    ∃ a b, ColorTree.node c l k v r = .mk d c a k v b := by
  cases d
  · exact ⟨l, r, rfl⟩
  · exact ⟨r, l, rfl⟩

theorem ne_nil_of_red {t : ColorTree κ β} (ht : t.rootColor = .red) : t ≠ .nil := by
  rintro rfl
  simp [ColorTree.rootColor] at ht

theorem exists_mk_of_red (d : Dir) {t : ColorTree κ β} (ht : t.rootColor = .red) :
    ∃ a k v b, t = .mk d .red a k v b := by
  cases t with
  | nil => exact absurd rfl (ne_nil_of_red ht)
  | node c l k v r =>
    obtain rfl : c = .red := ht
    obtain ⟨a, b, hab⟩ := exists_mk d .red l k v r
    exact ⟨a, k, v, b, hab⟩

theorem toList_recolored (p g : Frame κ β) (t : ColorTree κ β) :
    (recolored p g t).toList = (plug [p, g] t).toList := by
  obtain ⟨d, c, k, v, s⟩ := p
  obtain ⟨d', c', k', v', s'⟩ := g
  cases d <;> cases d' <;> simp [recolored, Frame.plug, ColorTree.mk]

theorem toList_rotated (p g : Frame κ β) {t : ColorTree κ β} (ht : t ≠ .nil) :
    (rotated p g t).toList = (plug [p, g] t).toList := by
  obtain ⟨d, c, k, v, s⟩ := p
  obtain ⟨d', c', k', v', s'⟩ := g
  cases t with
  | nil => exact absurd rfl ht
  | node ct l kt vt r => cases d <;> cases d' <;> simp [rotated, Frame.plug, ColorTree.mk]

theorem mk_ne_nil (d : Dir) (c : Color) (l : ColorTree κ β) (k : κ) (v : β) (r : ColorTree κ β) :
    ColorTree.mk d c l k v r ≠ .nil := by cases d <;> simp [ColorTree.mk]

theorem plug_ne_nil (f : Frame κ β) (t : ColorTree κ β) : f.plug t ≠ .nil :=
  mk_ne_nil _ _ _ _ _ _

/-- The repair moves no binding. -/
theorem toList_repair (fs : List (Frame κ β)) {t : ColorTree κ β} (ht : t ≠ .nil) :
    (repair fs t).toList = (plug fs t).toList := by
  induction fs, t using repair.induct with
  | case1 p g fs t hp => rw [repair, if_pos hp]
  | case2 p g fs t hp hu ih =>
    rw [repair, if_neg hp, if_pos hu, ih (plug_ne_nil _ _)]
    exact toList_plug_congr fs (toList_recolored p g t)
  | case3 p g fs t hp hu =>
    rw [repair, if_neg hp, if_neg hu]
    exact toList_plug_congr fs (toList_rotated p g ht)
  | case4 fs t hfs => rw [repair.eq_2 fs t hfs]

/-- A balanced subtree whose root does not clash with the frame above it completes the
tree. -/
theorem Fits.plug {fs : List (Frame κ β)} {t : ColorTree κ β} {n : Nat} (h : Fits fs n)
    (ht : t.NoRedRed) (hb : t.BlackHeight n)
    (hc : t.rootColor = .red → ∀ f gs, fs = f :: gs → f.color = .black) :
    (plug fs t).NoRedRed ∧ ∃ m, (plug fs t).BlackHeight m := by
  induction fs generalizing t n with
  | nil => exact ⟨ht, n, hb⟩
  | cons f fs ih =>
    obtain ⟨hs, hsb, hred, hrest⟩ := h
    refine ih hrest ?_ ?_ ?_
    · simp only [Frame.plug, ColorTree.noRedRed_mk]
      refine ⟨fun hf => ⟨?_, (hred hf).1⟩, ht, hs⟩
      cases htc : t.rootColor with
      | red => exact absurd hf (by simp [hc htc f fs rfl])
      | black => rfl
    · simp only [Frame.plug, ColorTree.blackHeight_mk]
      exact ⟨n, rfl, hb, hsb⟩
    · intro hf g gs hg
      obtain ⟨-, g', gs', rfl, hg'⟩ := hred (by simpa [Frame.plug] using hf)
      cases hg
      exact hg'

/-- The repair restores the balance conditions below a blackened root. -/
theorem redBlack_repair {fs : List (Frame κ β)} {t : ColorTree κ β} {n : Nat} (h : Fits fs n)
    (ht : t.NoRedRed) (hb : t.BlackHeight n) (hc : t.rootColor = .red) :
    ((repair fs t).setColor .black).RedBlack := by
  induction fs, t using repair.induct generalizing n with
  | case1 p g fs t hp =>
    rw [repair, if_pos hp]
    obtain ⟨hn, m, hm⟩ := h.plug ht hb (fun _ f gs hf => by cases hf; exact hp)
    exact ColorTree.redBlack_setBlack hn hm
  | case2 p g fs t hp hu ih =>
    rw [repair, if_neg hp, if_pos hu]
    have hpr := Color.eq_red_of_ne hp
    obtain ⟨hps, hpb, hpred, hgs, hgb, -, hfs⟩ := h
    obtain ⟨-, g', gs', hcons, hgc⟩ := hpred hpr
    cases hcons
    simp only [hpr, ColorTree.blackCount, Nat.add_zero, hgc] at hgb hfs
    refine ih hfs ?_ ?_ ?_
    · simp [recolored, Frame.plug, ht, hps, hgs.setBlack, ColorTree.rootColor_setBlack]
    · simp only [recolored, Frame.plug, ColorTree.blackHeight_mk, ColorTree.blackCount]
      exact ⟨n + 1, rfl, ⟨n, rfl, hb, hpb⟩, hgb.setBlack hu⟩
    · simp [recolored, Frame.plug]
  | case3 p g fs t hp hu =>
    rw [repair, if_neg hp, if_neg hu]
    have hpr := Color.eq_red_of_ne hp
    have hub := Color.eq_black_of_ne hu
    obtain ⟨hps, hpb, hpred, hgs, hgb, -, hfs⟩ := h
    obtain ⟨hpsb, g', gs', hcons, hgc⟩ := hpred hpr
    cases hcons
    simp only [hpr, ColorTree.blackCount, Nat.add_zero, hgc] at hgb hfs
    -- both shapes have a black root, so nothing above them is disturbed
    have key : (rotated p g t).NoRedRed ∧ (rotated p g t).BlackHeight (n + 1) ∧
        (rotated p g t).rootColor = .black := by
      by_cases hd : p.dir = g.dir
      · simp only [rotated, if_pos hd, ColorTree.noRedRed_mk, ColorTree.blackHeight_mk,
          ColorTree.rootColor_mk,
          ColorTree.blackCount]
        exact ⟨⟨by simp, ht, fun _ => ⟨hpsb, hub⟩, hps, hgs⟩,
          ⟨n, rfl, hb, n, rfl, hpb, hgb⟩, trivial⟩
      · cases t with
        | nil => simp [ColorTree.rootColor] at hc
        | node c l k v r =>
          obtain rfl : c = .red := hc
          obtain ⟨a, b, hab⟩ := exists_mk g.dir .red l k v r
          rw [hab] at ht hb ⊢
          simp only [ColorTree.noRedRed_mk, ColorTree.blackHeight_mk, ColorTree.blackCount,
            forall_const] at ht hb
          obtain ⟨⟨hac, hbc⟩, hna, hnb⟩ := ht
          obtain ⟨m, rfl, hma, hmb⟩ := hb
          simp only [rotated_inner hd, ColorTree.noRedRed_mk, ColorTree.blackHeight_mk,
            ColorTree.rootColor_mk,
            ColorTree.blackCount]
          exact ⟨⟨by simp, ⟨fun _ => ⟨hpsb, hac⟩, hps, hna⟩, fun _ => ⟨hbc, hub⟩, hnb, hgs⟩,
            ⟨_, rfl, ⟨_, rfl, hpb, hma⟩, _, rfl, hmb, hgb⟩, trivial⟩
    obtain ⟨hn, m, hm⟩ := hfs.plug key.1 key.2.1 (fun hr => by simp [key.2.2] at hr)
    exact ColorTree.redBlack_setBlack hn hm
  | case4 fs t hfs =>
    rw [repair.eq_2 fs t hfs]
    obtain ⟨hn, m, hm⟩ := h.plug ht hb (fun _ f gs hf => by
      -- the only frame there can be is that of the root, which is black
      subst hf
      obtain ⟨-, -, hred, -⟩ := h
      cases hfc : f.color with
      | black => rfl
      | red =>
        obtain ⟨-, g, gs', rfl, -⟩ := hred hfc
        exact absurd rfl (hfs f g gs'))
    exact ColorTree.redBlack_setBlack hn hm

/-- Every position of a red-black tree has fitting frames. -/
theorem fits_of_plug {fs : List (Frame κ β)} {t : ColorTree κ β} (h : (plug fs t).RedBlack) :
    ∃ n, Fits fs n ∧ t.NoRedRed ∧ t.BlackHeight n ∧
      (t.rootColor = .red → ∃ g gs, fs = g :: gs ∧ g.color = .black) := by
  induction fs generalizing t with
  | nil =>
    obtain ⟨hr, hn, n, hb⟩ := h
    exact ⟨n, trivial, hn, hb, fun hc => by simp_all⟩
  | cons f fs ih =>
    obtain ⟨n, hfits, hn, hb, hroot⟩ := ih h
    simp only [Frame.plug, ColorTree.noRedRed_mk, ColorTree.blackHeight_mk, ColorTree.rootColor_mk]
      at hn hb hroot
    obtain ⟨hc, ht, hs⟩ := hn
    obtain ⟨m, rfl, htb, hsb⟩ := hb
    refine ⟨m, ⟨hs, hsb, fun hf => ⟨(hc hf).2, hroot hf⟩, hfits⟩, ht, htb, fun htr => ?_⟩
    refine ⟨f, fs, rfl, ?_⟩
    cases hfc : f.color with
    | black => rfl
    | red => exact absurd (hc hfc).1 (by simp [htr])

/-- A new red leaf, repaired, keeps a red-black tree red-black. -/
theorem redBlack_insert {fs : List (Frame κ β)} (h : (plug fs .nil).RedBlack) (k : κ) (v : β) :
    ((repair fs (.node .red .nil k v .nil)).setColor .black).RedBlack := by
  obtain ⟨n, hfits, -, hb, -⟩ := fits_of_plug h
  refine redBlack_repair hfits ⟨fun _ => ⟨rfl, rfl⟩, trivial, trivial⟩ ?_ rfl
  exact ⟨n, rfl, hb, hb⟩

end TradeServer.Library
