import Mathlib.Data.List.Pairwise
import Mathlib.Order.Lattice

/-!
# Colored search trees and their zippers

A position in a tree is a subtree together with the list of `Frame`s above it,
innermost first. Left and right are handled at once: `ColorTree.mk d` builds a node
from its child on side `d` and its child on the other side.
-/

namespace TradeServer.Library

inductive Color where
  | red
  | black
  deriving DecidableEq

theorem Color.eq_red_of_ne {c : Color} (h : c ≠ .black) : c = .red := by
  cases c with
  | red => rfl
  | black => exact absurd rfl h

theorem Color.eq_black_of_ne {c : Color} (h : c ≠ .red) : c = .black := by
  cases c with
  | red => exact absurd rfl h
  | black => rfl

inductive Dir where
  | left
  | right
  deriving DecidableEq

def Dir.flip : Dir → Dir
  | .left => .right
  | .right => .left

theorem Dir.eq_flip_of_ne {d e : Dir} (h : d ≠ e) : d = e.flip := by
  cases d <;> cases e <;> simp_all [Dir.flip]

@[simp] theorem Dir.flip_ne (d : Dir) : d.flip ≠ d := by cases d <;> simp [Dir.flip]

inductive ColorTree (κ β : Type*) where
  | nil
  | node (color : Color) (left : ColorTree κ β) (key : κ) (val : β) (right : ColorTree κ β)

variable {κ β : Type*}

namespace ColorTree

/-- A node given by its child on side `d` and its child on the other side. -/
def mk (d : Dir) (c : Color) (a : ColorTree κ β) (k : κ) (v : β) (b : ColorTree κ β) :
    ColorTree κ β :=
  match d with
  | .left => node c a k v b
  | .right => node c b k v a

theorem mk_left (c : Color) (a : ColorTree κ β) (k : κ) (v : β) (b : ColorTree κ β) :
    mk .left c a k v b = node c a k v b := rfl

theorem mk_flip (d : Dir) (c : Color) (a : ColorTree κ β) (k : κ) (v : β) (b : ColorTree κ β) :
    mk d.flip c a k v b = mk d c b k v a := by cases d <;> rfl

def rootColor : ColorTree κ β → Color
  | nil => .black
  | node c _ _ _ _ => c

def setColor (c : Color) : ColorTree κ β → ColorTree κ β
  | nil => nil
  | node _ l k v r => node c l k v r

/-- The bindings in order. -/
def toList : ColorTree κ β → List (κ × β)
  | nil => []
  | node _ l k v r => l.toList ++ (k, v) :: r.toList

def size (t : ColorTree κ β) : Nat := t.toList.length

/-- The number of nodes on a longest path. -/
def height : ColorTree κ β → Nat
  | nil => 0
  | node _ l _ _ r => max l.height r.height + 1

@[simp] theorem rootColor_mk (d : Dir) (c : Color) (a : ColorTree κ β) (k : κ) (v : β)
    (b : ColorTree κ β) :
    (mk d c a k v b).rootColor = c := by cases d <;> rfl

@[simp] theorem setColor_mk (d : Dir) (c c' : Color) (a : ColorTree κ β) (k : κ) (v : β)
    (b : ColorTree κ β) : (mk d c a k v b).setColor c' = mk d c' a k v b := by cases d <;> rfl

@[simp] theorem toList_nil : (nil : ColorTree κ β).toList = [] := rfl

@[simp] theorem toList_node (c : Color) (l r : ColorTree κ β) (k : κ) (v : β) :
    (node c l k v r).toList = l.toList ++ (k, v) :: r.toList := rfl

@[simp] theorem toList_setColor (c : Color) (t : ColorTree κ β) :
    (t.setColor c).toList = t.toList := by
  cases t <;> rfl

@[simp] theorem size_nil : (nil : ColorTree κ β).size = 0 := rfl

@[simp] theorem size_node (c : Color) (l r : ColorTree κ β) (k : κ) (v : β) :
    (node c l k v r).size = l.size + r.size + 1 := by simp [size]; omega

end ColorTree

/-- One ancestor of a position: the side the position is on and the other subtree. -/
structure Frame (κ β : Type*) where
  dir : Dir
  color : Color
  key : κ
  val : β
  sib : ColorTree κ β

namespace Frame

def plug (f : Frame κ β) (t : ColorTree κ β) : ColorTree κ β :=
  .mk f.dir f.color t f.key f.val f.sib

/-- The bindings before the position. -/
def before (f : Frame κ β) : List (κ × β) :=
  match f.dir with
  | .left => []
  | .right => f.sib.toList ++ [(f.key, f.val)]

/-- The bindings after the position. -/
def after (f : Frame κ β) : List (κ × β) :=
  match f.dir with
  | .left => (f.key, f.val) :: f.sib.toList
  | .right => []

theorem toList_plug (f : Frame κ β) (t : ColorTree κ β) :
    (f.plug t).toList = f.before ++ t.toList ++ f.after := by
  obtain ⟨d, c, k, v, s⟩ := f
  cases d <;> simp [plug, before, after, ColorTree.mk]

end Frame

/-- The tree around a position. -/
def plug : List (Frame κ β) → ColorTree κ β → ColorTree κ β
  | [], t => t
  | f :: fs, t => plug fs (f.plug t)

def before : List (Frame κ β) → List (κ × β)
  | [] => []
  | f :: fs => before fs ++ f.before

def after : List (Frame κ β) → List (κ × β)
  | [] => []
  | f :: fs => f.after ++ after fs

@[simp] theorem plug_nil (t : ColorTree κ β) : plug [] t = t := rfl

@[simp] theorem plug_cons (f : Frame κ β) (fs : List (Frame κ β)) (t : ColorTree κ β) :
    plug (f :: fs) t = plug fs (f.plug t) := rfl

theorem toList_plug (fs : List (Frame κ β)) (t : ColorTree κ β) :
    (plug fs t).toList = before fs ++ t.toList ++ after fs := by
  induction fs generalizing t with
  | nil => simp [before, after]
  | cons f fs ih => simp [ih, before, after, Frame.toList_plug]

/-- A position is no deeper than the tree is high. -/
theorem length_add_height_le (fs : List (Frame κ β)) (t : ColorTree κ β) :
    fs.length + t.height ≤ (plug fs t).height := by
  induction fs generalizing t with
  | nil => simp
  | cons f fs ih =>
    have := ih (f.plug t)
    have hf : t.height + 1 ≤ (f.plug t).height := by
      obtain ⟨d, c, k, v, s⟩ := f
      cases d <;> simp [Frame.plug, ColorTree.mk, ColorTree.height]
    simp only [plug_cons, List.length_cons]
    omega

theorem toList_plug_congr (fs : List (Frame κ β)) {t t' : ColorTree κ β}
    (h : t'.toList = t.toList) :
    (plug fs t').toList = (plug fs t).toList := by
  rw [toList_plug, toList_plug, h]

/-- No ancestor disappears. -/
theorem length_add_size_le (fs : List (Frame κ β)) (t : ColorTree κ β) :
    fs.length + t.size ≤ (plug fs t).size := by
  induction fs generalizing t with
  | nil => simp
  | cons f fs ih =>
    have := ih (f.plug t)
    have hf : t.size + 1 ≤ (f.plug t).size := by
      obtain ⟨d, c, k, v, s⟩ := f
      cases d <;> simp [Frame.plug, ColorTree.mk]
    simp only [plug_cons, List.length_cons]
    omega

section Order

variable [LinearOrder κ]

/-- The keys strictly increase from left to right. -/
def Ordered (t : ColorTree κ β) : Prop := t.toList.Pairwise (·.1 < ·.1)

/-- The search for `k`: it stops at the node with key `k` or at the leaf where such a
node belongs. -/
def descend (k : κ) : List (Frame κ β) → ColorTree κ β → List (Frame κ β) × ColorTree κ β
  | fs, .nil => (fs, .nil)
  | fs, .node c l x v r =>
    if k = x then (fs, .node c l x v r)
    else if k < x then descend k (⟨.left, c, x, v, r⟩ :: fs) l
    else descend k (⟨.right, c, x, v, l⟩ :: fs) r

theorem plug_descend (k : κ) (fs : List (Frame κ β)) (t : ColorTree κ β) :
    plug (descend k fs t).1 (descend k fs t).2 = plug fs t := by
  induction t generalizing fs with
  | nil => rfl
  | node c l x v r ihl ihr =>
    unfold descend
    split_ifs
    · rfl
    · exact ihl _
    · exact ihr _

/-- The search never stops at a node with another key. -/
theorem key_of_descend {k x : κ} {fs gs : List (Frame κ β)} {t l r : ColorTree κ β}
    {c : Color} {v : β}
    (h : descend k fs t = (gs, .node c l x v r)) : x = k := by
  induction t generalizing fs with
  | nil => simp [descend] at h
  | node c' l' x' v' r' ihl ihr =>
    unfold descend at h
    split_ifs at h with h1
    · simp only [Prod.mk.injEq, ColorTree.node.injEq] at h
      exact h.2.2.2.1.symm.trans h1.symm
    · exact ihl h
    · exact ihr h

/-- `k` fits between the bindings on the left and on the right of a position. -/
def Between (k : κ) (fs : List (Frame κ β)) : Prop :=
  (∀ b ∈ before fs, b.1 < k) ∧ ∀ b ∈ after fs, k < b.1

theorem Between.cons {k x : κ} {fs : List (Frame κ β)} {c : Color} {v : β} {l r : ColorTree κ β}
    (h : Between k fs) (ho : Ordered (plug fs (.node c l x v r))) :
    (k < x → Between k (⟨.left, c, x, v, r⟩ :: fs)) ∧
      (x < k → Between k (⟨.right, c, x, v, l⟩ :: fs)) := by
  simp only [Ordered, toList_plug, ColorTree.toList_node, List.pairwise_append, List.pairwise_cons]
    at ho
  obtain ⟨⟨-, ⟨-, ⟨hr, -⟩, hl⟩, -⟩, -, -⟩ := ho
  refine ⟨fun hk => ⟨?_, ?_⟩, fun hk => ⟨?_, ?_⟩⟩
  · simpa [before, Frame.before] using h.1
  · intro b hb
    simp only [after, Frame.after, List.cons_append, List.mem_cons, List.mem_append] at hb
    rcases hb with rfl | hb | hb
    · exact hk
    · exact hk.trans (hr b hb)
    · exact h.2 b hb
  · intro b hb
    simp only [before, Frame.before, List.mem_append, List.mem_singleton] at hb
    rcases hb with hb | hb | rfl
    · exact h.1 b hb
    · exact (hl b hb (x, v) (by simp)).trans hk
    · exact hk
  · simpa [after, Frame.after] using h.2

/-- The search keeps to the gap where `k` belongs. -/
theorem between_descend {k : κ} {fs : List (Frame κ β)} {t : ColorTree κ β}
    (ho : Ordered (plug fs t))
    (h : Between k fs) : Between k (descend k fs t).1 := by
  induction t generalizing fs with
  | nil => exact h
  | node c l x v r ihl ihr =>
    unfold descend
    split_ifs with h1 h2
    · exact h
    · exact ihl (by simpa [Frame.plug, ColorTree.mk] using ho) ((h.cons ho).1 h2)
    · exact ihr (by simpa [Frame.plug, ColorTree.mk] using ho)
        ((h.cons ho).2 (lt_of_le_of_ne (not_lt.mp h2) (Ne.symm h1)))

/-- A new binding in the gap where it belongs keeps the order. -/
theorem Ordered.insert {k : κ} {fs : List (Frame κ β)} {t : ColorTree κ β} {v : β}
    (ho : Ordered (plug fs .nil)) (h : Between k fs) (ht : t.toList = [(k, v)]) :
    Ordered (plug fs t) := by
  simp only [Ordered, toList_plug, ColorTree.toList_nil, List.append_nil, List.pairwise_append]
    at ho
  obtain ⟨hb, ha, hba⟩ := ho
  simp only [Ordered, toList_plug, ht, List.pairwise_append, List.mem_append,
    List.mem_singleton, List.pairwise_singleton, true_and]
  refine ⟨⟨hb, ?_⟩, ha, ?_⟩
  · rintro a ha' b rfl
    exact h.1 a ha'
  · rintro a (ha' | rfl) b hb'
    · exact hba a ha' b hb'
    · exact h.2 b hb'

/-- The number of bindings with a key from `lo` to `hi`. -/
def inRange (lo hi : κ) (t : ColorTree κ β) : Nat :=
  t.toList.countP fun b => lo ≤ b.1 ∧ b.1 ≤ hi

/-- The number of calls of a visit that goes below a node, leaves included, on the sides where
keys from `lo` to `hi` may be. -/
def calls (lo hi : κ) : ColorTree κ β → Nat
  | .nil => 1
  | .node _ l k _ r =>
    (if lo < k then calls lo hi l else 0) + (if k < hi then calls lo hi r else 0) + 1

/-- Besides the keys of the range the visit meets one path for each end of the range that lies
among the keys. `a` and `b` stand for these ends: below a node in the range one is left on
each side. -/
theorem calls_le (lo hi : κ) {t : ColorTree κ β} {a b : Nat} (ho : Ordered t)
    (ha : a = 0 → ∀ x ∈ t.toList, lo < x.1) (hb : b = 0 → ∀ x ∈ t.toList, x.1 < hi) :
    calls lo hi t ≤ 2 * inRange lo hi t + (a + b) * t.height + 1 := by
  induction t generalizing a b with
  | nil => simp [calls, inRange]
  | node c l k v r ihl ihr =>
    obtain ⟨hol, hor, hlk⟩ := List.pairwise_append.mp ho
    obtain ⟨hkr, hor⟩ := List.pairwise_cons.mp hor
    have hal : a = 0 → ∀ x ∈ l.toList, lo < x.1 := fun h x hx => ha h x (by simp [hx])
    have hbr : b = 0 → ∀ x ∈ r.toList, x.1 < hi := fun h x hx => hb h x (by simp [hx])
    have hcount : inRange lo hi l + inRange lo hi r ≤ inRange lo hi (.node c l k v r) := by
      simp only [inRange, ColorTree.toList_node, List.countP_append, List.countP_cons]
      omega
    have hleft : (a + b) * l.height + (a + b) ≤ (a + b) * (ColorTree.node c l k v r).height :=
      Nat.mul_le_mul_left (a + b) (show l.height + 1 ≤ _ by simp [ColorTree.height])
    have hright : (a + b) * r.height + (a + b) ≤ (a + b) * (ColorTree.node c l k v r).height :=
      Nat.mul_le_mul_left (a + b) (show r.height + 1 ≤ _ by simp [ColorTree.height])
    by_cases hlo : lo < k <;> by_cases hhi : k < hi <;>
      simp only [calls, hlo, hhi, if_true, if_false]
    · have hl := @ihl a 0 hol hal fun _ x hx => (hlk x hx (k, v) (by simp)).trans hhi
      have hr := @ihr 0 b hor (fun _ x hx => hlo.trans (hkr x hx)) hbr
      have hself : inRange lo hi (.node c l k v r) = inRange lo hi l + inRange lo hi r + 1 := by
        simp [inRange, hlo.le, hhi.le]
        omega
      have ha' : a * l.height ≤ a * (ColorTree.node c l k v r).height :=
        Nat.mul_le_mul_left _ (by simp only [ColorTree.height]; omega)
      have hb' : b * r.height ≤ b * (ColorTree.node c l k v r).height :=
        Nat.mul_le_mul_left _ (by simp only [ColorTree.height]; omega)
      simp only [Nat.add_zero, Nat.zero_add] at hl hr
      rw [Nat.add_mul]
      omega
    · have hl := ihl hol hal fun h x hx => (hlk x hx (k, v) (by simp)).trans
        (hb h (k, v) (by simp))
      have : b ≠ 0 := fun h => hhi (hb h (k, v) (by simp))
      omega
    · have hr := ihr hor (fun h x hx => (ha h (k, v) (by simp)).trans (hkr x hx)) hbr
      have : a ≠ 0 := fun h => hlo (ha h (k, v) (by simp))
      omega
    · omega

end Order

end TradeServer.Library
