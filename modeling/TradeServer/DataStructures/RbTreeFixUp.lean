import TradeServer.DataStructures.RbTreeShape

/-!
# Rotations and `fix_up` in memory

Each function is run symbolically once on a tree in memory. A rotation changes
the tree at its position and nothing else, and `fix_up` leaves the tree that the
functional `repair` computes, with a black root.
-/

namespace TradeServer

open Library

/-- The two links that exist only when the target is not `NIL`. -/
def modifyUnless (NIL : Addr) (h : Heap RbtNode) (p : Addr) (f : RbtNode → RbtNode) :
    Heap RbtNode := if p = NIL then h else h.modify p f

theorem load_modifyUnless (NIL : Addr) (h : Heap RbtNode) (p q : Addr) (f : RbtNode → RbtNode) :
    (modifyUnless NIL h p f).load q =
      if q = p ∧ p ≠ NIL then (h.load q).map f else h.load q := by
  unfold modifyUnless
  by_cases hp : p = NIL <;> simp [hp]

@[simp] theorem next_modifyUnless (NIL : Addr) (h : Heap RbtNode) (p : Addr)
    (f : RbtNode → RbtNode) : (modifyUnless NIL h p f).next = h.next := by
  unfold modifyUnless
  split <;> rfl

/-- The heap after a rotation at `x` toward `d`, where `y` rises, `b` changes its parent and
`g` is the parent. -/
def rotatedHeap (d side : Dir) (NIL : Addr) (h : Heap RbtNode) (x y b g : Addr) : Heap RbtNode :=
  let h := modifyUnless NIL (h.modify x (·.setChild d.flip b)) b (·.setParent x)
  let h := modifyUnless NIL (h.modify y (·.setParent g)) g (·.setChild side y)
  (h.modify y (·.setChild d x)).modify x (·.setParent y)

section Rotation

variable {d side : Dir} {NIL root : Addr} {h : Heap RbtNode} {x y a b c g : Addr} {kx ky : Nat}
  {vx vy : Ref} {cx cy : Color} {gn : RbtNode}

variable (root) in
theorem rotate_run (hx : h.load x = some (cell d kx vx cx g c y))
    (hy : h.load y = some (cell d ky vy cy x b a)) (hb : b ≠ NIL → ∃ bn, h.load b = some bn)
    (hg : g ≠ NIL → h.load g = some gn ∧ (x = gn.left ↔ side = .left))
    (hxy : x ≠ y) (hbx : b ≠ x) (hby : b ≠ y) (hgx : g ≠ x) (hgy : g ≠ y) (hgb : g ≠ NIL → g ≠ b) :
    rotate d NIL root h x =
      some (if g = NIL then y else root, rotatedHeap d side NIL h x y b g) := by
  have hu₁ : h.update x (·.setChild d.flip b) = some _ := Heap.update_of_load hx _
  have hu₂ : adopt NIL (h.modify x (·.setChild d.flip b)) b x =
      some (modifyUnless NIL (h.modify x (·.setChild d.flip b)) b (·.setParent x)) := by
    by_cases hn : b = NIL
    · simp [adopt, modifyUnless, hn]
    · obtain ⟨bn, hbn⟩ := hb hn
      simp [adopt, modifyUnless, hn, hbx, hbn, Heap.update]
  generalize hh₂ : modifyUnless NIL (h.modify x (·.setChild d.flip b)) b (·.setParent x) = h₂ at hu₂
  have hx₂ : h₂.load x = some (cell d kx vx cx g c b) := by
    simp [← hh₂, load_modifyUnless, hx, Ne.symm hbx]
  have hy₂ : h₂.load y = some (cell d ky vy cy x b a) := by
    simp [← hh₂, load_modifyUnless, Ne.symm hby, hy, Ne.symm hxy]
  have hg₂ : g ≠ NIL → h₂.load g = some gn := by
    intro hn
    simp [← hh₂, load_modifyUnless, hgb hn, hgx, (hg hn).1]
  have hu₃ : h₂.update y (·.setParent g) = some _ := Heap.update_of_load hy₂ _
  have hu₄ : replaceChild NIL root (h₂.modify y (·.setParent g)) g x y =
      some (if g = NIL then y else root,
        modifyUnless NIL (h₂.modify y (·.setParent g)) g (·.setChild side y)) := by
    by_cases hn : g = NIL
    · simp [replaceChild, modifyUnless, hn]
    · have hside : (if x = gn.left then Dir.left else .right) = side := by
        cases side <;> simp [(hg hn).2]
      simp [replaceChild, modifyUnless, hn, Heap.update, hgy, hg₂ hn, hside]
  generalize hh₄ : modifyUnless NIL (h₂.modify y (·.setParent g)) g (·.setChild side y) = h₄ at hu₄
  have hy₄ : ∃ yn, h₄.load y = some yn := by
    simp [← hh₄, load_modifyUnless, hy₂, Ne.symm hgy]
  have hx₄ : ∃ xn, (h₄.modify y (·.setChild d x)).load x = some xn := by
    simp [← hh₄, load_modifyUnless, hx₂, hxy, Ne.symm hgx]
  obtain ⟨yn', hy₄⟩ := hy₄
  obtain ⟨xn', hx₄⟩ := hx₄
  have hu₅ := Heap.update_of_load hy₄ (·.setChild d x)
  have hu₆ := Heap.update_of_load hx₄ (·.setParent y)
  simp only [rotate, hx, hy, hu₁, hu₂, hx₂, hu₃, hu₄, hu₅, hu₆, cell_child_flip, cell_child,
    cell_parent, Option.bind_eq_bind, Option.bind_some, rotatedHeap, hh₂, hh₄]

theorem load_rotated_x (hx : h.load x = some (cell d kx vx cx g c y)) (hxy : x ≠ y)
    (hbx : b ≠ x) (hgx : g ≠ x) :
    (rotatedHeap d side NIL h x y b g).load x = some (cell d kx vx cx y c b) := by
  simp [rotatedHeap, load_modifyUnless, hx, hxy, Ne.symm hbx, Ne.symm hgx]

theorem load_rotated_y (hy : h.load y = some (cell d ky vy cy x b a)) (hxy : x ≠ y)
    (hby : b ≠ y) (hgy : g ≠ y) :
    (rotatedHeap d side NIL h x y b g).load y = some (cell d ky vy cy g x a) := by
  simp [rotatedHeap, load_modifyUnless, hy, Ne.symm hxy, Ne.symm hby, Ne.symm hgy]

theorem load_rotated_b (hb : b ≠ NIL) (hbx : b ≠ x) (hby : b ≠ y) (hgb : g ≠ NIL → g ≠ b) :
    (rotatedHeap d side NIL h x y b g).load b = (h.load b).map (·.setParent x) := by
  have : ¬ (b = g ∧ g ≠ NIL) := fun hc => hgb hc.2 hc.1.symm
  simp [rotatedHeap, load_modifyUnless, hb, hbx, hby, this]

theorem load_rotated_g (hg : g ≠ NIL) (hgx : g ≠ x) (hgy : g ≠ y) (hgb : g ≠ b) :
    (rotatedHeap d side NIL h x y b g).load g = (h.load g).map (·.setChild side y) := by
  simp [rotatedHeap, load_modifyUnless, hg, hgx, hgy, hgb]

theorem load_rotated_other {q : Addr} (hx : q ≠ x) (hy : q ≠ y) (hb : q = b → b = NIL)
    (hg : q = g → g = NIL) : (rotatedHeap d side NIL h x y b g).load q = h.load q := by
  have hb' : ¬ (q = b ∧ b ≠ NIL) := fun hc => hc.2 (hb hc.1)
  have hg' : ¬ (q = g ∧ g ≠ NIL) := fun hc => hc.2 (hg hc.1)
  simp [rotatedHeap, load_modifyUnless, hx, hy, hb', hg']

end Rotation

/-- The side of its parent that a position is on. -/
def sideOf : List BookFrame → Dir
  | [] => .left
  | f :: _ => f.dir

theorem up_mem {NIL : Addr} {fs : List BookFrame} (h : up NIL fs ≠ NIL) :
    up NIL fs ∈ ctxAddrs fs := by
  cases fs with
  | nil => exact absurd rfl h
  | cons f fs => exact mem_ctxAddrs_cons.mpr (.inl rfl)

/-- `h'` differs from `h` at the addresses `as` at most, and nothing was allocated. -/
structure Confined (as : List Addr) (h h' : Heap RbtNode) : Prop where
  agrees : Heap.AgreesOff {q | q ∈ as} h h'
  next : h'.next = h.next

theorem Confined.trans {as : List Addr} {h₁ h₂ h₃ : Heap RbtNode} (c : Confined as h₁ h₂)
    (c' : Confined as h₂ h₃) : Confined as h₁ h₃ :=
  ⟨c.agrees.trans c'.agrees, c'.next.trans c.next⟩

theorem Confined.load {as : List Addr} {h h' : Heap RbtNode} (c : Confined as h h') {q : Addr}
    (hq : q ∉ as) : h'.load q = h.load q := c.agrees q hq

section Position

variable {h : Heap RbtNode} {NIL root : Addr} {f : BookFrame} {fs : List BookFrame} {t : BookTree}

theorem TreeAt.frame_ne_nil (H : TreeAt h NIL root (plug (f :: fs) t)) : f.val.addr ≠ NIL := by
  rintro rfl
  exact H.nil (mem_addrs_plug.mpr (.inr (mem_ctxAddrs_cons.mpr (.inl rfl))))

theorem TreeAt.rootAddr_ne_nil (H : TreeAt h NIL root (plug fs t)) (ht : t ≠ .nil) :
    rootAddr NIL t ≠ NIL := by
  cases t with
  | nil => exact absurd rfl ht
  | node c l k v r =>
    intro hc
    exact H.nil (mem_addrs_plug.mpr (.inl (mem_addrs_node.mpr (.inr (.inl hc.symm)))))

/-- The node above a position. -/
theorem TreeAt.load_frame (H : TreeAt h NIL root (plug (f :: fs) t)) :
    h.load f.val.addr = some (cell f.dir f.key f.val f.color (up NIL fs) (rootAddr NIL t)
      (rootAddr NIL f.sib)) :=
  (stored_plug.mp H.stored).2.1

/-- The node at a position. -/
theorem TreeAt.load_root (H : TreeAt h NIL root (plug fs t)) (ht : t ≠ .nil) :
    ∃ n, h.load (rootAddr NIL t) = some n ∧ n.parent = up NIL fs ∧ n.color = t.rootColor := by
  cases t with
  | nil => exact absurd rfl ht
  | node c l k v r => exact ⟨_, (stored_plug.mp H.stored).1.1, rfl, rfl⟩

/-- The node at a position below another. -/
theorem TreeAt.load_below (H : TreeAt h NIL root (plug (f :: fs) t)) (ht : t ≠ .nil) :
    ∃ n, h.load (rootAddr NIL t) = some n ∧ n.parent = f.val.addr := by
  obtain ⟨n, hn, hparent, -⟩ := H.load_root ht
  exact ⟨n, hn, hparent⟩

theorem TreeAt.sib_ne (H : TreeAt h NIL root (plug (f :: fs) t)) (ht : t ≠ .nil) :
    rootAddr NIL t ≠ rootAddr NIL f.sib := by
  have hmem : rootAddr NIL t ∈ addrs t := by
    cases t with
    | nil => exact absurd rfl ht
    | node c l k v r => simp [mem_addrs_node]
  intro heq
  by_cases hn : rootAddr NIL f.sib = NIL
  · exact H.nil (mem_addrs_plug.mpr (.inl (by rwa [← hn, ← heq])))
  · refine List.disjoint_left.mp (nodup_addrs_plug.mp H.nodup).2.2 hmem ?_
    exact mem_ctxAddrs_cons.mpr (.inr (.inl (heq ▸ rootAddr_mem hn)))

/-- Comparing with the left child tells on which side a position is. -/
theorem TreeAt.side_eq (H : TreeAt h NIL root (plug (f :: fs) t)) (ht : t ≠ .nil) {k : Nat}
    {v : Ref} {c : Color} {p : Addr} :
    (if rootAddr NIL t = (cell f.dir k v c p (rootAddr NIL t) (rootAddr NIL f.sib)).left
      then Dir.left else .right) = f.dir := by
  have := H.sib_ne ht
  cases hd : f.dir <;> simp [cell, this]

/-- The parent of a position, read for the side that the position is on. -/
theorem TreeAt.load_up (H : TreeAt h NIL root (plug fs t)) (ht : t ≠ .nil) :
    ∃ n, up NIL fs ≠ NIL → h.load (up NIL fs) = some n ∧
      (rootAddr NIL t = n.left ↔ sideOf fs = .left) := by
  cases fs with
  | nil => exact ⟨⟨0, 0, .red, 0, 0, 0⟩, fun hne => absurd rfl hne⟩
  | cons f fs =>
    refine ⟨_, fun _ => ⟨H.load_frame, ?_⟩⟩
    have hne := H.sib_ne ht
    cases hd : f.dir <;> simp [sideOf, cell, hd, hne]

/-- The root of the whole tree after a change at a position. -/
theorem TreeAt.root_plug (H : TreeAt h NIL root (plug fs t)) (s : BookTree) :
    (if up NIL fs = NIL then rootAddr NIL s else root) = rootAddr NIL (plug fs s) := by
  cases fs with
  | nil => simp [up]
  | cons f fs =>
    rw [up, if_neg H.frame_ne_nil, H.root]
    exact rootAddr_plug_cons

end Position

/-- The two nodes of a rotation, the three trees below them and the frames around them
have no address in common, and `NIL` is none of their addresses. -/
structure Apart (NIL x y : Addr) (C B A : BookTree) (fs : List BookFrame) : Prop where
  nodes : x ≠ y
  outer : ∀ q ∈ addrs C, q ≠ x ∧ q ≠ y ∧ q ∉ addrs B
  middle : ∀ q ∈ addrs B, q ≠ x ∧ q ≠ y
  inner : ∀ q ∈ addrs A, q ≠ x ∧ q ≠ y ∧ q ∉ addrs B
  above : ∀ q ∈ ctxAddrs fs, q ≠ x ∧ q ≠ y ∧ q ∉ addrs C ∧ q ∉ addrs B ∧ q ∉ addrs A
  nil : NIL ≠ x ∧ NIL ≠ y ∧ NIL ∉ addrs C ∧ NIL ∉ addrs B ∧ NIL ∉ addrs A ∧ NIL ∉ ctxAddrs fs

section TreeRotation

variable {h : Heap RbtNode} {NIL root : Addr} {fs : List BookFrame} {d : Dir} {cx cy : Color}
  {A B C : BookTree} {kx ky : Nat} {vx vy : Ref}

theorem TreeAt.apart
    (H : TreeAt h NIL root (plug fs (.mk d cx C kx vx (.mk d cy B ky vy A)))) :
    Apart NIL vx.addr vy.addr C B A fs := by
  obtain ⟨hndT, -, hdis⟩ := nodup_addrs_plug.mp H.nodup
  obtain ⟨hxC, hxY, -, hndY, hCY⟩ := nodup_addrs_mk.mp hndT
  obtain ⟨hyB, hyA, -, -, hBA⟩ := nodup_addrs_mk.mp hndY
  simp only [List.Disjoint, mem_addrs_mk] at hdis hCY hxY
  have hnil := H.nil
  simp only [mem_addrs_plug, mem_addrs_mk, not_or] at hnil
  constructor <;> grind [List.Disjoint]

/-- The nodes that a rotation does not touch. -/
theorem load_rotated_unlinked {q : Addr} (hx : q ≠ vx.addr) (hy : q ≠ vy.addr)
    (hb : q ∈ addrs B → q ≠ rootAddr NIL B) (hg : q ∈ ctxAddrs fs → q ≠ up NIL fs) :
    (rotatedHeap d (sideOf fs) NIL h vx.addr vy.addr (rootAddr NIL B) (up NIL fs)).load q =
      h.load q := by
  apply load_rotated_other hx hy
  · intro heq
    by_contra hn
    exact hb (heq ▸ rootAddr_mem hn) heq
  · intro heq
    by_contra hn
    exact hg (heq ▸ up_mem hn) heq

namespace Apart

variable (ap : Apart NIL vx.addr vy.addr C B A fs)

include ap

theorem middle_ne : rootAddr NIL B ≠ vx.addr ∧ rootAddr NIL B ≠ vy.addr := by
  by_cases hn : rootAddr NIL B = NIL
  · rw [hn]
    exact ⟨ap.nil.1, ap.nil.2.1⟩
  · exact ap.middle _ (rootAddr_mem hn)

theorem up_ne : up NIL fs ≠ vx.addr ∧ up NIL fs ≠ vy.addr := by
  by_cases hn : up NIL fs = NIL
  · rw [hn]
    exact ⟨ap.nil.1, ap.nil.2.1⟩
  · exact ⟨(ap.above _ (up_mem hn)).1, (ap.above _ (up_mem hn)).2.1⟩

theorem up_ne_middle (hn : up NIL fs ≠ NIL) : up NIL fs ≠ rootAddr NIL B := by
  intro heq
  exact (ap.above _ (up_mem hn)).2.2.2.1 (heq ▸ rootAddr_mem (heq ▸ hn))

/-- The turned subtree after a rotation. -/
theorem stored_rotated
    (hx : h.load vx.addr = some (cell d kx vx cx (up NIL fs) (rootAddr NIL C) vy.addr))
    (hy : h.load vy.addr = some (cell d ky vy cy vx.addr (rootAddr NIL B) (rootAddr NIL A)))
    (hC : Stored h NIL vx.addr C) (hB : Stored h NIL vy.addr B) (hA : Stored h NIL vy.addr A)
    (hnd : (addrs B).Nodup) :
    Stored (rotatedHeap d (sideOf fs) NIL h vx.addr vy.addr (rootAddr NIL B) (up NIL fs)) NIL
      (up NIL fs) (.mk d cy (.mk d cx C kx vx B) ky vy A) := by
  obtain ⟨hbx, hby⟩ := ap.middle_ne
  obtain ⟨hgx, hgy⟩ := ap.up_ne
  have habove := ap.above
  refine stored_mk.mpr ⟨?_, stored_mk.mpr ⟨?_, ?_, ?_⟩, ?_⟩
  · rw [rootAddr_mk]
    exact load_rotated_y hy ap.nodes hby hgy
  · exact load_rotated_x hx ap.nodes hbx hgx
  · apply hC.frame
    intro q hq
    have := ap.outer q hq
    exact load_rotated_unlinked this.1 this.2.1 (by grind) (by grind)
  · apply hB.reparent hnd ap.nil.2.2.2.1
    · intro hn
      exact load_rotated_b hn hbx hby ap.up_ne_middle
    · intro q hq hne
      have := ap.middle q hq
      exact load_rotated_unlinked this.1 this.2 (fun _ => hne) (by grind)
  · apply hA.frame
    intro q hq
    have := ap.inner q hq
    exact load_rotated_unlinked this.1 this.2.1 (by grind) (by grind)

/-- The frames after a rotation, whose innermost one points to the node that rose. -/
theorem above_rotated (s : Above h NIL fs vx.addr) (hnd : (ctxAddrs fs).Nodup) :
    Above (rotatedHeap d (sideOf fs) NIL h vx.addr vy.addr (rootAddr NIL B) (up NIL fs)) NIL fs
      vy.addr := by
  cases fs with
  | nil => trivial
  | cons f fs =>
    have hmem : f.val.addr ∈ ctxAddrs (f :: fs) := mem_ctxAddrs_cons.mpr (.inl rfl)
    have hne : f.val.addr ≠ NIL := fun hc => ap.nil.2.2.2.2.2 (hc ▸ hmem)
    apply s.relink hnd
    · exact load_rotated_g hne ap.up_ne.1 ap.up_ne.2 (ap.up_ne_middle hne)
    · intro q hq hqf
      have := ap.above q hq
      exact load_rotated_unlinked this.1 this.2.1 (by grind) (fun _ => hqf)

end Apart

/-- A rotation turns the tree at its position and keeps everything else. -/
theorem TreeAt.rotate
    (H : TreeAt h NIL root (plug fs (.mk d cx C kx vx (.mk d cy B ky vy A)))) :
    ∃ h' root', TradeServer.rotate d NIL root h vx.addr = some (root', h') ∧
      TreeAt h' NIL root' (plug fs (.mk d cy (.mk d cx C kx vx B) ky vy A)) ∧
      Confined (addrs (plug fs (.mk d cx C kx vx (.mk d cy B ky vy A)))) h h' := by
  have ap := H.apart
  have haddrs : addrs (plug fs (.mk d cy (.mk d cx C kx vx B) ky vy A)) =
      addrs (plug fs (.mk d cx C kx vx (.mk d cy B ky vy A))) :=
    addrs_of_toList (toList_plug_congr fs (by cases d <;> simp [ColorTree.mk]))
  obtain ⟨hT, habove⟩ := stored_plug.mp H.stored
  obtain ⟨hx, hC, hyT⟩ := stored_mk.mp hT
  obtain ⟨hy, hB, hA⟩ := stored_mk.mp hyT
  rw [rootAddr_mk] at hx habove
  obtain ⟨hndT, hndfs, -⟩ := nodup_addrs_plug.mp H.nodup
  have hndB : (addrs B).Nodup :=
    (nodup_addrs_mk.mp (nodup_addrs_mk.mp hndT).2.2.2.1).2.2.1
  obtain ⟨gn, hgn⟩ := H.load_up (mk_ne_nil _ _ _ _ _ _)
  rw [rootAddr_mk] at hgn
  have hrun := rotate_run root hx hy (fun hn => hB.live (rootAddr_mem hn)) hgn ap.nodes
    ap.middle_ne.1 ap.middle_ne.2 ap.up_ne.1 ap.up_ne.2 ap.up_ne_middle
  have hroot := H.root_plug (.mk d cy (.mk d cx C kx vx B) ky vy A)
  rw [rootAddr_mk] at hroot
  refine ⟨_, _, hrun, ⟨hroot, stored_plug.mpr ⟨?_, ?_⟩, haddrs ▸ H.nodup, haddrs ▸ H.nil⟩, ?_, ?_⟩
  · exact ap.stored_rotated hx hy hC hB hA hndB
  · rw [rootAddr_mk]
    exact ap.above_rotated habove hndfs
  · intro q hq
    simp only [Set.mem_ofPred_eq, mem_addrs_plug, mem_addrs_mk, not_or] at hq
    exact load_rotated_unlinked hq.1.1 hq.1.2.2.1 (by grind) (by grind)
  · simp [rotatedHeap]

end TreeRotation

section Position

variable {h : Heap RbtNode} {NIL root : Addr} {f : BookFrame} {fs : List BookFrame} {t : BookTree}

theorem plug_ne_nil_of_ne (fs : List BookFrame) (ht : t ≠ .nil) : plug fs t ≠ .nil := by
  induction fs generalizing t with
  | nil => exact ht
  | cons f fs ih => exact ih (plug_ne_nil f t)

/-- The position of the sibling. -/
theorem plug_sib (f : BookFrame) (fs : List BookFrame) (t : BookTree) :
    plug (f :: fs) t = plug (⟨f.dir.flip, f.color, f.key, f.val, t⟩ :: fs) f.sib := by
  simp [Frame.plug, ColorTree.mk_flip]

/-- Recoloring one node. -/
theorem TreeAt.recolor (H : TreeAt h NIL root (plug fs t)) (ht : t ≠ .nil) (c : Color) :
    h.update (rootAddr NIL t) (·.setColor c) = some (h.modify (rootAddr NIL t) (·.setColor c)) ∧
      TreeAt (h.modify (rootAddr NIL t) (·.setColor c)) NIL root (plug fs (t.setColor c)) ∧
      Confined (addrs (plug fs t)) h (h.modify (rootAddr NIL t) (·.setColor c)) := by
  have haddrs : addrs (plug fs (t.setColor c)) = addrs (plug fs t) :=
    addrs_of_toList (toList_plug_congr fs (by simp))
  obtain ⟨n, hn, -⟩ := H.load_root ht
  obtain ⟨hst, habove⟩ := stored_plug.mp H.stored
  obtain ⟨hnd, -, hdis⟩ := nodup_addrs_plug.mp H.nodup
  cases t with
  | nil => exact absurd rfl ht
  | node c₀ l k v r =>
    rw [← ColorTree.mk_left, nodup_addrs_mk] at hnd
    obtain ⟨hvl, hvr, -⟩ := hnd
    have hv : v.addr ∈ addrs (.node c₀ l k v r) := by simp [mem_addrs_node]
    obtain ⟨hload, hl, hr⟩ := hst
    refine ⟨Heap.update_of_load hn _, ⟨?_, stored_plug.mpr ⟨⟨?_, ?_, ?_⟩, ?_⟩, ?_, ?_⟩, ?_, rfl⟩
    · rw [H.root, rootAddr_plug (rootAddr_setColor NIL c _)]
    · simp [rootAddr, hload, RbtNode.setColor]
    · exact hl.frame fun q hq => by simp [rootAddr, show q ≠ v.addr by grind]
    · exact hr.frame fun q hq => by simp [rootAddr, show q ≠ v.addr by grind]
    · rw [rootAddr_setColor]
      apply habove.frame
      intro q hq
      have : q ≠ v.addr := fun hc => List.disjoint_left.mp hdis hv (hc ▸ hq)
      simp [rootAddr, this]
    · exact haddrs ▸ H.nodup
    · exact haddrs ▸ H.nil
    · exact Heap.agreesOff_modify h (mem_addrs_plug.mpr (.inl hv)) _

end Position

/-- The two recolorings of the outer case. -/
theorem TreeAt.recolorOuter {h : Heap RbtNode} {NIL root : Addr} {p g : BookFrame}
    {fs : List BookFrame} {t : BookTree} (H : TreeAt h NIL root (plug (p :: g :: fs) t))
    (hd : p.dir = g.dir) :
    ∃ h₁ h₂ pn, h.update p.val.addr (·.setColor .black) = some h₁ ∧
      h₁.load p.val.addr = some pn ∧ pn.parent = g.val.addr ∧
      h₁.update g.val.addr (·.setColor .red) = some h₂ ∧
      TreeAt h₂ NIL root (plug fs (.mk g.dir.flip .red g.sib g.key g.val
        (.mk g.dir.flip .black p.sib p.key p.val t))) ∧
      Confined (addrs (plug (p :: g :: fs) t)) h h₂ := by
  obtain ⟨hu₁, H₁, c₁⟩ := TreeAt.recolor (show TreeAt _ _ _ (plug (g :: fs) (p.plug t)) from H)
    (plug_ne_nil p t) .black
  rw [rootAddr_framePlug] at hu₁ H₁ c₁
  have hp₁ : (p.plug t).setColor .black ≠ .nil := by
    simpa [Frame.plug] using plug_ne_nil { p with color := .black } t
  obtain ⟨pn, hpn, hparent, -⟩ := H₁.load_root hp₁
  rw [rootAddr_setColor, rootAddr_framePlug] at hpn
  obtain ⟨hu₂, H₂, c₂⟩ := TreeAt.recolor (show TreeAt _ _ _ (plug fs (g.plug _)) from H₁)
    (plug_ne_nil g _) .red
  rw [rootAddr_framePlug] at hu₂ H₂ c₂
  have hshape : (g.plug ((p.plug t).setColor .black)).setColor .red =
      .mk g.dir.flip .red g.sib g.key g.val (.mk g.dir.flip .black p.sib p.key p.val t) := by
    simp [Frame.plug, ColorTree.mk_flip, hd]
  rw [hshape] at H₂
  have haddrs : addrs (plug (g :: fs) ((p.plug t).setColor .black)) =
      addrs (plug (p :: g :: fs) t) :=
    addrs_of_toList (toList_plug_congr (g :: fs) (by simp))
  exact ⟨_, _, pn, hu₁, hpn, hparent, hu₂, H₂, c₁.trans (haddrs ▸ c₂)⟩

/-- The rotation of the outer case and the two recolorings before it. -/
theorem TreeAt.fixUpOuter {h : Heap RbtNode} {NIL root : Addr} {p g : BookFrame}
    {fs : List BookFrame} {t : BookTree} (H : TreeAt h NIL root (plug (p :: g :: fs) t))
    (ht : t ≠ .nil) (hd : p.dir = g.dir) :
    ∃ h' root', TradeServer.fixUpOuter g.dir NIL root h (rootAddr NIL t) = some (root', h') ∧
      TreeAt h' NIL root' (plug fs (rotated p g t)) ∧
      Confined (addrs (plug (p :: g :: fs) t)) h h' := by
  obtain ⟨n, hn, hparent⟩ := H.load_below ht
  obtain ⟨h₁, h₂, pn, hu₁, hpn, hgrand, hu₂, H₂, c₂⟩ := H.recolorOuter hd
  obtain ⟨h₃, root₃, hrun, H₃, c₃⟩ := H₂.rotate
  have hrot : ColorTree.mk g.dir.flip .black (.mk g.dir.flip .red g.sib g.key g.val p.sib) p.key
      p.val t = rotated p g t := by
    simp [rotated, hd, ColorTree.mk_flip]
  rw [hrot] at H₃
  have haddrs : addrs (plug fs (.mk g.dir.flip .red g.sib g.key g.val
      (.mk g.dir.flip .black p.sib p.key p.val t))) = addrs (plug (p :: g :: fs) t) :=
    addrs_of_toList (toList_plug_congr fs (by
      cases hg : g.dir <;> simp [Frame.plug, ColorTree.mk, Dir.flip, hd, hg]))
  refine ⟨h₃, root₃, ?_, H₃, c₂.trans (haddrs ▸ c₃)⟩
  simp only [TradeServer.fixUpOuter, hn, hparent, Option.bind_eq_bind, Option.bind_some, hu₁,
    hpn, hgrand, hu₂, rotateTo_eq, hrun]

theorem toList_rotated_plug (p g : BookFrame) (fs : List BookFrame) {t : BookTree}
    (ht : t ≠ .nil) : addrs (plug fs (rotated p g t)) = addrs (plug (p :: g :: fs) t) :=
  addrs_of_toList (toList_plug_congr fs (toList_rotated p g ht))

/-- The first rotation of the inner case: the old parent becomes the outer grandchild. -/
theorem TreeAt.rotateInner {h : Heap RbtNode} {NIL root : Addr} {p g : BookFrame}
    {fs : List BookFrame} {a b : BookTree} {k : Nat} {v : Ref}
    (H : TreeAt h NIL root (plug (p :: g :: fs) (.mk g.dir .red a k v b))) (hp : p.color = .red)
    (hd : p.dir = g.dir.flip) :
    ∃ h' root', TradeServer.rotate g.dir NIL root h p.val.addr = some (root', h') ∧
      TreeAt h' NIL root' (plug (⟨g.dir, .red, k, v, b⟩ :: g :: fs)
        (.mk g.dir .red p.sib p.key p.val a)) ∧
      Confined (addrs (plug (p :: g :: fs) (.mk g.dir .red a k v b))) h h' := by
  have hshape : p.plug (.mk g.dir .red a k v b) =
      .mk g.dir .red p.sib p.key p.val (.mk g.dir .red a k v b) := by
    simp [Frame.plug, hd, hp, ColorTree.mk_flip]
  rw [plug_cons p, hshape] at H ⊢
  exact H.rotate

/-- The outer case leaves the new position below a black node. -/
theorem rotated_eq_plug {p g : BookFrame} (t : BookTree) (hd : p.dir = g.dir) :
    (⟨g.dir, .black, p.key, p.val, .mk g.dir .red p.sib g.key g.val g.sib⟩ : BookFrame).plug t =
      rotated p g t := by simp [Frame.plug, rotated, hd]

/-- A black uncle: the new position is below a black node, so that the loop ends. -/
theorem TreeAt.fixUpRotate {h : Heap RbtNode} {NIL root : Addr} {p g : BookFrame}
    {fs : List BookFrame} {t : BookTree} (H : TreeAt h NIL root (plug (p :: g :: fs) t))
    (ht : t.rootColor = .red) (hp : p.color = .red) :
    ∃ h' root' f s, TradeServer.fixUpRotate g.dir NIL root h (rootAddr NIL t) =
        some (root', h', rootAddr NIL s) ∧
      s ≠ .nil ∧ f.color = .black ∧ f.plug s = rotated p g t ∧
      TreeAt h' NIL root' (plug (f :: fs) s) ∧ Confined (addrs (plug (p :: g :: fs) t)) h h' := by
  have hne := ne_nil_of_red ht
  obtain ⟨n, hn, hup⟩ := H.load_below hne
  have hpl := H.load_frame
  by_cases hd : p.dir = g.dir
  · obtain ⟨h', root', hrun, H', c'⟩ := H.fixUpOuter hne hd
    refine ⟨h', root', _, t, ?_, hne, rfl, rotated_eq_plug t hd, ?_, c'⟩
    · have hin : rootAddr NIL t ≠ rootAddr NIL p.sib := H.sib_ne hne
      simp only [TradeServer.fixUpRotate, hn, hup, hpl, hd, cell_child_flip, if_neg hin,
        Option.bind_eq_bind, Option.bind_some, hrun]
    · rwa [plug_cons, rotated_eq_plug t hd]
  · have hpd : p.dir = g.dir.flip := Dir.eq_flip_of_ne hd
    obtain ⟨a, k, v, b, rfl⟩ := exists_mk_of_red g.dir ht
    obtain ⟨h₁, root₁, hrun₁, H₁, c₁⟩ := H.rotateInner hp hpd
    generalize hs : ColorTree.mk g.dir .red p.sib p.key p.val a = s at H₁
    have hsne : s ≠ .nil := hs ▸ plug_ne_nil ⟨g.dir, .red, p.key, p.val, a⟩ p.sib
    have hsa : rootAddr NIL s = p.val.addr := by rw [← hs, rootAddr_mk]
    obtain ⟨h₂, root₂, hrun₂, H₂, c₂⟩ := H₁.fixUpOuter hsne rfl
    have hrot : rotated p g (.mk g.dir .red a k v b) = rotated ⟨g.dir, .red, k, v, b⟩ g s := by
      rw [rotated_inner hd, ← hs]
      simp [rotated]
    have haddrs := toList_rotated_plug p g fs hne
    rw [hrot, toList_rotated_plug _ g fs hsne] at haddrs
    have hplug := @rotated_eq_plug ⟨g.dir, .red, k, v, b⟩ g s rfl
    refine ⟨h₂, root₂, _, s, ?_, hsne, rfl, hplug.trans hrot.symm, ?_, c₁.trans (haddrs ▸ c₂)⟩
    · have hin : (cell p.dir p.key p.val p.color (up NIL (g :: fs))
          (rootAddr NIL (.mk g.dir .red a k v b)) (rootAddr NIL p.sib)).child g.dir.flip =
          rootAddr NIL (.mk g.dir .red a k v b) := by
        rw [← hpd, cell_child]
      rw [hsa] at hrun₂ ⊢
      simp only [TradeServer.fixUpRotate, hn, hup, hpl, hin, if_true, rotateTo_eq,
        Option.bind_eq_bind, Option.bind_some, hrun₁, hrun₂]
    · rwa [plug_cons, hplug]

/-- A red uncle: three recolorings. -/
theorem TreeAt.recolored {h : Heap RbtNode} {NIL root : Addr} {p g : BookFrame}
    {fs : List BookFrame} {t : BookTree} (H : TreeAt h NIL root (plug (p :: g :: fs) t))
    (hu : g.sib.rootColor = .red) :
    ∃ h₁ h₂ h₃, h.update p.val.addr (·.setColor .black) = some h₁ ∧
      h₁.update (rootAddr NIL g.sib) (·.setColor .black) = some h₂ ∧
      h₂.update g.val.addr (·.setColor .red) = some h₃ ∧
      TreeAt h₃ NIL root (plug fs (Library.recolored p g t)) ∧
      Confined (addrs (plug (p :: g :: fs) t)) h h₃ := by
  have hgs := ne_nil_of_red hu
  obtain ⟨hu₁, H₁, c₁⟩ := TreeAt.recolor (show TreeAt _ _ _ (plug (g :: fs) (p.plug t)) from H)
    (plug_ne_nil p t) .black
  rw [rootAddr_framePlug] at hu₁ H₁ c₁
  rw [plug_sib] at H₁
  obtain ⟨hu₂, H₂, c₂⟩ := H₁.recolor hgs .black
  have hshape : plug (⟨g.dir.flip, g.color, g.key, g.val, (p.plug t).setColor .black⟩ :: fs)
      (g.sib.setColor .black) =
      plug fs (({ g with sib := g.sib.setColor .black } : BookFrame).plug
        ((p.plug t).setColor .black)) := by
    simp [Frame.plug, ColorTree.mk_flip]
  rw [hshape] at H₂
  obtain ⟨hu₃, H₃, c₃⟩ := H₂.recolor (plug_ne_nil _ _) .red
  rw [rootAddr_framePlug] at hu₃ H₃ c₃
  refine ⟨_, _, _, hu₁, hu₂, hu₃, ?_, ?_⟩
  · simpa [Library.recolored, Frame.plug] using H₃
  · rw [← plug_sib] at c₂
    have h₂ : addrs (plug (g :: fs) ((p.plug t).setColor .black)) =
        addrs (plug (p :: g :: fs) t) :=
      addrs_of_toList (toList_plug_congr (g :: fs) (by simp))
    have h₃ : addrs (plug fs (({ g with sib := g.sib.setColor .black } : BookFrame).plug
        ((p.plug t).setColor .black))) = addrs (plug (p :: g :: fs) t) := by
      refine addrs_of_toList (toList_plug_congr fs ?_)
      simp [Frame.toList_plug, Frame.before, Frame.after]
    exact c₁.trans ((h₂ ▸ c₂).trans (h₃ ▸ c₃))

/-- `NIL` is black and has no links. -/
def NilBlack (h : Heap RbtNode) (NIL : Addr) : Prop :=
  ∃ unset, h.load NIL = some ⟨unset, NULL, .black, NULL, NULL, NULL⟩

theorem NilBlack.confined {h h' : Heap RbtNode} {NIL : Addr} {as : List Addr}
    (hN : NilBlack h NIL) (c : Confined as h h') (hnil : NIL ∉ as) : NilBlack h' NIL := by
  obtain ⟨unset, hN⟩ := hN
  exact ⟨unset, (c.load hnil).trans hN⟩

/-- The color that `fix_up` reads at a subtree. -/
theorem load_color {h : Heap RbtNode} {NIL root : Addr} {fs : List BookFrame} {t : BookTree}
    (H : TreeAt h NIL root (plug fs t)) (hN : NilBlack h NIL) :
    ∃ n, h.load (rootAddr NIL t) = some n ∧ n.color = t.rootColor := by
  by_cases ht : t = .nil
  · obtain ⟨unset, hN⟩ := hN
    exact ⟨_, by rw [ht]; exact hN, by rw [ht]; rfl⟩
  · obtain ⟨n, hn, -, hc⟩ := H.load_root ht
    exact ⟨n, hn, hc⟩

/-- The loop of `fix_up` ends below a black node and blackens the root. -/
theorem fixUp_stop {h : Heap RbtNode} {NIL root z : Addr} {T : BookTree} {zn pn : RbtNode}
    {fuel : Nat} (H : TreeAt h NIL root T) (hT : T ≠ .nil) (hz : h.load z = some zn)
    (hp : h.load zn.parent = some pn) (hc : pn.color = .black) :
    ∃ h', fixUp NIL (fuel + 1) root h z = some (root, h') ∧
      TreeAt h' NIL root (T.setColor .black) ∧ Confined (addrs T) h h' := by
  obtain ⟨hu, H', c⟩ := TreeAt.recolor (show TreeAt _ _ _ (plug [] T) from H) hT .black
  rw [← H.root] at hu H' c
  refine ⟨_, ?_, H', c⟩
  simp [fixUp, hz, hp, hc, hu]

/-- The top frame is black: `fix_up` never looks for a grandparent above the root. -/
def TopBlack (fs : List BookFrame) : Prop := ∀ f ∈ fs.getLast?, f.color = .black

theorem TopBlack.tail {f : BookFrame} {fs : List BookFrame} (h : TopBlack (f :: fs)) :
    TopBlack fs := by
  cases fs with
  | nil => simp [TopBlack]
  | cons g gs => simpa [TopBlack, List.getLast?_cons_cons] using h

/-- The top frame is the root of the tree. -/
theorem topBlack_of_rootColor {fs : List BookFrame} {t : BookTree}
    (h : (plug fs t).rootColor = .black) : TopBlack fs := by
  induction fs generalizing t with
  | nil => simp [TopBlack]
  | cons f fs ih =>
    cases fs with
    | nil => simpa [TopBlack, Frame.plug] using h
    | cons g gs => simpa [TopBlack, List.getLast?_cons_cons] using @ih (f.plug t) h

/-- The loop goes on below a red node, on the side of the grandparent where that node is. -/
theorem TreeAt.fixUp_turn {h : Heap RbtNode} {NIL root : Addr} {p g : BookFrame}
    {fs : List BookFrame} {t : BookTree} (H : TreeAt h NIL root (plug (p :: g :: fs) t))
    (ht : t ≠ .nil) (hp : p.color = .red) (fuel : Nat) :
    fixUp NIL (fuel + 1) root h (rootAddr NIL t) =
      (fixUpSide g.dir NIL root h (rootAddr NIL t)).bind
        fun r => fixUp NIL fuel r.1 r.2.1 r.2.2 := by
  have H' : TreeAt h NIL root (plug (g :: fs) (p.plug t)) := H
  obtain ⟨n, hn, hparent⟩ := H.load_below ht
  have hpl := H.load_frame
  have hgl := H'.load_frame
  have hside := H'.side_eq (plug_ne_nil p t) (k := g.key) (v := g.val) (c := g.color)
    (p := up NIL fs)
  rw [rootAddr_framePlug] at hgl hside
  simp only [fixUp, hn, hparent, hpl, cell_color, hp, if_true, cell_parent, up_cons, hgl, hside,
    Option.bind_eq_bind, Option.bind_some]

/-- The body of the loop reads the color of the uncle. -/
theorem TreeAt.fixUpSide_eq {h : Heap RbtNode} {NIL root : Addr} {p g : BookFrame}
    {fs : List BookFrame} {t : BookTree} (H : TreeAt h NIL root (plug (p :: g :: fs) t))
    (ht : t ≠ .nil) (hN : NilBlack h NIL) :
    fixUpSide g.dir NIL root h (rootAddr NIL t) =
      if g.sib.rootColor = .red then do
        let h ← h.update p.val.addr (·.setColor .black)
        let h ← h.update (rootAddr NIL g.sib) (·.setColor .black)
        let h ← h.update g.val.addr (·.setColor .red)
        some (root, h, g.val.addr)
      else TradeServer.fixUpRotate g.dir NIL root h (rootAddr NIL t) := by
  have H' : TreeAt h NIL root (plug (g :: fs) (p.plug t)) := H
  have hU : TreeAt h NIL root
      (plug (⟨g.dir.flip, g.color, g.key, g.val, p.plug t⟩ :: fs) g.sib) := by
    rw [← plug_sib]
    exact H
  obtain ⟨n, hn, hparent⟩ := H.load_below ht
  obtain ⟨un, hun, huc⟩ := load_color hU hN
  simp only [fixUpSide, hn, hparent, H.load_frame, cell_parent, up_cons, H'.load_frame,
    cell_child_flip, hun, huc, Option.bind_eq_bind, Option.bind_some]

/-- A red uncle: the new position is the red grandparent. -/
theorem TreeAt.fixUpSide_red {h : Heap RbtNode} {NIL root : Addr} {p g : BookFrame}
    {fs : List BookFrame} {t : BookTree} (H : TreeAt h NIL root (plug (p :: g :: fs) t))
    (ht : t.rootColor = .red) (hN : NilBlack h NIL) (hu : g.sib.rootColor = .red) :
    ∃ h', fixUpSide g.dir NIL root h (rootAddr NIL t) =
        some (root, h', rootAddr NIL (Library.recolored p g t)) ∧
      TreeAt h' NIL root (plug fs (Library.recolored p g t)) ∧
      Confined (addrs (plug (p :: g :: fs) t)) h h' := by
  obtain ⟨h₁, h₂, h₃, hu₁, hu₂, hu₃, H₃, c₃⟩ := H.recolored hu
  have hga : rootAddr NIL (Library.recolored p g t) = g.val.addr := by
    simp [Library.recolored, Frame.plug]
  refine ⟨h₃, ?_, H₃, c₃⟩
  rw [hga, H.fixUpSide_eq (ne_nil_of_red ht) hN, if_pos hu, hu₁, Option.bind_eq_bind,
    Option.bind_some, hu₂, Option.bind_some, hu₃]
  rfl

/-- A black uncle: the new position is below a black node. -/
theorem TreeAt.fixUpSide_black {h : Heap RbtNode} {NIL root : Addr} {p g : BookFrame}
    {fs : List BookFrame} {t : BookTree} (H : TreeAt h NIL root (plug (p :: g :: fs) t))
    (ht : t.rootColor = .red) (hp : p.color = .red) (hN : NilBlack h NIL)
    (hu : g.sib.rootColor ≠ .red) :
    ∃ h' root' f s, fixUpSide g.dir NIL root h (rootAddr NIL t) =
        some (root', h', rootAddr NIL s) ∧
      s ≠ .nil ∧ f.color = .black ∧ f.plug s = rotated p g t ∧
      TreeAt h' NIL root' (plug (f :: fs) s) ∧ Confined (addrs (plug (p :: g :: fs) t)) h h' := by
  rw [H.fixUpSide_eq (ne_nil_of_red ht) hN, if_neg hu]
  exact H.fixUpRotate ht hp

/-- Where the loop ends when it has not met a red parent: below `NIL` or a black node. -/
theorem TreeAt.load_top {h : Heap RbtNode} {NIL root : Addr} {fs : List BookFrame}
    {t : BookTree} (H : TreeAt h NIL root (plug fs t)) (hN : NilBlack h NIL) (htop : TopBlack fs)
    (hfs : ∀ p g gs, fs = p :: g :: gs → False) :
    ∃ pn, h.load (up NIL fs) = some pn ∧ pn.color = .black := by
  obtain _ | ⟨f, _ | ⟨g, fs⟩⟩ := fs
  · obtain ⟨unset, hN⟩ := hN
    exact ⟨_, hN, rfl⟩
  · exact ⟨_, H.load_frame, by simpa [TopBlack] using htop⟩
  · exact absurd rfl (hfs f g fs)

/-- The loop of `fix_up` leaves the repaired tree with a black root. -/
theorem TreeAt.fixUp {h : Heap RbtNode} {NIL root : Addr} {fs : List BookFrame} {t : BookTree}
    {fuel : Nat} (H : TreeAt h NIL root (plug fs t)) (ht : t.rootColor = .red)
    (hN : NilBlack h NIL) (htop : TopBlack fs) (hfuel : fs.length + 2 ≤ fuel) :
    ∃ h' root', TradeServer.fixUp NIL fuel root h (rootAddr NIL t) = some (root', h') ∧
      TreeAt h' NIL root' ((repair fs t).setColor .black) ∧
      Confined (addrs (plug fs t)) h h' := by
  have hne := ne_nil_of_red ht
  induction fs, t using repair.induct generalizing h root fuel with
  | case1 p g fs t hp =>
    obtain ⟨n, hn, hparent, -⟩ := H.load_root hne
    obtain ⟨fuel, rfl⟩ : ∃ k, fuel = k + 1 := ⟨fuel - 1, by omega⟩
    obtain ⟨h', hrun, H', c⟩ := fixUp_stop H (plug_ne_nil_of_ne _ hne) hn
      (by rw [hparent]; exact H.load_frame) (by simp [hp])
    exact ⟨h', root, hrun, by rwa [repair, if_pos hp], c⟩
  | case2 p g fs t hp hu ih =>
    have hpr := Color.eq_red_of_ne hp
    obtain ⟨h₃, hside, H₃, c₃⟩ := H.fixUpSide_red ht hN hu
    obtain ⟨fuel, rfl⟩ : ∃ k, fuel = k + 1 := ⟨fuel - 1, by omega⟩
    have hlen : fs.length + 2 ≤ fuel := by simp at hfuel; omega
    obtain ⟨h', root', hrun, H', c'⟩ := ih H₃ (by simp [Library.recolored, Frame.plug])
      (hN.confined c₃ H.nil) htop.tail.tail hlen (plug_ne_nil _ _)
    refine ⟨h', root', ?_, by rwa [repair, if_neg hp, if_pos hu], c₃.trans ?_⟩
    · rw [H.fixUp_turn hne hpr, hside]
      exact hrun
    · have : addrs (plug fs (Library.recolored p g t)) = addrs (plug (p :: g :: fs) t) :=
        addrs_of_toList (toList_plug_congr fs (toList_recolored p g t))
      rwa [this] at c'
  | case3 p g fs t hp hu =>
    have hpr := Color.eq_red_of_ne hp
    obtain ⟨h₁, root₁, f, s, hside, hsne, hf, hfs, H₁, c₁⟩ := H.fixUpSide_black ht hpr hN hu
    obtain ⟨fuel, rfl⟩ : ∃ k, fuel = k + 1 + 1 := ⟨fuel - 2, by omega⟩
    obtain ⟨zn, hz, hzp, -⟩ := H₁.load_root hsne
    obtain ⟨h', hrun, H', c'⟩ := fixUp_stop H₁ (plug_ne_nil_of_ne _ hsne) hz
      (by rw [hzp]; exact H₁.load_frame) (by simp [hf])
    rw [plug_cons, hfs] at H' c'
    refine ⟨h', root₁, ?_, by rwa [repair, if_neg hp, if_neg hu], c₁.trans ?_⟩
    · rw [H.fixUp_turn hne hpr, hside]
      exact hrun
    · rwa [toList_rotated_plug p g fs hne] at c'
  | case4 fs t hfs =>
    obtain ⟨n, hn, hparent, -⟩ := H.load_root hne
    obtain ⟨fuel, rfl⟩ : ∃ k, fuel = k + 1 := ⟨fuel - 1, by omega⟩
    obtain ⟨pn, hpn, hpc⟩ := H.load_top hN htop hfs
    rw [← hparent] at hpn
    obtain ⟨h', hrun, H', c⟩ := fixUp_stop H (plug_ne_nil_of_ne _ hne) hn hpn hpc
    exact ⟨h', root, hrun, by rwa [repair.eq_2 fs t hfs], c⟩

end TradeServer
