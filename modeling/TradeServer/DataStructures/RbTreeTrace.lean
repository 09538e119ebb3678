import TradeServer.DataStructures.RbTreeFixUp
import TradeServer.Library.Recorded

/-!
# What `fix_up` does on its way

The rotations and `fix_up` once more, with a record of every turn of the loop, every write
and every rotation. They compute what the functions without the record compute
(`Traced.value_fixUp`), and all they record on a tree is safe (`FixEvent.Safe`).
-/

namespace TradeServer

open Library

/-- What `fix_up` does besides reading. -/
inductive FixEvent where
  /-- A turn of the loop begins. -/
  | turn (h : Heap RbtNode) (z : Addr)
  /-- A field of the node is written. -/
  | write (p : Addr)
  /-- The rotation at `x` toward `d` is done. -/
  | rotation (d : Dir) (x root : Addr) (h : Heap RbtNode) (root' : Addr) (h' : Heap RbtNode)

namespace Traced

open Recorded

def write (h : Heap RbtNode) (p : Addr) (f : RbtNode → RbtNode) :
    Recorded FixEvent (Heap RbtNode) := do
  emit (.write p)
  h.update p f

def adopt (NIL : Addr) (h : Heap RbtNode) (child p : Addr) : Recorded FixEvent (Heap RbtNode) :=
  if child ≠ NIL then write h child (·.setParent p) else pure h

def replaceChild (NIL root : Addr) (h : Heap RbtNode) (parent x y : Addr) :
    Recorded FixEvent (Addr × Heap RbtNode) :=
  if parent = NIL then pure (y, h)
  else do
    let side := if x = (← h.load parent).left then .left else .right
    let h ← write h parent (·.setChild side y)
    pure (root, h)

/-- The writes of a rotation. -/
def relink (d : Dir) (NIL root : Addr) (h : Heap RbtNode) (x : Addr) :
    Recorded FixEvent (Addr × Heap RbtNode) := do
  let y := (← h.load x).child d.flip
  let yn ← h.load y
  let h ← write h x (·.setChild d.flip (yn.child d))
  let h ← adopt NIL h (yn.child d) x
  let parent := (← h.load x).parent
  let h ← write h y (·.setParent parent)
  let (root, h) ← replaceChild NIL root h parent x y
  let h ← write h y (·.setChild d x)
  let h ← write h x (·.setParent y)
  pure (root, h)

def rotate (d : Dir) (NIL root : Addr) (h : Heap RbtNode) (x : Addr) :
    Recorded FixEvent (Addr × Heap RbtNode) := do
  let (root', h') ← relink d NIL root h x
  emit (.rotation d x root h root' h')
  pure (root', h')

def fixUpOuter (d : Dir) (NIL root : Addr) (h : Heap RbtNode) (z : Addr) :
    Recorded FixEvent (Addr × Heap RbtNode) := do
  let parent := (← h.load z).parent
  let h ← write h parent (·.setColor .black)
  let grandparent := (← h.load parent).parent
  let h ← write h grandparent (·.setColor .red)
  rotate d.flip NIL root h grandparent

def fixUpRotate (d : Dir) (NIL root : Addr) (h : Heap RbtNode) (z : Addr) :
    Recorded FixEvent (Addr × Heap RbtNode × Addr) := do
  let parent := (← h.load z).parent
  if z = (← h.load parent).child d.flip then
    let (root, h) ← rotate d NIL root h parent
    let (root, h) ← fixUpOuter d NIL root h parent
    pure (root, h, parent)
  else
    let (root, h) ← fixUpOuter d NIL root h z
    pure (root, h, z)

def fixUpSide (d : Dir) (NIL root : Addr) (h : Heap RbtNode) (z : Addr) :
    Recorded FixEvent (Addr × Heap RbtNode × Addr) := do
  let parent := (← h.load z).parent
  let grandparent := (← h.load parent).parent
  let uncle := (← h.load grandparent).child d.flip
  if (← h.load uncle).color = .red then
    let h ← write h parent (·.setColor .black)
    let h ← write h uncle (·.setColor .black)
    let h ← write h grandparent (·.setColor .red)
    pure (root, h, grandparent)
  else fixUpRotate d NIL root h z

def fixUp (NIL : Addr) : Nat → Addr → Heap RbtNode → Addr →
    Recorded FixEvent (Addr × Heap RbtNode)
  | 0, _, _, _ => liftM (none : Option (Addr × Heap RbtNode))
  | fuel + 1, root, h, z => do
    let parent := (← h.load z).parent
    let pn ← h.load parent
    if pn.color = .red then
      emit (.turn h z)
      let side := if parent = (← h.load pn.parent).left then .left else .right
      let (root, h, z) ← fixUpSide side NIL root h z
      fixUp NIL fuel root h z
    else
      let h ← write h root (·.setColor .black)
      pure (root, h)

@[simp] theorem value_write (h : Heap RbtNode) (p : Addr) (f : RbtNode → RbtNode) :
    (write h p f).value = h.update p f := by
  simp [write]

@[simp] theorem value_adopt (NIL : Addr) (h : Heap RbtNode) (child p : Addr) :
    (adopt NIL h child p).value = TradeServer.adopt NIL h child p := by
  unfold adopt TradeServer.adopt
  split_ifs <;> simp

@[simp] theorem value_replaceChild (NIL root : Addr) (h : Heap RbtNode) (parent x y : Addr) :
    (replaceChild NIL root h parent x y).value =
      TradeServer.replaceChild NIL root h parent x y := by
  unfold replaceChild TradeServer.replaceChild
  split_ifs <;> simp

@[simp] theorem value_relink (d : Dir) (NIL root : Addr) (h : Heap RbtNode) (x : Addr) :
    (relink d NIL root h x).value = TradeServer.rotate d NIL root h x := by
  simp [relink, TradeServer.rotate]

@[simp] theorem value_rotate (d : Dir) (NIL root : Addr) (h : Heap RbtNode) (x : Addr) :
    (rotate d NIL root h x).value = TradeServer.rotate d NIL root h x := by
  simp [rotate]

@[simp] theorem value_fixUpOuter (d : Dir) (NIL root : Addr) (h : Heap RbtNode) (z : Addr) :
    (fixUpOuter d NIL root h z).value = TradeServer.fixUpOuter d NIL root h z := by
  simp [fixUpOuter, TradeServer.fixUpOuter, rotateTo_eq]

@[simp] theorem value_fixUpRotate (d : Dir) (NIL root : Addr) (h : Heap RbtNode) (z : Addr) :
    (fixUpRotate d NIL root h z).value = TradeServer.fixUpRotate d NIL root h z := by
  simp [fixUpRotate, TradeServer.fixUpRotate, rotateTo_eq, apply_ite value]

@[simp] theorem value_fixUpSide (d : Dir) (NIL root : Addr) (h : Heap RbtNode) (z : Addr) :
    (fixUpSide d NIL root h z).value = TradeServer.fixUpSide d NIL root h z := by
  simp [fixUpSide, TradeServer.fixUpSide, apply_ite value]

@[simp] theorem value_fixUp (NIL : Addr) (fuel : Nat) (root : Addr) (h : Heap RbtNode)
    (z : Addr) : (fixUp NIL fuel root h z).value = TradeServer.fixUp NIL fuel root h z := by
  induction fuel generalizing root h z with
  | zero => simp [fixUp, TradeServer.fixUp]
  | succ fuel ih =>
    simp [fixUp, TradeServer.fixUp, ih, apply_ite value]

end Traced

/-- At a turn the parent and the grandparent of `z` are nodes. Only nodes are written. At a
rotation the child that rises is a node, and the nodes have the same order before and after
it, with every parent link the inverse of a child link. -/
def FixEvent.Safe (NIL : Addr) : FixEvent → Prop
  | .turn h z =>
    ∃ zn pn gn, h.load z = some zn ∧ zn.parent ≠ NIL ∧ h.load zn.parent = some pn ∧
      pn.parent ≠ NIL ∧ h.load pn.parent = some gn
  | .write p => p ≠ NIL
  | .rotation d x root h root' h' =>
    (∃ xn yn, x ≠ NIL ∧ h.load x = some xn ∧ xn.child d.flip ≠ NIL ∧
      h.load (xn.child d.flip) = some yn) ∧
    ∃ t t', TreeAt h NIL root t ∧ TreeAt h' NIL root' t' ∧ t'.toList = t.toList

section Safe

open Recorded

variable {h : Heap RbtNode} {NIL root p x y parent child : Addr} {d : Dir}
  {f : RbtNode → RbtNode}

theorem records_write (hp : p ≠ NIL) : Records (FixEvent.Safe NIL) (Traced.write h p f) := by
  have hsafe : (FixEvent.write p).Safe NIL := hp
  exact (records_emit hsafe).bind fun _ _ => records_lift _

theorem records_adopt : Records (FixEvent.Safe NIL) (Traced.adopt NIL h child p) := by
  unfold Traced.adopt
  split_ifs with hc
  · exact records_write hc
  · exact records_pure _

theorem records_replaceChild :
    Records (FixEvent.Safe NIL) (Traced.replaceChild NIL root h parent x y) := by
  unfold Traced.replaceChild
  split_ifs with hp
  · exact records_pure _
  · exact (records_lift _).bind fun _ _ => (records_write hp).bind fun _ _ => records_pure _

/-- A rotation writes its two nodes, and the two others only if they are not `NIL`. -/
theorem records_relink {xn : RbtNode} (hx : x ≠ NIL) (hxn : h.load x = some xn)
    (hy : xn.child d.flip ≠ NIL) :
    Records (FixEvent.Safe NIL) (Traced.relink d NIL root h x) := by
  refine .lift_bind hxn ((records_lift _).bind fun yn _ => ?_)
  refine (records_write hx).bind fun _ _ => records_adopt.bind fun _ _ => ?_
  refine (records_lift _).bind fun _ _ => (records_write hy).bind fun _ _ => ?_
  refine records_replaceChild.bind fun _ _ => (records_write hy).bind fun _ _ => ?_
  exact (records_write hx).bind fun _ _ => records_pure _

variable {fs : List BookFrame} {g : BookFrame} {q : BookFrame} {t : BookTree}

theorem TreeAt.records_rotate {cx cy : Color} {A B C : BookTree} {kx ky : Nat} {vx vy : Ref}
    (H : TreeAt h NIL root (plug fs (.mk d cx C kx vx (.mk d cy B ky vy A)))) :
    Records (FixEvent.Safe NIL) (Traced.rotate d NIL root h vx.addr) := by
  obtain ⟨h', root', hrun, H', -⟩ := H.rotate
  obtain ⟨hx, -, hyT⟩ := stored_mk.mp (stored_plug.mp H.stored).1
  obtain ⟨hy, -⟩ := stored_mk.mp hyT
  have hxn : vx.addr ≠ NIL := Ne.symm H.apart.nil.1
  have hyn : vy.addr ≠ NIL := Ne.symm H.apart.nil.2.1
  rw [rootAddr_mk] at hx
  have hchild := cell_child_flip d kx vx cx (up NIL fs) (rootAddr NIL C) vy.addr
  have hsafe : (FixEvent.rotation d vx.addr root h root' h').Safe NIL := by
    refine ⟨⟨_, _, hxn, hx, by rwa [hchild], by rw [hchild]; exact hy⟩, _, _, H, H', ?_⟩
    exact toList_plug_congr fs (by cases d <;> simp [ColorTree.mk])
  refine (records_relink hxn hx (by rwa [hchild])).bind_of_value (by simpa using hrun) ?_
  exact (records_emit hsafe).bind fun _ _ => records_pure _

theorem TreeAt.records_fixUpOuter (H : TreeAt h NIL root (plug (q :: g :: fs) t)) (ht : t ≠ .nil)
    (hd : q.dir = g.dir) :
    Records (FixEvent.Safe NIL) (Traced.fixUpOuter g.dir NIL root h (rootAddr NIL t)) := by
  have H' : TreeAt h NIL root (plug (g :: fs) (q.plug t)) := H
  obtain ⟨n, hn, hparent⟩ := H.load_below ht
  obtain ⟨h₁, h₂, pn, hu₁, hpn, hgrand, hu₂, H₂, -⟩ := H.recolorOuter hd
  refine .lift_bind hn ?_
  simp only [hparent]
  refine (records_write H.frame_ne_nil).bind_of_value (by simpa using hu₁) (.lift_bind hpn ?_)
  simp only [hgrand]
  refine (records_write H'.frame_ne_nil).bind_of_value (by simpa using hu₂) ?_
  exact H₂.records_rotate

/-- A black uncle: one rotation, or two. -/
theorem TreeAt.records_fixUpRotate (H : TreeAt h NIL root (plug (q :: g :: fs) t))
    (ht : t.rootColor = .red) (hq : q.color = .red) :
    Records (FixEvent.Safe NIL) (Traced.fixUpRotate g.dir NIL root h (rootAddr NIL t)) := by
  have hne := ne_nil_of_red ht
  obtain ⟨n, hn, hparent⟩ := H.load_below hne
  refine .lift_bind hn ?_
  simp only [hparent]
  refine .lift_bind H.load_frame ?_
  by_cases hd : q.dir = g.dir
  · have hin : rootAddr NIL t ≠ rootAddr NIL q.sib := H.sib_ne hne
    simp only [hd, cell_child_flip, if_neg hin]
    exact (H.records_fixUpOuter hne hd).bind fun _ _ => records_pure _
  · have hqd : q.dir = g.dir.flip := Dir.eq_flip_of_ne hd
    obtain ⟨a, k, v, b, rfl⟩ := exists_mk_of_red g.dir ht
    have hshape : q.plug (.mk g.dir .red a k v b) =
        .mk g.dir .red q.sib q.key q.val (.mk g.dir .red a k v b) := by
      simp [Frame.plug, hqd, hq, ColorTree.mk_flip]
    obtain ⟨h₁, root₁, hrun₁, H₁, -⟩ := H.rotateInner hq hqd
    have hs : ColorTree.mk g.dir .red q.sib q.key q.val a ≠ .nil := mk_ne_nil _ _ _ _ _ _
    have houter := H₁.records_fixUpOuter hs rfl
    rw [rootAddr_mk] at houter
    rw [plug_cons q, hshape] at H
    simp only [← hqd, cell_child, if_true]
    refine H.records_rotate.bind_of_value (by simpa using hrun₁) ?_
    exact houter.bind fun _ _ => records_pure _

/-- A turn of the loop: three recolorings, or the rotations. -/
theorem TreeAt.records_fixUpSide (H : TreeAt h NIL root (plug (q :: g :: fs) t))
    (ht : t.rootColor = .red) (hq : q.color = .red) (hN : NilBlack h NIL) :
    Records (FixEvent.Safe NIL) (Traced.fixUpSide g.dir NIL root h (rootAddr NIL t)) := by
  have hne := ne_nil_of_red ht
  have H' : TreeAt h NIL root (plug (g :: fs) (q.plug t)) := H
  have hU : TreeAt h NIL root
      (plug (⟨g.dir.flip, g.color, g.key, g.val, q.plug t⟩ :: fs) g.sib) := by
    rw [← plug_sib]
    exact H
  obtain ⟨n, hn, hparent⟩ := H.load_below hne
  obtain ⟨un, hun, huc⟩ := load_color hU hN
  refine .lift_bind hn ?_
  simp only [hparent]
  refine .lift_bind H.load_frame ?_
  simp only [cell_parent, up_cons]
  refine .lift_bind H'.load_frame ?_
  simp only [cell_child_flip]
  refine .lift_bind hun ?_
  rw [huc]
  split_ifs with hu
  · have hgs := ne_nil_of_red hu
    refine (records_write H.frame_ne_nil).bind fun _ _ => ?_
    refine (records_write (hU.rootAddr_ne_nil hgs)).bind fun _ _ => ?_
    exact (records_write H'.frame_ne_nil).bind fun _ _ => records_pure _
  · exact H.records_fixUpRotate ht hq

/-- A turn begins below a red node, which is not the root. -/
theorem TreeAt.safe_turn (H : TreeAt h NIL root (plug (q :: g :: fs) t)) (ht : t ≠ .nil) :
    (FixEvent.turn h (rootAddr NIL t)).Safe NIL := by
  have H' : TreeAt h NIL root (plug (g :: fs) (q.plug t)) := H
  obtain ⟨n, hn, hparent⟩ := H.load_below ht
  refine ⟨n, _, _, hn, ?_, by rw [hparent]; exact H.load_frame, ?_, by simpa using H'.load_frame⟩
  · rw [hparent]
    exact H.frame_ne_nil
  · rw [cell_parent]
    exact H'.frame_ne_nil

/-- Below a black node only the root is written. -/
theorem TreeAt.records_fixUp_stop {pn : RbtNode} (H : TreeAt h NIL root (plug fs t))
    (ht : t ≠ .nil) (hp : h.load (up NIL fs) = some pn) (hc : pn.color = .black) (fuel : Nat) :
    Records (FixEvent.Safe NIL) (Traced.fixUp NIL fuel root h (rootAddr NIL t)) := by
  have hroot : root ≠ NIL := by
    rw [H.root]
    exact TreeAt.rootAddr_ne_nil (show TreeAt h NIL root (plug [] (plug fs t)) from H)
      (plug_ne_nil_of_ne fs ht)
  cases fuel with
  | zero => exact records_lift _
  | succ fuel =>
    obtain ⟨n, hn, hparent, -⟩ := H.load_root ht
    refine .lift_bind hn ?_
    simp only [hparent]
    refine .lift_bind hp ?_
    simp only [hc, reduceCtorEq, if_false]
    exact (records_write hroot).bind fun _ _ => records_pure _

/-- One turn of the loop, and then the turns from the position that it leaves. -/
theorem TreeAt.records_turn {fuel : Nat} {r : Addr × Heap RbtNode × Addr}
    (H : TreeAt h NIL root (plug (q :: g :: fs) t)) (ht : t.rootColor = .red)
    (hq : q.color = .red) (hN : NilBlack h NIL)
    (hside : TradeServer.fixUpSide g.dir NIL root h (rootAddr NIL t) = some r)
    (hrest : Records (FixEvent.Safe NIL) (Traced.fixUp NIL fuel r.1 r.2.1 r.2.2)) :
    Records (FixEvent.Safe NIL) (Traced.fixUp NIL (fuel + 1) root h (rootAddr NIL t)) := by
  have hne := ne_nil_of_red ht
  have H' : TreeAt h NIL root (plug (g :: fs) (q.plug t)) := H
  obtain ⟨n, hn, hparent⟩ := H.load_below hne
  have hgl := H'.load_frame
  have hdir := H'.side_eq (plug_ne_nil q t) (k := g.key) (v := g.val) (c := g.color)
    (p := up NIL fs)
  rw [rootAddr_framePlug] at hgl hdir
  refine .lift_bind hn ?_
  simp only [hparent]
  refine .lift_bind H.load_frame ?_
  simp only [cell_color, hq, if_true, cell_parent, up_cons]
  refine (records_emit (H.safe_turn hne)).bind fun _ _ => .lift_bind hgl ?_
  rw [hdir]
  exact (H.records_fixUpSide ht hq hN).bind_of_value (by simpa using hside) hrest

/-- All that the loop does on a tree in memory is safe. -/
theorem TreeAt.records_fixUp {fuel : Nat} (H : TreeAt h NIL root (plug fs t))
    (ht : t.rootColor = .red) (hN : NilBlack h NIL) (htop : TopBlack fs) :
    Records (FixEvent.Safe NIL) (Traced.fixUp NIL fuel root h (rootAddr NIL t)) := by
  have hne := ne_nil_of_red ht
  induction fs, t using repair.induct generalizing h root fuel with
  | case1 p g fs t hp =>
    exact H.records_fixUp_stop hne H.load_frame (by simpa using hp) fuel
  | case2 p g fs t hp hu ih =>
    have hpr := Color.eq_red_of_ne hp
    obtain ⟨h₃, hside, H₃, c₃⟩ := H.fixUpSide_red ht hN hu
    cases fuel with
    | zero => exact records_lift _
    | succ fuel =>
      exact H.records_turn ht hpr hN hside (ih H₃ (by simp [Library.recolored, Frame.plug])
        (hN.confined c₃ H.nil) htop.tail.tail (plug_ne_nil _ _))
  | case3 p g fs t hp hu =>
    have hpr := Color.eq_red_of_ne hp
    obtain ⟨h₁, root₁, f, s, hside, hsne, hf, -, H₁, -⟩ := H.fixUpSide_black ht hpr hN hu
    cases fuel with
    | zero => exact records_lift _
    | succ fuel =>
      refine H.records_turn ht hpr hN hside ?_
      exact H₁.records_fixUp_stop hsne H₁.load_frame (by simpa using hf) fuel
  | case4 fs t hfs =>
    obtain ⟨pn, hpn, hpc⟩ := H.load_top hN htop hfs
    exact H.records_fixUp_stop hne hpn hpc fuel

/-- Every node of a tree is at a position. -/
theorem exists_position {T : BookTree} {z : Addr} (NIL : Addr) (hz : z ∈ addrs T)
    (fs : List BookFrame) :
    ∃ gs t, plug fs T = plug gs t ∧ t ≠ .nil ∧ rootAddr NIL t = z := by
  induction T generalizing fs with
  | nil => simp at hz
  | node c l k v r ihl ihr =>
    obtain hz | rfl | hz := mem_addrs_node.mp hz
    · exact ihl hz (⟨.left, c, k, v, r⟩ :: fs)
    · exact ⟨fs, _, rfl, by simp, rfl⟩
    · exact ihr hz (⟨.right, c, k, v, l⟩ :: fs)

/-- Nothing is above the root. -/
theorem TreeAt.eq_nil_of_root (H : TreeAt h NIL root (plug fs t)) (ht : t ≠ .nil)
    (hz : root = rootAddr NIL t) : fs = [] := by
  cases fs with
  | nil => rfl
  | cons f fs =>
    have hne := H.rootAddr_ne_nil ht
    have hroot : rootAddr NIL (plug (f :: fs) .nil) = rootAddr NIL t := by
      rw [← hz, H.root]
      exact rootAddr_plug_cons
    have hmem : rootAddr NIL t ∈ addrs (plug (f :: fs) .nil) := by
      rw [← hroot] at hne ⊢
      exact rootAddr_mem hne
    have hctx := (mem_addrs_plug.mp hmem).resolve_left List.not_mem_nil
    exact absurd hctx (List.disjoint_left.mp (nodup_addrs_plug.mp H.nodup).2.2 (rootAddr_mem hne))

end Safe

/-- Started at a red node of a tree whose root is black or that node, `fix_up` ends, all it
does on its way is safe, and `NIL` is as before. Neither the order of the keys nor the black
heights matter, and the red nodes may touch anywhere. -/
theorem fixUp_safe {h : Heap RbtNode} {NIL root z : Addr} {T : BookTree} {zn : RbtNode}
    {fuel : Nat} (H : TreeAt h NIL root T) (hN : NilBlack h NIL) (hz : z ∈ addrs T)
    (hzn : h.load z = some zn) (hred : zn.color = .red)
    (htop : T.rootColor = .black ∨ root = z) (hfuel : T.size < fuel) :
    ∃ root' h' log, fixUp NIL fuel root h z = some (root', h') ∧
      (Traced.fixUp NIL fuel root h z).run = some ((root', h'), log) ∧
      (∀ e ∈ log, e.Safe NIL) ∧ h'.load NIL = h.load NIL := by
  obtain ⟨fs, t, hT, hne, rfl⟩ := exists_position NIL hz []
  obtain rfl : T = plug fs t := hT
  obtain ⟨n, hn, -, hc⟩ := H.load_root hne
  obtain rfl : zn = n := Option.some.inj (hzn.symm.trans hn)
  have ht : t.rootColor = .red := by rw [← hc, hred]
  have htop : TopBlack fs := by
    obtain hroot | hroot := htop
    · exact topBlack_of_rootColor hroot
    · rw [H.eq_nil_of_root hne hroot]
      simp [TopBlack]
  have hlen : fs.length + 2 ≤ fuel := by
    have hsize := length_add_size_le fs t
    have hpos : 0 < t.size := by
      cases t with
      | nil => exact absurd rfl hne
      | node c l k v r => simp
    omega
  obtain ⟨h', root', hrun, -, c⟩ := H.fixUp ht hN htop hlen
  have hvalue : (Traced.fixUp NIL fuel root h (rootAddr NIL t)).value = some (root', h') := by
    rw [Traced.value_fixUp, hrun]
  obtain ⟨⟨r, log⟩, htraced, rfl⟩ := Option.map_eq_some_iff.mp hvalue
  exact ⟨root', h', log, hrun, htraced, H.records_fixUp ht hN htop _ log htraced, c.load H.nil⟩

/-- The keys 5, 3 and 4, the last one just linked as the inner grandchild: two rotations. -/
theorem fixUp_safe_inner_grandchild :
    ∃ root' h' log,
      fixUp 1 4 2 ((((Heap.empty.alloc ⟨0, NULL, .black, NULL, NULL, NULL⟩).alloc
          ⟨5, 7, .black, 1, 3, 1⟩).alloc ⟨3, 8, .red, 2, 1, 4⟩).alloc ⟨4, 9, .red, 3, 1, 1⟩) 4 =
        some (root', h') ∧
      (Traced.fixUp 1 4 2 ((((Heap.empty.alloc ⟨0, NULL, .black, NULL, NULL, NULL⟩).alloc
          ⟨5, 7, .black, 1, 3, 1⟩).alloc ⟨3, 8, .red, 2, 1, 4⟩).alloc ⟨4, 9, .red, 3, 1, 1⟩)
          4).run = some ((root', h'), log) ∧
      (∀ e ∈ log, e.Safe 1) ∧ h'.load 1 = some ⟨0, NULL, .black, NULL, NULL, NULL⟩ :=
  @fixUp_safe _ 1 2 4
    (.node .black (.node .red .nil 3 ⟨3, 8⟩ (.node .red .nil 4 ⟨4, 9⟩ .nil)) 5 ⟨2, 7⟩ .nil) _ 4
    ⟨rfl, ⟨rfl, ⟨rfl, trivial, rfl, trivial, trivial⟩, trivial⟩, by decide, by decide⟩
    ⟨0, rfl⟩ (by decide) rfl rfl (.inl rfl) (by decide)

end TradeServer
