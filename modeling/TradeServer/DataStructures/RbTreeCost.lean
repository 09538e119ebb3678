import TradeServer.DataStructures.RbTreeRuns
import TradeServer.DataStructures.RbTreeTrace

/-!
# What insertions and visits cost

`rbt_insert` with a record of the keys it compares and of all that `fix_up` does, and
`rbt_visit_nodes_in_range` with a record of its calls. The balance of the tree bounds the length
of both records, and an insertion rotates twice at most. `rbt_new_node` and `dl_list_insert`
have no loop.
-/

namespace TradeServer

open Library

/-- What an insertion does besides code without a loop. -/
inductive InsertEvent where
  /-- A turn of the search: the key is compared with that of the node. -/
  | compare (p : Addr)
  | fix (e : FixEvent)

def FixEvent.isRotation : FixEvent → Bool
  | .rotation .. => true
  | _ => false

def InsertEvent.isRotation : InsertEvent → Bool
  | .compare _ => false
  | .fix e => e.isRotation

namespace Traced

open Recorded

def searchFor (h : Heap RbtNode) (NIL : Addr) (key : Nat) :
    Nat → Addr → Addr → Recorded InsertEvent Addr
  | 0, _, _ => liftM (none : Option Addr)
  | fuel + 1, search, current =>
    if current = NIL then pure search
    else do
      let n ← h.load current
      emit (.compare current)
      if key = n.key then pure current
      else if key < n.key then searchFor h NIL key fuel current n.left
      else searchFor h NIL key fuel current n.right

def rbtInsert {σ : Type} (m : RbHeap) (root : Addr) (key : Nat) (data : Addr)
    (dataCallback : Option (DataCallback σ)) (s : σ) :
    Recorded InsertEvent (RbHeap × Addr × σ) := do
  let search ← searchFor m.nodes m.NIL key m.nodes.next m.NIL root
  if search = m.NIL then
    let (m, newNode, s) ← rbtNewNode m key data dataCallback s
    let h ← m.nodes.update newNode (·.setParent search)
    let (root, h) ← (fixUp m.NIL h.next newNode h newNode).relabel .fix
    pure ({ m with nodes := h }, root, s)
  else
    let sn ← m.nodes.load search
    if key = sn.key then
      let (dl, s) ← (liftM (dlListInsert m.dl sn.ordersList data dataCallback s) :
        Recorded InsertEvent (DlHeap × σ))
      pure ({ m with dl := dl }, root, s)
    else
      let (m, newNode, s) ← rbtNewNode m key data dataCallback s
      let side := if key < sn.key then .left else .right
      let h ← m.nodes.update search (·.setChild side newNode)
      let h ← h.update newNode (·.setParent search)
      let (root, h) ← (fixUp m.NIL h.next root h newNode).relabel .fix
      pure ({ m with nodes := h }, root, s)

/-- Each call records its node. -/
def rbtVisitNodesInRange {σ : Type} (h : Heap RbtNode) (NIL : Addr) (lowKey highKey : Nat)
    (visitor : Addr → σ → Option σ) : Nat → Addr → σ → Recorded Addr σ
  | 0, _, _ => liftM (none : Option σ)
  | fuel + 1, node, s => do
    emit node
    if node = NULL ∨ node = NIL then pure s
    else do
      let n ← h.load node
      let s ←
        (if lowKey < n.key then rbtVisitNodesInRange h NIL lowKey highKey visitor fuel n.left s
        else pure s)
      let s ← (if lowKey ≤ n.key ∧ n.key ≤ highKey then liftM (visitor n.ordersList s) else pure s)
      if n.key < highKey then rbtVisitNodesInRange h NIL lowKey highKey visitor fuel n.right s
      else pure s

@[simp] theorem value_searchFor (h : Heap RbtNode) (NIL : Addr) (key fuel : Nat)
    (search current : Addr) :
    (searchFor h NIL key fuel search current).value =
      TradeServer.searchFor h NIL key fuel search current := by
  induction fuel generalizing search current with
  | zero => simp [searchFor, TradeServer.searchFor]
  | succ fuel ih => simp [searchFor, TradeServer.searchFor, ih, apply_ite value]

theorem value_rbtInsert {σ : Type} (m : RbHeap) (root : Addr) (key : Nat) (data : Addr)
    (dataCallback : Option (DataCallback σ)) (s : σ) :
    (rbtInsert m root key data dataCallback s).value =
      TradeServer.rbtInsert m root key data dataCallback s := by
  simp [rbtInsert, TradeServer.rbtInsert, apply_ite value]

theorem value_rbtVisitNodesInRange {σ : Type} (h : Heap RbtNode) (NIL : Addr)
    (lowKey highKey : Nat) (visitor : Addr → σ → Option σ) (fuel : Nat) (node : Addr) (s : σ) :
    (rbtVisitNodesInRange h NIL lowKey highKey visitor fuel node s).value =
      TradeServer.rbtVisitNodesInRange h NIL lowKey highKey visitor fuel node s := by
  induction fuel generalizing node s with
  | zero => simp [rbtVisitNodesInRange, TradeServer.rbtVisitNodesInRange]
  | succ fuel ih =>
    simp only [rbtVisitNodesInRange, TradeServer.rbtVisitNodesInRange, ih, value_bind, value_emit,
      value_lift, value_pure, apply_ite value, Option.bind_eq_bind, Option.bind_some]
    split_ifs
    · rfl
    · refine Option.bind_congr fun n _ => ?_
      split_ifs <;> simp

end Traced

/-- The turns of the loop weigh `turn` at most, and so on. -/
structure WeighsAtMost (w : FixEvent → Nat) (turn write rotation : Nat) : Prop where
  turn : ∀ h z, w (.turn h z) ≤ turn
  write : ∀ p, w (.write p) ≤ write
  rotation : ∀ d x root h root' h', w (.rotation d x root h root' h') ≤ rotation

section FixUp

open Recorded

variable {w : FixEvent → Nat} {a b c : Nat} {h : Heap RbtNode} {NIL root : Addr}

theorem WeighsAtMost.costs_write (W : WeighsAtMost w a b c) (p : Addr) (f : RbtNode → RbtNode) :
    Costs w (Traced.write h p f) b :=
  ((costs_emit _).bind fun _ _ => costs_lift _).mono (W.write p)

theorem WeighsAtMost.costs_adopt (W : WeighsAtMost w a b c) (child p : Addr) :
    Costs w (Traced.adopt NIL h child p) b := by
  unfold Traced.adopt
  split_ifs
  · exact W.costs_write _ _
  · exact (costs_pure _).mono (Nat.zero_le b)

theorem WeighsAtMost.costs_replaceChild (W : WeighsAtMost w a b c) (parent x y : Addr) :
    Costs w (Traced.replaceChild NIL root h parent x y) b := by
  unfold Traced.replaceChild
  split_ifs
  · exact (costs_pure _).mono (Nat.zero_le b)
  · exact .lift_bind fun _ _ => (W.costs_write _ _).bind fun _ _ => costs_pure _

/-- A rotation makes six writes. -/
theorem WeighsAtMost.costs_rotate (W : WeighsAtMost w a b c) (d : Dir) (x : Addr) :
    Costs w (Traced.rotate d NIL root h x) (6 * b + c) := by
  have hlink : Costs w (Traced.relink d NIL root h x) (6 * b) := by
    refine Costs.mono (.lift_bind fun xn _ => .lift_bind fun yn _ =>
      (W.costs_write _ _).bind fun _ _ => (W.costs_adopt _ _).bind fun _ _ =>
      .lift_bind fun _ _ => (W.costs_write _ _).bind fun _ _ =>
      (W.costs_replaceChild _ _ _).bind fun _ _ => (W.costs_write _ _).bind fun _ _ =>
      (W.costs_write _ _).bind fun _ _ => costs_pure _) ?_
    omega
  refine hlink.bind fun r _ => ((costs_emit _).bind fun _ _ => costs_pure _).mono ?_
  exact W.rotation d x root h r.1 r.2

theorem WeighsAtMost.costs_fixUpOuter (W : WeighsAtMost w a b c) (d : Dir) (z : Addr) :
    Costs w (Traced.fixUpOuter d NIL root h z) (8 * b + c) := by
  refine Costs.mono (.lift_bind fun n _ => (W.costs_write _ _).bind fun _ _ =>
    .lift_bind fun _ _ => (W.costs_write _ _).bind fun _ _ => W.costs_rotate _ _) ?_
  omega

/-- A black uncle takes two rotations at most. -/
theorem WeighsAtMost.costs_fixUpRotate (W : WeighsAtMost w a b c) (d : Dir) (z : Addr) :
    Costs w (Traced.fixUpRotate d NIL root h z) (14 * b + 2 * c) := by
  refine .lift_bind fun n _ => .lift_bind fun pn _ => ?_
  split_ifs
  · refine Costs.mono ((W.costs_rotate _ _).bind fun _ _ => (W.costs_fixUpOuter _ _).bind
      fun _ _ => costs_pure _) ?_
    omega
  · refine Costs.mono ((W.costs_fixUpOuter _ _).bind fun _ _ => costs_pure _) ?_
    omega

variable {fs : List BookFrame} {p g : BookFrame} {t : BookTree}

/-- A red uncle takes three writes. -/
theorem WeighsAtMost.costs_fixUpSide (W : WeighsAtMost w a b c)
    (H : TreeAt h NIL root (plug (p :: g :: fs) t)) (ht : t ≠ .nil) (hN : NilBlack h NIL) :
    Costs w (Traced.fixUpSide g.dir NIL root h (rootAddr NIL t))
      (if g.sib.rootColor = .red then 3 * b else 14 * b + 2 * c) := by
  have H' : TreeAt h NIL root (plug (g :: fs) (p.plug t)) := H
  have hU : TreeAt h NIL root
      (plug (⟨g.dir.flip, g.color, g.key, g.val, p.plug t⟩ :: fs) g.sib) := by
    rw [← plug_sib]
    exact H
  obtain ⟨n, hn, hparent⟩ := H.load_below ht
  obtain ⟨un, hun, huc⟩ := load_color hU hN
  refine .lift_bind_of_eq hn ?_
  simp only [hparent]
  refine .lift_bind_of_eq H.load_frame ?_
  simp only [cell_parent, up_cons]
  refine .lift_bind_of_eq H'.load_frame ?_
  simp only [cell_child_flip]
  refine .lift_bind_of_eq hun ?_
  rw [huc]
  split_ifs
  · refine Costs.mono ((W.costs_write _ _).bind fun _ _ => (W.costs_write _ _).bind fun _ _ =>
      (W.costs_write _ _).bind fun _ _ => costs_pure _) ?_
    omega
  · exact W.costs_fixUpRotate _ _

/-- Below a black node only the root is written. -/
theorem WeighsAtMost.costs_fixUp_stop (W : WeighsAtMost w a b c) {pn : RbtNode}
    (H : TreeAt h NIL root (plug fs t)) (ht : t ≠ .nil) (hp : h.load (up NIL fs) = some pn)
    (hc : pn.color = .black) (fuel : Nat) :
    Costs w (Traced.fixUp NIL fuel root h (rootAddr NIL t)) b := by
  cases fuel with
  | zero => exact (costs_lift _).mono (Nat.zero_le b)
  | succ fuel =>
    obtain ⟨n, hn, hparent, -⟩ := H.load_root ht
    refine .lift_bind_of_eq hn ?_
    simp only [hparent]
    refine .lift_bind_of_eq hp ?_
    simp only [hc, reduceCtorEq, if_false]
    exact (W.costs_write _ _).bind fun _ _ => costs_pure _

/-- One turn of the loop, and then the turns from the position that it leaves. -/
theorem WeighsAtMost.costs_turn (W : WeighsAtMost w a b c) {fuel n : Nat}
    {r : Addr × Heap RbtNode × Addr} (H : TreeAt h NIL root (plug (p :: g :: fs) t))
    (ht : t ≠ .nil) (hp : p.color = .red) (hN : NilBlack h NIL)
    (hside : fixUpSide g.dir NIL root h (rootAddr NIL t) = some r)
    (hrest : Costs w (Traced.fixUp NIL fuel r.1 r.2.1 r.2.2) n) :
    Costs w (Traced.fixUp NIL (fuel + 1) root h (rootAddr NIL t))
      (a + ((if g.sib.rootColor = .red then 3 * b else 14 * b + 2 * c) + n)) := by
  have H' : TreeAt h NIL root (plug (g :: fs) (p.plug t)) := H
  obtain ⟨n, hn, hparent⟩ := H.load_below ht
  have hgl := H'.load_frame
  have hdir := H'.side_eq (plug_ne_nil p t) (k := g.key) (v := g.val) (c := g.color)
    (p := up NIL fs)
  rw [rootAddr_framePlug] at hgl hdir
  refine .lift_bind_of_eq hn ?_
  simp only [hparent]
  refine .lift_bind_of_eq H.load_frame ?_
  simp only [cell_color, hp, if_true, cell_parent, up_cons]
  refine ((costs_emit _).mono (W.turn _ _)).bind fun _ _ => .lift_bind_of_eq hgl ?_
  rw [hdir]
  exact (W.costs_fixUpSide H ht hN).bind_of_value (by simpa using hside) hrest

/-- A turn with a red uncle leaves two frames fewer, one with a black uncle is the last. -/
theorem WeighsAtMost.costs_fixUp (W : WeighsAtMost w a b c) {fuel : Nat}
    (H : TreeAt h NIL root (plug fs t)) (ht : t.rootColor = .red) (hN : NilBlack h NIL)
    (htop : TopBlack fs) :
    Costs w (Traced.fixUp NIL fuel root h (rootAddr NIL t))
      (fs.length / 2 * (a + 3 * b) + (12 * b + 2 * c)) := by
  have hne := ne_nil_of_red ht
  induction fs, t using repair.induct generalizing h root fuel with
  | case1 p g fs t hp =>
    exact (W.costs_fixUp_stop H hne H.load_frame (by simpa using hp) fuel).mono (by omega)
  | case2 p g fs t hp hu ih =>
    have hpr := Color.eq_red_of_ne hp
    obtain ⟨h₃, hside, H₃, c₃⟩ := H.fixUpSide_red ht hN hu
    cases fuel with
    | zero => exact (costs_lift _).mono (Nat.zero_le _)
    | succ fuel =>
      have hrest := @ih h₃ root fuel H₃ (by simp [Library.recolored, Frame.plug])
        (hN.confined c₃ H.nil) htop.tail.tail (plug_ne_nil _ _)
      refine (W.costs_turn H hne hpr hN hside hrest).mono ?_
      have : (fs.length + 1 + 1) / 2 = fs.length / 2 + 1 := by omega
      rw [if_pos hu, List.length_cons, List.length_cons, this, Nat.add_mul]
      omega
  | case3 p g fs t hp hu =>
    have hpr := Color.eq_red_of_ne hp
    obtain ⟨h₁, root₁, f, s, hside, hsne, hf, -, H₁, -⟩ := H.fixUpSide_black ht hpr hN hu
    cases fuel with
    | zero => exact (costs_lift _).mono (Nat.zero_le _)
    | succ fuel =>
      have hrest := W.costs_fixUp_stop H₁ hsne H₁.load_frame (by simpa using hf) fuel
      refine (W.costs_turn H hne hpr hN hside hrest).mono ?_
      have : (fs.length + 1 + 1) / 2 = fs.length / 2 + 1 := by omega
      rw [if_neg hu, List.length_cons, List.length_cons, this, Nat.add_mul]
      omega
  | case4 fs t hfs =>
    obtain ⟨pn, hpn, hpc⟩ := H.load_top hN htop hfs
    exact (W.costs_fixUp_stop H hne hpn hpc fuel).mono (by omega)

end FixUp

/-! ## Insertions -/

section Insert

open Recorded

variable {w : InsertEvent → Nat} {k a b c : Nat} {NIL root : Addr}

/-- The search compares the key once on each level. -/
theorem costs_searchFor {h : Heap RbtNode} {fs : List BookFrame} {t : BookTree}
    (hk : ∀ p, w (.compare p) ≤ k) (H : TreeAt h NIL root (plug fs t)) (key fuel : Nat) :
    Costs w (Traced.searchFor h NIL key fuel (up NIL fs) (rootAddr NIL t)) (t.height * k) := by
  induction fuel generalizing fs t with
  | zero => exact (costs_lift _).mono (Nat.zero_le _)
  | succ fuel ih =>
    cases t with
    | nil =>
      simp only [Traced.searchFor, rootAddr_nil, if_true]
      exact (costs_pure _).mono (Nat.zero_le _)
    | node col l x v r =>
      obtain ⟨hv, -, -⟩ := (stored_plug.mp H.stored).1
      have hne : v.addr ≠ NIL := H.rootAddr_ne_nil (by simp)
      have hl : Costs w _ (l.height * k) := @ih (⟨.left, col, x, v, r⟩ :: fs) l H
      have hr : Costs w _ (r.height * k) := @ih (⟨.right, col, x, v, l⟩ :: fs) r H
      have hmax (n : Nat) (hn : n ≤ max l.height r.height) :
          n * k ≤ max l.height r.height * k := Nat.mul_le_mul_right k hn
      unfold Traced.searchFor
      rw [ColorTree.height, Nat.add_mul, Nat.one_mul, Nat.add_comm, rootAddr_node, if_neg hne]
      refine .lift_bind_of_eq hv (((costs_emit _).mono (hk _)).bind fun _ _ => ?_)
      dsimp only
      split_ifs with h1 h2
      · exact (costs_pure _).mono (Nat.zero_le _)
      · exact hl.mono (hmax _ (le_max_left _ _))
      · exact hr.mono (hmax _ (le_max_right _ _))

/-- A new node is red and has no neighbours yet. -/
theorem rbtNewNode_nodes {σ : Type} {m : RbHeap} {key data : Nat}
    {dataCallback : Option (DataCallback σ)} {s : σ} {r : RbHeap × Addr × σ}
    (h : rbtNewNode m key data dataCallback s = some r) :
    ∃ list, r.1.NIL = m.NIL ∧ r.2.1 = m.nodes.fresh ∧
      r.1.nodes = m.nodes.alloc ⟨key, list, .red, m.NIL, m.NIL, m.NIL⟩ := by
  simp only [rbtNewNode, Option.bind_eq_bind, Option.bind_eq_some_iff, Option.some.injEq] at h
  obtain ⟨r', -, rfl⟩ := h
  exact ⟨_, rfl, rfl, rfl⟩

/-- The bound on what an insertion into a tree costs. -/
def insertCost (k a b c : Nat) (T : BookTree) : Nat :=
  T.height * k + (T.height / 2 * (a + 3 * b) + (12 * b + 2 * c))

/-- `fix_up` after a new leaf was linked. -/
theorem WeighsAtMost.costs_newLeaf (W : WeighsAtMost (w ∘ .fix) a b c) {h : Heap RbtNode}
    {gs : List BookFrame} {key addr list : Nat} {fuel : Nat} {T : BookTree}
    (H : TreeAt h NIL root (plug gs (newLeaf key addr list))) (hN : NilBlack h NIL)
    (hT : plug gs .nil = T) (hrb : T.RedBlack) :
    Costs w ((Traced.fixUp NIL fuel root h addr).relabel .fix)
      (T.height / 2 * (a + 3 * b) + (12 * b + 2 * c)) := by
  subst hT
  have hlen := length_add_height_le gs (.nil : BookTree)
  refine ((W.costs_fixUp H rfl hN (topBlack_of_rootColor hrb.rootBlack)).mono ?_).relabel
  exact Nat.add_le_add_right (Nat.mul_le_mul_right _ (by omega)) _

theorem WeighsAtMost.costs_rbtInsert (W : WeighsAtMost (w ∘ .fix) a b c)
    (hk : ∀ p, w (.compare p) ≤ k) {m : RbHeap} {T : BookTree}
    (H : TreeAt m.nodes m.NIL root T) (hN : NilBlack m.nodes m.NIL) (hrb : T.RedBlack)
    (ho : Ordered T) (key : Nat) (data : Addr) {σ : Type} (dataCallback : Option (DataCallback σ))
    (s : σ) :
    Costs w (Traced.rbtInsert m root key data dataCallback s) (insertCost k a b c T) := by
  have H₀ : TreeAt m.nodes m.NIL root (plug [] T) := H
  have hsearch := searchFor_run H₀ H.size_lt key
  have hcost := costs_searchFor hk H₀ key m.nodes.next
  rw [show up m.NIL [] = m.NIL from rfl, ← H.root] at hsearch hcost
  have hplug := plug_descend key [] T
  have hbetween := between_descend (show Ordered (plug [] T) from ho)
    (⟨by simp [before], by simp [after]⟩ : Between key ([] : List BookFrame))
  obtain ⟨gs, s', hd⟩ : ∃ gs s', descend key [] T = (gs, s') := ⟨_, _, rfl⟩
  rw [hd] at hsearch hplug hbetween
  simp only [plug_nil] at hplug hbetween
  refine hcost.bind_of_value (by rw [Traced.value_searchFor, hsearch]) ?_
  have HT := H
  rw [← hplug] at HT
  obtain ⟨unset, hNIL⟩ := hN
  cases s' with
  | node col l x v r =>
    -- the key is there
    obtain rfl : x = key := key_of_descend hd
    obtain ⟨hv, -, -⟩ := (stored_plug.mp HT.stored).1
    rw [foundAddr, if_neg (show v.addr ≠ m.NIL from HT.rootAddr_ne_nil (by simp))]
    refine .lift_bind_of_eq hv ?_
    simp only [if_true]
    exact (Costs.lift_bind fun _ _ => costs_pure _).mono (Nat.zero_le _)
  | nil =>
    cases gs with
    | nil =>
      simp only [foundAddr, up, if_true]
      refine .lift_bind fun r hr => ?_
      obtain ⟨list, hn, hnew, hnodes⟩ := rbtNewNode_nodes hr
      obtain ⟨h₃, hu, H₃, -, hframe⟩ := HT.addRoot ⟨unset, hNIL⟩ key list
      simp only [hn, hnew, hnodes]
      refine .lift_bind_of_eq hu ?_
      have hN₃ : NilBlack h₃ m.NIL :=
        ⟨unset, (hframe _ (Heap.ne_fresh_of_load hNIL)).trans hNIL⟩
      have H₃' : TreeAt h₃ m.NIL m.nodes.fresh (plug [] (newLeaf key m.nodes.fresh list)) := H₃
      exact (W.costs_newLeaf H₃' hN₃ hplug hrb).bind fun _ _ => costs_pure _
    | cons f gs =>
      obtain ⟨hkey, hside⟩ := side_of_between hbetween
      rw [foundAddr, up_cons, if_neg HT.frame_ne_nil]
      refine .lift_bind_of_eq HT.load_frame ?_
      simp only [cell_key, if_neg hkey, hside]
      refine .lift_bind fun r hr => ?_
      obtain ⟨list, hn, hnew, hnodes⟩ := rbtNewNode_nodes hr
      obtain ⟨h₂, h₃, hu₁, hu₂, H₃, -, hframe⟩ := HT.addLeaf ⟨unset, hNIL⟩ key list
      simp only [hn, hnew, hnodes]
      refine .lift_bind_of_eq hu₁ (.lift_bind_of_eq hu₂ ?_)
      have hctx : m.NIL ∉ ctxAddrs (f :: gs) := fun h => HT.nil (mem_addrs_plug.mpr (.inr h))
      have hN₃ : NilBlack h₃ m.NIL :=
        ⟨unset, (hframe _ (Heap.ne_fresh_of_load hNIL) hctx).trans hNIL⟩
      exact (W.costs_newLeaf H₃ hN₃ hplug hrb).bind fun _ _ => costs_pure _

end Insert

/-- In every tree that insertions build, an insertion compares, writes and rotates a number of
times that the logarithm of the number of keys bounds, and it rotates twice at most. -/
theorem rbt_insert_cost (ops : List TreeOp) (hops : OnTrees 0 ops) :
    ∃ s, treeRun ops = some s ∧ ∀ i root, s.roots[i]? = some root →
      ∀ (key : Nat) (data : Addr) {σ : Type} (dataCallback : Option (DataCallback σ)) (world : σ)
        (r : RbHeap × Addr × σ), rbtInsert s.mem root key data dataCallback world = some r →
        ∃ log, (Traced.rbtInsert s.mem root key data dataCallback world).run = some (r, log) ∧
          (log.length : ℝ) ≤ 6 * Real.logb 2 ((keysOf i ops).card + 1) + 14 ∧
          log.countP InsertEvent.isRotation ≤ 2 := by
  obtain ⟨s, hrun, hs⟩ := runInv_of_root hops
  refine ⟨s, hrun, fun i root hroot key data σ dataCallback world r hr => ?_⟩
  obtain ⟨-, T, L, ns, h⟩ := hs i root hroot
  have W := h.wellShaped hroot
  have hvalue := Traced.value_rbtInsert s.mem root key data dataCallback world
  rw [hr] at hvalue
  obtain ⟨log, hlog⟩ := Recorded.exists_run_of_value hvalue
  refine ⟨log, hlog, ?_, ?_⟩
  · have hcost := WeighsAtMost.costs_rbtInsert (w := fun _ => 1) (k := 1) (a := 1) (b := 1) (c := 1)
      ⟨fun _ _ => le_rfl, fun _ => le_rfl, fun _ _ _ _ _ _ => le_rfl⟩ (fun _ => le_rfl)
      W.treeAt h.forest.nilBlack W.redBlack W.ordered key data dataCallback world
    have hlen : log.length ≤ 3 * (T i).height + 14 := by
      have := hcost.length_le hlog
      rw [insertCost] at this
      omega
    have : (log.length : ℝ) ≤ 3 * (T i).height + 14 := by exact_mod_cast hlen
    linarith [W.height]
  · have hcost := WeighsAtMost.costs_rbtInsert (w := fun e => e.isRotation.toNat) (k := 0) (a := 0)
      (b := 0) (c := 1) ⟨fun _ _ => le_rfl, fun _ => le_rfl, fun _ _ _ _ _ _ => le_rfl⟩
      (fun _ => le_rfl) W.treeAt h.forest.nilBlack W.redBlack W.ordered key data dataCallback world
    simpa [insertCost] using hcost.countP_le hlog

/-- A fourth key in a tree of three. -/
theorem rbt_insert_cost_fourth_key : ∃ (s : Trees) (r : RbHeap × Addr × List (Addr × Addr))
    (log : List InsertEvent),
    treeRun [.init 0, .insert ⟨0, 5, 1, true⟩, .insert ⟨0, 3, 2, true⟩,
      .insert ⟨0, 7, 3, false⟩] = some s ∧ s.roots[0]? = some 2 ∧
    rbtInsert s.mem 2 4 9 (some recordCall) s.calls = some r ∧ r.2 = (2, [(1, 2), (2, 4), (9, 8)]) ∧
    (Traced.rbtInsert s.mem 2 4 9 (some recordCall) s.calls).run = some (r, log) ∧
    log.countP InsertEvent.isRotation ≤ 2 := by
  have hinsert : (treeRun [.init 0, .insert ⟨0, 5, 1, true⟩, .insert ⟨0, 3, 2, true⟩,
      .insert ⟨0, 7, 3, false⟩]).map (fun s => (s.roots[0]?,
        (rbtInsert s.mem 2 4 9 (some recordCall) s.calls).map (·.2))) =
      some (some 2, some (2, [(1, 2), (2, 4), (9, 8)])) := by
    decide +kernel
  obtain ⟨s, hrun, h⟩ := rbt_insert_cost [.init 0, .insert ⟨0, 5, 1, true⟩,
    .insert ⟨0, 3, 2, true⟩, .insert ⟨0, 7, 3, false⟩] (by decide)
  rw [hrun, Option.map_some] at hinsert
  obtain ⟨hroot, hsome⟩ := Prod.mk.inj (Option.some.inj hinsert)
  obtain ⟨r, hr, hresult⟩ := Option.map_eq_some_iff.mp hsome
  obtain ⟨log, hlog, -, hrot⟩ := h 0 2 hroot 4 9 (some recordCall) s.calls r hr
  exact ⟨s, r, log, hrun, hroot, hr, hresult, hlog, hrot⟩

/-! ## Visits -/

section Visit

open Recorded

/-- A visit makes the calls that the range asks for. -/
theorem costs_visit {h : Heap RbtNode} {NIL p : Addr} {t : BookTree} (ht : Stored h NIL p t)
    (hnil : NIL ∉ addrs t) (lo hi : Nat) {σ : Type} (visitor : Addr → σ → Option σ) (fuel : Nat)
    (s : σ) :
    Costs (fun _ => 1) (Traced.rbtVisitNodesInRange h NIL lo hi visitor fuel (rootAddr NIL t) s)
      (calls lo hi t) := by
  induction t generalizing p fuel s with
  | nil =>
    cases fuel with
    | zero => exact (costs_lift _).mono (Nat.zero_le _)
    | succ fuel =>
      refine Costs.bind (n := 0) (costs_emit (w := fun _ => 1) _) fun _ _ => ?_
      rw [rootAddr_nil, if_pos (.inr rfl)]
      exact costs_pure _
  | node c l k v r ihl ihr =>
    cases fuel with
    | zero => exact (costs_lift _).mono (Nat.zero_le _)
    | succ fuel =>
      obtain ⟨hv, hl, hr⟩ := ht
      simp only [mem_addrs_node, not_or] at hnil
      obtain ⟨hnl, hne, hnr⟩ := hnil
      have hnull : ¬ (v.addr = NULL ∨ v.addr = NIL) :=
        not_or.mpr ⟨Heap.ne_null_of_load hv, Ne.symm hne⟩
      refine Costs.mono (Costs.bind (n := (if lo < k then calls lo hi l else 0) +
        if k < hi then calls lo hi r else 0) (costs_emit (w := fun _ => 1) _) fun _ _ => ?_)
        (Nat.add_comm 1 _).le
      rw [rootAddr_node, if_neg hnull]
      refine .lift_bind_of_eq hv (Costs.bind ?_ fun s₁ _ => ?_)
      · split_ifs
        · exact ihl hl hnl fuel s
        · exact costs_pure _
      · refine Costs.mono (m := 0 + _) (Costs.bind ?_ fun s₂ _ => ?_) (Nat.zero_add _).le
        · split_ifs
          · exact costs_lift _
          · exact costs_pure _
        · split_ifs
          · exact ihr hr hnr fuel s₂
          · exact costs_pure _

end Visit

theorem WellShaped.inRange_eq {m : RbHeap} {root : Addr} {ks : Finset Nat} {t : BookTree}
    (W : WellShaped m root ks t) (lo hi : Nat) :
    inRange lo hi t = (ks.filter fun k => lo ≤ k ∧ k ≤ hi).card := by
  have hfilter : (ks.filter fun k => lo ≤ k ∧ k ≤ hi) =
      ((t.toList.map Prod.fst).filter fun k => lo ≤ k ∧ k ≤ hi).toFinset := by
    ext k
    simp [← W.keys]
  rw [hfilter, List.toFinset_card_of_nodup ((nodup_keys_of_ordered W.ordered).filter _),
    List.filter_map, List.length_map, ← List.countP_eq_length_filter]
  rfl

/-- In every tree that insertions build, a visit makes two calls at most for each key in the
range, and besides these a number that the logarithm of the number of keys bounds. -/
theorem rbt_visit_cost (ops : List TreeOp) (hops : OnTrees 0 ops) :
    ∃ s, treeRun ops = some s ∧ ∀ i root, s.roots[i]? = some root →
      ∀ (lowKey highKey : Nat) {σ : Type} (visitor : Addr → σ → Option σ) (world world' : σ),
        rbtVisitNodesInRange s.mem.nodes s.mem.NIL lowKey highKey visitor s.mem.nodes.next root
          world = some world' →
        ∃ log, (Traced.rbtVisitNodesInRange s.mem.nodes s.mem.NIL lowKey highKey visitor
            s.mem.nodes.next root world).run = some (world', log) ∧
          (log.length : ℝ) ≤ 2 * ((keysOf i ops).filter fun k => lowKey ≤ k ∧ k ≤ highKey).card +
            4 * Real.logb 2 ((keysOf i ops).card + 1) + 1 := by
  obtain ⟨s, hrun, hs⟩ := runInv_of_root hops
  refine ⟨s, hrun, fun i root hroot lowKey highKey σ visitor world world' hr => ?_⟩
  obtain ⟨-, T, L, ns, h⟩ := hs i root hroot
  have W := h.wellShaped hroot
  have hvalue := Traced.value_rbtVisitNodesInRange s.mem.nodes s.mem.NIL lowKey highKey visitor
    s.mem.nodes.next root world
  rw [hr] at hvalue
  obtain ⟨log, hlog⟩ := Recorded.exists_run_of_value hvalue
  refine ⟨log, hlog, ?_⟩
  have hcost := costs_visit W.treeAt.stored W.treeAt.nil lowKey highKey visitor s.mem.nodes.next
    world
  rw [← W.treeAt.root] at hcost
  have hcalls := calls_le lowKey highKey (a := 1) (b := 1) W.ordered (by simp) (by simp)
  have hlen := (hcost.length_le hlog).trans hcalls
  rw [W.inRange_eq] at hlen
  have : (log.length : ℝ) ≤
      2 * ((keysOf i ops).filter fun k => lowKey ≤ k ∧ k ≤ highKey).card +
        2 * (T i).height + 1 := by exact_mod_cast hlen
  linarith [W.height]

/-- A visit from 4 to 6 in a tree of three keys. -/
theorem rbt_visit_cost_three_keys : ∃ (s : Trees) (log : List Addr), treeRun [.init 0,
      .insert ⟨0, 5, 1, true⟩, .insert ⟨0, 3, 2, true⟩, .insert ⟨0, 7, 3, false⟩] = some s ∧
    s.roots[0]? = some 2 ∧
    (Traced.rbtVisitNodesInRange s.mem.nodes s.mem.NIL 4 6 (fun p ps => some (ps ++ [p]))
      s.mem.nodes.next 2 []).run = some ([1], log) ∧
    (log.length : ℝ) ≤ 2 * 1 + 4 * Real.logb 2 (3 + 1) + 1 := by
  have hvisit : (treeRun [.init 0, .insert ⟨0, 5, 1, true⟩, .insert ⟨0, 3, 2, true⟩,
      .insert ⟨0, 7, 3, false⟩]).map (fun s => (s.roots[0]?,
        rbtVisitNodesInRange s.mem.nodes s.mem.NIL 4 6 (fun p ps => some (ps ++ [p]))
          s.mem.nodes.next 2 [])) = some (some 2, some [1]) := by
    decide +kernel
  obtain ⟨s, hrun, h⟩ := rbt_visit_cost [.init 0, .insert ⟨0, 5, 1, true⟩,
    .insert ⟨0, 3, 2, true⟩, .insert ⟨0, 7, 3, false⟩] (by decide)
  rw [hrun, Option.map_some] at hvisit
  obtain ⟨hroot, hlists⟩ := Prod.mk.inj (Option.some.inj hvisit)
  obtain ⟨log, hlog, hlen⟩ := h 0 2 hroot 4 6 _ [] _ hlists
  exact ⟨s, log, hrun, hroot, hlog, by exact_mod_cast hlen⟩

end TradeServer
