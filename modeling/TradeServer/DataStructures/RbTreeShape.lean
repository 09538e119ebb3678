import TradeServer.DataStructures.RbTree
import TradeServer.Library.RedBlack

/-!
# Red-black trees in memory

`Stored h NIL p t` says that the nodes of `t` are exactly the objects of the heap, with
their colors, lists, children and parents, below the parent `p`. At a position of a
tree, `Above` says the same of the frames around it.
-/

namespace TradeServer

open Library

/-- Where a tree node lives and the list object it carries. -/
structure Ref where
  addr : Addr
  list : Addr

abbrev BookTree := ColorTree Nat Ref

abbrev BookFrame := Frame Nat Ref

def rootAddr (NIL : Addr) : BookTree → Addr
  | .nil => NIL
  | .node _ _ _ v _ => v.addr

/-- A node whose child on side `d` is `a`. -/
def cell (d : Dir) (k : Nat) (v : Ref) (c : Color) (parent a b : Addr) : RbtNode :=
  match d with
  | .left => ⟨k, v.list, c, parent, a, b⟩
  | .right => ⟨k, v.list, c, parent, b, a⟩

section Cell

variable (d : Dir) (k : Nat) (v : Ref) (c : Color) (p a b q : Addr)

@[simp] theorem cell_key : (cell d k v c p a b).key = k := by cases d <;> rfl

@[simp] theorem cell_ordersList : (cell d k v c p a b).ordersList = v.list := by cases d <;> rfl

@[simp] theorem cell_color : (cell d k v c p a b).color = c := by cases d <;> rfl

@[simp] theorem cell_parent : (cell d k v c p a b).parent = p := by cases d <;> rfl

@[simp] theorem cell_child : (cell d k v c p a b).child d = a := by cases d <;> rfl

@[simp] theorem cell_child_flip : (cell d k v c p a b).child d.flip = b := by cases d <;> rfl

@[simp] theorem cell_setChild : (cell d k v c p a b).setChild d q = cell d k v c p q b := by
  cases d <;> rfl

@[simp] theorem cell_setChild_flip :
    (cell d k v c p a b).setChild d.flip q = cell d k v c p a q := by cases d <;> rfl

@[simp] theorem cell_setParent : (cell d k v c p a b).setParent q = cell d k v c q a b := by
  cases d <;> rfl

@[simp] theorem cell_setColor (c' : Color) :
    (cell d k v c p a b).setColor c' = cell d k v c' p a b := by cases d <;> rfl

end Cell

def addrs (t : BookTree) : List Addr := t.toList.map (·.2.addr)

def Stored (h : Heap RbtNode) (NIL : Addr) : Addr → BookTree → Prop
  | _, .nil => True
  | p, .node c l k v r =>
    h.load v.addr = some ⟨k, v.list, c, p, rootAddr NIL l, rootAddr NIL r⟩ ∧
      Stored h NIL v.addr l ∧ Stored h NIL v.addr r

/-- The parent of a position. -/
def up (NIL : Addr) : List BookFrame → Addr
  | [] => NIL
  | f :: _ => f.val.addr

@[simp] theorem up_cons (NIL : Addr) (f : BookFrame) (fs : List BookFrame) :
    up NIL (f :: fs) = f.val.addr := rfl

/-- The frames of a position whose subtree starts at the given address. -/
def Above (h : Heap RbtNode) (NIL : Addr) : List BookFrame → Addr → Prop
  | [], _ => True
  | f :: fs, p =>
    h.load f.val.addr =
        some (cell f.dir f.key f.val f.color (up NIL fs) p (rootAddr NIL f.sib)) ∧
      Stored h NIL f.val.addr f.sib ∧ Above h NIL fs f.val.addr

def ctxAddrs (fs : List BookFrame) : List Addr := (before fs ++ after fs).map (·.2.addr)

@[simp] theorem rootAddr_nil (NIL : Addr) : rootAddr NIL .nil = NIL := rfl

@[simp] theorem rootAddr_node (NIL : Addr) (c : Color) (l r : BookTree) (k : Nat) (v : Ref) :
    rootAddr NIL (.node c l k v r) = v.addr := rfl

@[simp] theorem rootAddr_mk (NIL : Addr) (d : Dir) (c : Color) (a b : BookTree) (k : Nat)
    (v : Ref) :
    rootAddr NIL (.mk d c a k v b) = v.addr := by cases d <;> rfl

@[simp] theorem rootAddr_framePlug (NIL : Addr) (f : BookFrame) (t : BookTree) :
    rootAddr NIL (f.plug t) = f.val.addr := rootAddr_mk _ _ _ _ _ _ _

@[simp] theorem rootAddr_setColor (NIL : Addr) (c : Color) (t : BookTree) :
    rootAddr NIL (t.setColor c) = rootAddr NIL t := by cases t <;> rfl

@[simp] theorem addrs_nil : addrs .nil = [] := rfl

theorem mem_addrs_node {c : Color} {l r : BookTree} {k : Nat} {v : Ref} {q : Addr} :
    q ∈ addrs (.node c l k v r) ↔ q ∈ addrs l ∨ q = v.addr ∨ q ∈ addrs r := by
  simp [addrs]

theorem mem_addrs_mk {d : Dir} {c : Color} {a b : BookTree} {k : Nat} {v : Ref} {q : Addr} :
    q ∈ addrs (.mk d c a k v b) ↔ q = v.addr ∨ q ∈ addrs a ∨ q ∈ addrs b := by
  cases d <;> simp only [ColorTree.mk, mem_addrs_node]
  · tauto
  · tauto

theorem nodup_addrs_mk {d : Dir} {c : Color} {a b : BookTree} {k : Nat} {v : Ref} :
    (addrs (.mk d c a k v b)).Nodup ↔
      v.addr ∉ addrs a ∧ v.addr ∉ addrs b ∧ (addrs a).Nodup ∧ (addrs b).Nodup ∧
        (addrs a).Disjoint (addrs b) := by
  have hperm : (addrs (.mk d c a k v b)).Perm (v.addr :: (addrs a ++ addrs b)) := by
    cases d <;> simp only [addrs, ColorTree.mk, ColorTree.toList_node, List.map_append,
        List.map_cons]
    · exact List.perm_middle
    · exact List.perm_middle.trans (List.perm_append_comm.cons _)
  rw [hperm.nodup_iff, List.nodup_cons, List.nodup_append', List.mem_append, not_or, and_assoc]

theorem addrs_plug_perm (fs : List BookFrame) (t : BookTree) :
    (addrs (plug fs t)).Perm (addrs t ++ ctxAddrs fs) := by
  simp only [addrs, ctxAddrs, toList_plug, List.map_append, List.append_assoc]
  exact List.perm_append_comm_assoc _ _ _

theorem mem_addrs_plug {fs : List BookFrame} {t : BookTree} {q : Addr} :
    q ∈ addrs (plug fs t) ↔ q ∈ addrs t ∨ q ∈ ctxAddrs fs := by
  rw [(addrs_plug_perm fs t).mem_iff, List.mem_append]

theorem nodup_addrs_plug {fs : List BookFrame} {t : BookTree} :
    (addrs (plug fs t)).Nodup ↔
      (addrs t).Nodup ∧ (ctxAddrs fs).Nodup ∧ (addrs t).Disjoint (ctxAddrs fs) := by
  rw [(addrs_plug_perm fs t).nodup_iff, List.nodup_append']

theorem ctxAddrs_cons_perm (f : BookFrame) (fs : List BookFrame) :
    (ctxAddrs (f :: fs)).Perm (f.val.addr :: (addrs f.sib ++ ctxAddrs fs)) := by
  have h := (addrs_plug_perm fs (f.plug .nil))
  have h' := (addrs_plug_perm (f :: fs) .nil)
  simp only [addrs_nil, List.nil_append, plug_cons] at h h'
  refine h'.symm.trans (h.trans ?_)
  obtain ⟨d, c, k, v, s⟩ := f
  cases d <;> simp [Frame.plug, ColorTree.mk, addrs]

theorem mem_ctxAddrs_cons {f : BookFrame} {fs : List BookFrame} {q : Addr} :
    q ∈ ctxAddrs (f :: fs) ↔ q = f.val.addr ∨ q ∈ addrs f.sib ∨ q ∈ ctxAddrs fs := by
  rw [(ctxAddrs_cons_perm f fs).mem_iff, List.mem_cons, List.mem_append]

theorem nodup_ctxAddrs_cons {f : BookFrame} {fs : List BookFrame} :
    (ctxAddrs (f :: fs)).Nodup ↔
      f.val.addr ∉ addrs f.sib ∧ f.val.addr ∉ ctxAddrs fs ∧ (addrs f.sib).Nodup ∧
        (ctxAddrs fs).Nodup ∧ (addrs f.sib).Disjoint (ctxAddrs fs) := by
  rw [(ctxAddrs_cons_perm f fs).nodup_iff, List.nodup_cons, List.nodup_append', List.mem_append,
    not_or, and_assoc]

theorem addrs_of_toList {s t : BookTree} (h : s.toList = t.toList) : addrs s = addrs t := by
  rw [addrs, addrs, h]

section Frame

variable {h h' : Heap RbtNode} {NIL p : Addr}

theorem stored_mk {d : Dir} {c : Color} {a b : BookTree} {k : Nat} {v : Ref} :
    Stored h NIL p (.mk d c a k v b) ↔
      h.load v.addr = some (cell d k v c p (rootAddr NIL a) (rootAddr NIL b)) ∧
        Stored h NIL v.addr a ∧ Stored h NIL v.addr b := by
  cases d
  · rfl
  · simp only [ColorTree.mk, Stored, cell]
    exact and_congr_right fun _ => and_comm

theorem Stored.frame {t : BookTree} (s : Stored h NIL p t)
    (hf : ∀ q ∈ addrs t, h'.load q = h.load q) : Stored h' NIL p t := by
  induction t generalizing p with
  | nil => trivial
  | node c l k v r ihl ihr =>
    obtain ⟨hv, hl, hr⟩ := s
    simp only [mem_addrs_node] at hf
    exact ⟨(hf _ (.inr (.inl rfl))).trans hv, ihl hl fun q hq => hf q (.inl hq),
      ihr hr fun q hq => hf q (.inr (.inr hq))⟩

/-- Every node of a stored tree is live. -/
theorem Stored.live {t : BookTree} (s : Stored h NIL p t) {q : Addr} (hq : q ∈ addrs t) :
    ∃ n, h.load q = some n := by
  induction t generalizing p with
  | nil => simp at hq
  | node c l k v r ihl ihr =>
    obtain ⟨hv, hl, hr⟩ := s
    rcases mem_addrs_node.mp hq with hq | rfl | hq
    · exact ihl hl hq
    · exact ⟨_, hv⟩
    · exact ihr hr hq

theorem rootAddr_mem {t : BookTree} (ht : rootAddr NIL t ≠ NIL) : rootAddr NIL t ∈ addrs t := by
  cases t with
  | nil => exact absurd rfl ht
  | node c l k v r => simp [mem_addrs_node]

/-- Only the root of a subtree points up. -/
theorem Stored.reparent {t : BookTree} {q : Addr} (s : Stored h NIL p t) (hnd : (addrs t).Nodup)
    (hnil : NIL ∉ addrs t)
    (hroot : rootAddr NIL t ≠ NIL →
      h'.load (rootAddr NIL t) = (h.load (rootAddr NIL t)).map (·.setParent q))
    (hf : ∀ a ∈ addrs t, a ≠ rootAddr NIL t → h'.load a = h.load a) : Stored h' NIL q t := by
  cases t with
  | nil => trivial
  | node c l k v r =>
    obtain ⟨hv, hl, hr⟩ := s
    rw [← ColorTree.mk_left, nodup_addrs_mk] at hnd
    rw [← ColorTree.mk_left] at hf hnil
    rw [rootAddr_mk] at hf
    have hne : v.addr ≠ NIL := by
      rintro heq
      exact hnil (mem_addrs_mk.mpr (.inl heq.symm))
    refine ⟨?_, hl.frame fun a ha => ?_, hr.frame fun a ha => ?_⟩
    · have := hroot hne
      rw [show rootAddr NIL (ColorTree.node c l k v r) = v.addr from rfl, hv] at this
      simpa [RbtNode.setParent] using this
    · exact hf a (mem_addrs_mk.mpr (.inr (.inl ha))) fun heq => hnd.1 (by rwa [← heq])
    · exact hf a (mem_addrs_mk.mpr (.inr (.inr ha))) fun heq => hnd.2.1 (by rwa [← heq])

theorem Above.frame {fs : List BookFrame} {q : Addr} (s : Above h NIL fs q)
    (hf : ∀ a ∈ ctxAddrs fs, h'.load a = h.load a) : Above h' NIL fs q := by
  induction fs generalizing q with
  | nil => trivial
  | cons f fs ih =>
    obtain ⟨hv, hs, hfs⟩ := s
    exact ⟨(hf _ (mem_ctxAddrs_cons.mpr (.inl rfl))).trans hv,
      hs.frame fun a ha => hf a (mem_ctxAddrs_cons.mpr (.inr (.inl ha))),
      ih hfs fun a ha => hf a (mem_ctxAddrs_cons.mpr (.inr (.inr ha)))⟩

/-- Linking another subtree below a position changes the innermost frame only. -/
theorem Above.relink {f : BookFrame} {fs : List BookFrame} {q q' : Addr}
    (s : Above h NIL (f :: fs) q) (hnd : (ctxAddrs (f :: fs)).Nodup)
    (hup : h'.load f.val.addr = (h.load f.val.addr).map (·.setChild f.dir q'))
    (hf : ∀ a ∈ ctxAddrs (f :: fs), a ≠ f.val.addr → h'.load a = h.load a) :
    Above h' NIL (f :: fs) q' := by
  obtain ⟨hv, hs, hfs⟩ := s
  obtain ⟨hsib, hctx, -⟩ := nodup_ctxAddrs_cons.mp hnd
  refine ⟨by simp [hup, hv], hs.frame fun a ha => ?_, hfs.frame fun a ha => ?_⟩
  · exact hf a (mem_ctxAddrs_cons.mpr (.inr (.inl ha))) fun heq => hsib (by rwa [← heq])
  · exact hf a (mem_ctxAddrs_cons.mpr (.inr (.inr ha))) fun heq => hctx (by rwa [← heq])

/-- A stored tree splits at any position. -/
theorem stored_plug {fs : List BookFrame} {t : BookTree} :
    Stored h NIL NIL (plug fs t) ↔ Stored h NIL (up NIL fs) t ∧
        Above h NIL fs (rootAddr NIL t) := by
  induction fs generalizing t with
  | nil => simp [up, Above]
  | cons f fs ih =>
    rw [plug_cons, ih, Frame.plug, stored_mk, rootAddr_mk, up, Above]
    tauto

theorem rootAddr_plug {fs : List BookFrame} {s t : BookTree}
    (h : rootAddr NIL s = rootAddr NIL t) :
    rootAddr NIL (plug fs s) = rootAddr NIL (plug fs t) := by
  induction fs generalizing s t with
  | nil => exact h
  | cons f fs ih => exact @ih (f.plug s) (f.plug t) (by simp)

/-- A nonempty list of frames fixes the root. -/
theorem rootAddr_plug_cons {f : BookFrame} {fs : List BookFrame} {s t : BookTree} :
    rootAddr NIL (plug (f :: fs) s) = rootAddr NIL (plug (f :: fs) t) :=
  rootAddr_plug (s := f.plug s) (t := f.plug t) (by simp)

end Frame

/-- The tree `t` lives in memory with this root. -/
structure TreeAt (h : Heap RbtNode) (NIL root : Addr) (t : BookTree) : Prop where
  root : root = rootAddr NIL t
  stored : Stored h NIL NIL t
  nodup : (addrs t).Nodup
  nil : NIL ∉ addrs t

theorem treeAt_nil (h : Heap RbtNode) (NIL : Addr) : TreeAt h NIL NIL .nil :=
  ⟨rfl, trivial, List.nodup_nil, by simp⟩

/-- Trees have fewer nodes than the heap has had allocations. -/
theorem TreeAt.size_lt {h : Heap RbtNode} {NIL root : Addr} {t : BookTree}
    (ht : TreeAt h NIL root t) : t.size < h.next := by
  have hlive : ∀ p ∈ addrs t, h.load p ≠ none := fun p hp => by
    obtain ⟨n, hn⟩ := ht.stored.live hp
    simp [hn]
  have := Heap.length_lt_next ht.nodup hlive
  rwa [addrs, List.length_map] at this

/-- A tree is undisturbed by changes elsewhere. -/
theorem TreeAt.frame {h h' : Heap RbtNode} {NIL root : Addr} {t : BookTree}
    (ht : TreeAt h NIL root t) (hf : ∀ q ∈ addrs t, h'.load q = h.load q) :
    TreeAt h' NIL root t := ⟨ht.root, ht.stored.frame hf, ht.nodup, ht.nil⟩

end TradeServer
