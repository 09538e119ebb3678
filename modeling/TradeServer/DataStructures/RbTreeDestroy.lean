import TradeServer.DataStructures.RbTreeRuns
import TradeServer.Library.HeapFrees

/-!
# Destroying trees and lists

`rbt_destroy` frees the nodes of one tree, their list objects and all nodes of these lists,
each once, and nothing else. Whatever was inserted before, destroying all trees leaves
the sentinel alone.
-/

namespace TradeServer

open Library Heap

/-- The loop of `dl_list_destroy`. -/
def destroyNodes : Nat → Heap DllNode → Addr → Option (Heap DllNode)
  | 0, _, _ => none
  | fuel + 1, ns, cur =>
    if cur = NULL then some ns
    else do
      let next := (← ns.load cur).next
      let ns ← ns.release cur
      destroyNodes fuel ns next

def dlListDestroy (m : DlHeap) (dlList : Addr) : Option DlHeap := do
  let l ← m.lists.load dlList
  let ns ← destroyNodes m.nodes.next m.nodes l.head
  let ls ← m.lists.release dlList
  some ⟨ls, ns⟩

/-- The first argument bounds the depth of the recursion. -/
def rbtDestroy : Nat → RbHeap → Addr → Option RbHeap
  | 0, _, _ => none
  | fuel + 1, m, node =>
    if node = NULL ∨ node = m.NIL then some m
    else do
      let n ← m.nodes.load node
      let dl ← if n.ordersList ≠ NULL then dlListDestroy m.dl n.ordersList else some m.dl
      let m ← rbtDestroy fuel { m with dl := dl } n.left
      let n ← m.nodes.load node
      let m ← rbtDestroy fuel m n.right
      let nodes ← m.nodes.release node
      some { m with nodes := nodes }

/-! ## One list -/

theorem destroyNodes_run {ns : Heap DllNode} {prev : Addr} {xs : List (Addr × Addr)}
    (s : Seg DllNode.mk ns prev xs NULL) (hnd : (xs.map Prod.fst).Nodup) {fuel : Nat}
    (hfuel : xs.length < fuel) :
    ∃ ns', destroyNodes fuel ns (firstOr NULL xs) = some ns' ∧
      Freed (xs.map Prod.fst) ns ns' := by
  induction xs generalizing ns prev fuel with
  | nil =>
    obtain ⟨fuel, rfl⟩ : ∃ k, fuel = k + 1 := ⟨fuel - 1, by omega⟩
    exact ⟨ns, by simp [destroyNodes], .refl ns⟩
  | cons x xs ih =>
    obtain ⟨a, d⟩ := x
    obtain ⟨fuel, rfl⟩ : ∃ k, fuel = k + 1 := ⟨fuel - 1, by omega⟩
    obtain ⟨ha, hrest⟩ := s
    obtain ⟨hna, hnd⟩ := List.nodup_cons.mp hnd
    have hrest' : Seg DllNode.mk (ns.free a) a xs NULL :=
      hrest.frame fun b hb => by
        have hba : b ≠ a := ne_of_mem_of_not_mem hb hna
        simp [hba]
    obtain ⟨ns', hrun, hfreed⟩ := ih hrest' hnd (Nat.lt_of_succ_lt_succ hfuel)
    refine ⟨ns', ?_, (Freed.free ns a).trans hfreed⟩
    simp [destroyNodes, ne_null_of_load ha, ha, release_of_load ha, hrun]

namespace Queues

variable {m : DlHeap} {L : Addr → Option Queue} {p : Addr} {q : Queue}

/-- A list is gone with its nodes, and the others are as before. -/
theorem destroy (h : Queues m L) (hp : L p = some q) :
    ∃ m', dlListDestroy m p = some m' ∧ Queues m' (Function.update L p none) ∧
      Freed [p] m.lists m'.lists ∧ Freed q.nodes m.nodes m'.nodes := by
  have hs := h.stored hp
  have hlive : ∀ a ∈ q.nodes, m.nodes.load a ≠ none := fun a ha => by
    obtain ⟨n, hn⟩ := hs.live ha
    simp [hn]
  obtain ⟨ns, hrun, hfreed⟩ := destroyNodes_run hs.seg hs.nodup
    (by simpa [Queue.nodes] using length_lt_next hs.nodup hlive)
  refine ⟨⟨m.lists.free p, ns⟩, ?_, ⟨fun {p' q'} hp' => ?_, fun {p₁ p₂ q₁ q₂} h₁ h₂ hne => ?_⟩,
    .free _ p, hfreed⟩
  · have hhead : destroyNodes m.nodes.next m.nodes q.head = some ns := hrun
    simp [dlListDestroy, hs.list, hhead, release_of_load hs.list]
  · have hne : p' ≠ p := by rintro rfl; simp at hp'
    rw [Function.update_of_ne hne] at hp'
    have hdis := h.disjoint hp' hp hne
    exact (h.stored hp').frame (by simp [hne]) fun a ha => hfreed.load_of_notMem (hdis ha)
  · have hne₁ : p₁ ≠ p := by rintro rfl; simp at h₁
    have hne₂ : p₂ ≠ p := by rintro rfl; simp at h₂
    rw [Function.update_of_ne hne₁] at h₁
    rw [Function.update_of_ne hne₂] at h₂
    exact h.disjoint h₁ h₂ hne

end Queues

/-! ## One tree -/

/-- The list objects of a tree. -/
def listAddrs (t : BookTree) : List Addr := t.toList.map (·.2.list)

/-- The list nodes of a tree, the dummies included. -/
def listNodes (L : Addr → Option Queue) (t : BookTree) : List Addr :=
  t.toList.flatMap fun b => (L b.2.list).elim [] Queue.nodes

/-- The contents of the lists that are not of the tree. -/
def without (L : Addr → Option Queue) (t : BookTree) (p : Addr) : Option Queue :=
  if p ∈ listAddrs t then none else L p

/-- The memory `m'` is `m` without a tree. -/
structure TreeDestroyed (m m' : RbHeap) (L : Addr → Option Queue) (t : BookTree) : Prop where
  nil : m'.NIL = m.NIL
  nodes : Freed (addrs t) m.nodes m'.nodes
  lists : Freed (listAddrs t) m.dl.lists m'.dl.lists
  listNodes : Freed (listNodes L t) m.dl.nodes m'.dl.nodes
  queues : Queues m'.dl (without L t)

@[simp] theorem listAddrs_node (c : Color) (l r : BookTree) (k : Nat) (v : Ref) :
    listAddrs (.node c l k v r) = listAddrs l ++ v.list :: listAddrs r := by simp [listAddrs]

theorem listNodes_congr {L L' : Addr → Option Queue} {t : BookTree}
    (h : ∀ p ∈ listAddrs t, L' p = L p) : listNodes L' t = listNodes L t :=
  List.flatMap_congr fun b hb => by rw [h _ (List.mem_map_of_mem hb)]

theorem without_node (L : Addr → Option Queue) (c : Color) (l r : BookTree) (k : Nat) (v : Ref) :
    without (without (Function.update L v.list none) l) r = without L (.node c l k v r) := by
  funext p
  simp only [without, listAddrs_node, List.mem_append, List.mem_cons]
  by_cases hr : p ∈ listAddrs r
  · simp [hr]
  · by_cases hl : p ∈ listAddrs l
    · simp [hl]
    · by_cases hp : p = v.list
      · simp [hp]
      · simp [hr, hl, hp]

/-- The list of the root first, then the subtrees, then the root. -/
theorem TreeDestroyed.node {m m₂ m₃ : RbHeap} {dl : DlHeap} {L : Addr → Option Queue} {c : Color}
    {l r : BookTree} {k : Nat} {v : Ref} {q : Queue} (hown : (listAddrs (.node c l k v r)).Nodup)
    (hq : L v.list = some q) (hlists : Freed [v.list] m.dl.lists dl.lists)
    (hnodes : Freed q.nodes m.dl.nodes dl.nodes)
    (hl : TreeDestroyed ⟨m.NIL, m.nodes, dl⟩ m₂ (Function.update L v.list none) l)
    (hr : TreeDestroyed m₂ m₃ (without (Function.update L v.list none) l) r) :
    TreeDestroyed m { m₃ with nodes := m₃.nodes.free v.addr } L (.node c l k v r) := by
  rw [listAddrs_node, List.nodup_middle, List.nodup_cons, List.mem_append, not_or] at hown
  obtain ⟨⟨hvl, hvr⟩, hlr⟩ := hown
  have hdis := List.disjoint_of_nodup_append hlr
  have hleft : TradeServer.listNodes (Function.update L v.list none) l =
      TradeServer.listNodes L l := listNodes_congr fun p hp => by
    rw [Function.update_of_ne (ne_of_mem_of_not_mem hp hvl)]
  have hright : TradeServer.listNodes (without (Function.update L v.list none) l) r =
      TradeServer.listNodes L r := listNodes_congr fun p hp => by
    rw [without, if_neg fun hpl => hdis hpl hp,
      Function.update_of_ne (ne_of_mem_of_not_mem hp hvr)]
  refine ⟨hr.nil.trans hl.nil, ?_, ?_, ?_, without_node L c l r k v ▸ hr.queues⟩
  · refine ((hl.nodes.trans hr.nodes).trans (.free _ _)).congr fun p => ?_
    rw [mem_addrs_node, List.mem_append, List.mem_append, List.mem_singleton]
    tauto
  · refine (hlists.trans (hl.lists.trans hr.lists)).congr fun p => ?_
    simp only [listAddrs_node, List.mem_append, List.mem_cons, List.not_mem_nil, or_false]
    tauto
  · refine (hnodes.trans (hl.listNodes.trans hr.listNodes)).congr fun p => ?_
    rw [hleft, hright]
    simp only [TradeServer.listNodes, ColorTree.toList_node, List.flatMap_append,
      List.flatMap_cons, hq, Option.elim_some, List.mem_append]
    tauto

/-- Destroying a tree takes its nodes, its lists and their nodes. -/
theorem rbtDestroy_run {m : RbHeap} {L : Addr → Option Queue} {p : Addr} {t : BookTree}
    (hQ : Queues m.dl L) (ht : Stored m.nodes m.NIL p t) (hnil : m.NIL ∉ addrs t)
    (hnd : (addrs t).Nodup) (hown : (listAddrs t).Nodup)
    (hL : ∀ a ∈ listAddrs t, ∃ q, L a = some q) {fuel : Nat} (hfuel : t.size < fuel) :
    ∃ m', rbtDestroy fuel m (rootAddr m.NIL t) = some m' ∧ TreeDestroyed m m' L t := by
  induction t generalizing m L p fuel with
  | nil =>
    obtain ⟨fuel, rfl⟩ : ∃ k, fuel = k + 1 := ⟨fuel - 1, by omega⟩
    refine ⟨m, by simp [rbtDestroy], rfl, .refl _, .refl _, .refl _, ?_⟩
    exact (funext fun p => by simp [without, listAddrs] : without L .nil = L) ▸ hQ
  | node c l k v r ihl ihr =>
    obtain ⟨fuel, rfl⟩ : ∃ k, fuel = k + 1 := ⟨fuel - 1, by omega⟩
    rw [ColorTree.size_node] at hfuel
    obtain ⟨hv, hsl, hsr⟩ := ht
    simp only [mem_addrs_node, not_or] at hnil
    obtain ⟨hnl, hne, hnr⟩ := hnil
    obtain ⟨hvl, hvr, hndl, hndr, hdis⟩ := nodup_addrs_mk (d := .left).mp hnd
    have hown' := hown
    rw [listAddrs_node, List.nodup_middle, List.nodup_cons, List.mem_append, not_or] at hown'
    obtain ⟨⟨hlistl, hlistr⟩, hlr⟩ := hown'
    obtain ⟨q, hq⟩ := hL v.list (by simp)
    -- the list of the root
    obtain ⟨dl, hdl, hQ₁, hlists, hnodes⟩ := hQ.destroy hq
    -- the left subtree
    have hLl : ∀ a ∈ listAddrs l, ∃ q, Function.update L v.list none a = some q := by
      intro a ha
      rw [Function.update_of_ne (ne_of_mem_of_not_mem ha hlistl)]
      exact hL a (by simp [ha])
    obtain ⟨m₂, hleft, D₂⟩ := @ihl ⟨m.NIL, m.nodes, dl⟩ _ _ hQ₁ hsl hnl hndl hlr.of_append_left
      hLl fuel (by omega)
    have hload : ∀ a, a ∉ addrs l → m₂.nodes.load a = m.nodes.load a :=
      fun a ha => D₂.nodes.load_of_notMem ha
    have hnil₂ : m₂.NIL = m.NIL := D₂.nil
    -- the right subtree
    have hLr : ∀ a ∈ listAddrs r, ∃ q, without (Function.update L v.list none) l a = some q := by
      intro a ha
      rw [without, if_neg fun hal => List.disjoint_of_nodup_append hlr hal ha,
        Function.update_of_ne (ne_of_mem_of_not_mem ha hlistr)]
      exact hL a (by simp [ha])
    have hsr₂ : Stored m₂.nodes m₂.NIL v.addr r := by
      rw [hnil₂]
      exact hsr.frame fun a ha => hload a fun hal => hdis hal ha
    have hsize : r.size < fuel := by omega
    obtain ⟨m₃, hright, D₃⟩ :=
      ihr D₂.queues hsr₂ (by rwa [hnil₂]) hndr hlr.of_append_right hLr hsize
    have hv₂ := (hload v.addr hvl).trans hv
    have hv₃ := (D₃.nodes.load_of_notMem hvr).trans hv₂
    refine ⟨_, ?_, D₂.node hown hq hlists hnodes D₃⟩
    rw [hnil₂] at hright
    simp only [rbtDestroy, rootAddr_node, ne_null_of_load hv, Ne.symm hne, or_self, if_false, hv,
      hQ.ne_null hq, ne_eq, not_false_eq_true, if_true, hdl, hleft, hv₂, hright,
      release_of_load hv₃, Option.bind_eq_bind, Option.bind_some]

/-! ## A forest -/

namespace Forest

variable {ι : Type*} {m : RbHeap} {root : ι → Addr} {T : ι → BookTree} {L : Addr → Option Queue}

theorem nodup_listAddrs (F : Forest m root T L) (i : ι) : (listAddrs (T i)).Nodup := by
  refine ((F.tree i).nodup.of_map _).map_on fun b hb b' hb' heq => ?_
  exact (F.own hb hb' heq).2

theorem listAddrs_disjoint (F : Forest m root T L) {i j : ι} (hij : i ≠ j) :
    (listAddrs (T i)).Disjoint (listAddrs (T j)) := by
  intro a ha ha'
  obtain ⟨b, hb, rfl⟩ := List.mem_map.mp ha
  obtain ⟨b', hb', heq⟩ := List.mem_map.mp ha'
  exact hij (F.own hb' hb heq).1.symm

theorem without_eq (F : Forest m root T L) {i j : ι} (hij : j ≠ i) {b : Nat × Ref}
    (hb : b ∈ (T j).toList) : without L (T i) b.2.list = L b.2.list :=
  if_neg fun hi => F.listAddrs_disjoint hij (List.mem_map_of_mem hb) hi

/-- The list nodes of a tree are of the lists of its nodes, all different. -/
theorem nodup_listNodes (F : Forest m root T L) (i : ι) : (listNodes L (T i)).Nodup := by
  refine List.nodup_flatMap.mpr ⟨fun b hb => ?_, ?_⟩
  · obtain ⟨q, hq⟩ := F.listed hb
    simpa [hq] using (F.queues.stored hq).nodup
  · refine (List.pairwise_map.mp (F.nodup_listAddrs i)).imp_of_mem fun {b b'} hb hb' hne => ?_
    obtain ⟨q, hq⟩ := F.listed hb
    obtain ⟨q', hq'⟩ := F.listed hb'
    simpa [Function.onFun, hq, hq'] using F.queues.disjoint hq hq' hne

theorem listNodes_disjoint (F : Forest m root T L) {i j : ι} (hij : i ≠ j) :
    (listNodes L (T i)).Disjoint (listNodes L (T j)) := by
  intro a ha ha'
  obtain ⟨b, hb, ha⟩ := List.mem_flatMap.mp ha
  obtain ⟨b', hb', ha'⟩ := List.mem_flatMap.mp ha'
  obtain ⟨q, hq⟩ := F.listed hb
  obtain ⟨q', hq'⟩ := F.listed hb'
  rw [hq] at ha
  rw [hq'] at ha'
  exact F.queues.disjoint hq hq' (fun heq => hij (F.own hb hb' heq).1) ha ha'

variable [DecidableEq ι]

/-- A tree is gone and the others are as before. -/
theorem destroy (F : Forest m root T L) (i : ι) :
    ∃ m', rbtDestroy m.nodes.next m (root i) = some m' ∧ TreeDestroyed m m' L (T i) ∧
      Forest m' (Function.update root i m.NIL) (Function.update T i .nil) (without L (T i)) := by
  have ht := F.tree i
  obtain ⟨m', hrun, D⟩ := rbtDestroy_run F.queues ht.stored ht.nil ht.nodup (F.nodup_listAddrs i)
    (fun a ha => by
      obtain ⟨b, hb, rfl⟩ := List.mem_map.mp ha
      exact F.listed hb) ht.size_lt
  rw [← ht.root] at hrun
  have hload : ∀ a, a ∉ addrs (T i) → m'.nodes.load a = m.nodes.load a :=
    fun a ha => D.nodes.load_of_notMem ha
  have hkept : ∀ {j b}, b ∈ (Function.update T i .nil j).toList → j ≠ i ∧ b ∈ (T j).toList := by
    intro j b hb
    by_cases hj : j = i
    · subst hj
      simp at hb
    · exact ⟨hj, by rwa [Function.update_of_ne hj] at hb⟩
  refine ⟨m', hrun, D, ?_, fun j => ?_, fun {j k} hjk a ha ha' => ?_, ?_, ?_, D.queues,
    fun {j b} hb => ?_, fun {j k b b'} hb hb' heq => ?_⟩
  · obtain ⟨unset, hN⟩ := F.nilBlack
    exact ⟨unset, by rw [D.nil, hload _ ht.nil]; exact hN⟩
  · rw [D.nil]
    by_cases hj : j = i
    · subst hj
      simpa using treeAt_nil m'.nodes m.NIL
    · rw [Function.update_of_ne hj, Function.update_of_ne hj]
      exact (F.tree j).frame fun a ha => hload a fun hai => F.disjoint hj ha hai
  · obtain ⟨b, hb, rfl⟩ := List.mem_map.mp ha
    obtain ⟨b', hb', heq⟩ := List.mem_map.mp ha'
    refine F.disjoint hjk (List.mem_map_of_mem (hkept hb).2) ?_
    exact heq ▸ List.mem_map_of_mem (hkept hb').2
  · exact (Function.forall_update_iff T fun _ t => t.RedBlack).mpr
      ⟨ColorTree.redBlack_nil, fun j _ => F.redBlack j⟩
  · exact (Function.forall_update_iff T fun _ t => Ordered t).mpr
      ⟨List.Pairwise.nil, fun j _ => F.ordered j⟩
  · obtain ⟨hj, hb⟩ := hkept hb
    obtain ⟨q, hq⟩ := F.listed hb
    exact ⟨q, (F.without_eq hj hb).trans hq⟩
  · exact F.own (hkept hb).2 (hkept hb').2 heq

end Forest

end TradeServer
