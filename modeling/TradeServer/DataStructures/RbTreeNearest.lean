import Mathlib.Data.Nat.Dist
import TradeServer.DataStructures.RbTreeRange

/-!
# The search for the nearest key

`rbt_find_nearest` takes null for the end of a branch, but the branches of a tree end at
`NIL`. The search for a key of the tree stops at its node and never gets that far. For
any other key it goes on to `NIL`, reads the key that `rbt_init` leaves unset, and
returns `NIL`.
-/

namespace TradeServer

open Library

/-- The first argument bounds the depth of the recursion. -/
def rbtFindNearest (h : Heap RbtNode) : Nat → Addr → Nat → Option Addr
  | 0, _, _ => none
  | fuel + 1, node, key =>
    if node = NULL then some NULL
    else do
      let n ← h.load node
      if n.key = key then some node
      else if key < n.key then
        if n.left = NULL then some node else rbtFindNearest h fuel n.left key
      else
        if n.right = NULL then some node else rbtFindNearest h fuel n.right key

variable {h h' : Heap RbtNode} {NIL p : Addr} {t : BookTree} {key fuel : Nat}

/-- Below the root of a stored tree no branch ends in null. -/
theorem Stored.rootAddr_ne_null (ht : Stored h NIL p t) (hN : NIL ≠ NULL) :
    rootAddr NIL t ≠ NULL := by
  cases t with
  | nil => exact hN
  | node c l k v r => exact Heap.ne_null_of_load ht.1

/-- The search for a key of the tree goes down to its node, over nodes of the tree only. -/
theorem rbtFindNearest_mem (ho : Ordered t) (ht : Stored h NIL p t) (hN : NIL ≠ NULL)
    (hfuel : t.size < fuel) {v : Ref} (hmem : (key, v) ∈ t.toList) :
    rbtFindNearest h fuel (rootAddr NIL t) key = some v.addr := by
  induction t generalizing p fuel with
  | nil => simp at hmem
  | node c l k w r ihl ihr =>
    obtain ⟨fuel, rfl⟩ : ∃ n, fuel = n + 1 := ⟨fuel - 1, by omega⟩
    rw [ColorTree.size_node] at hfuel
    obtain ⟨hw, hl, hr⟩ := ht
    obtain ⟨hol, hor, hlk⟩ := List.pairwise_append.mp ho
    obtain ⟨hkr, hor⟩ := List.pairwise_cons.mp hor
    have hnull := Heap.ne_null_of_load hw
    rw [ColorTree.toList_node, List.mem_append, List.mem_cons] at hmem
    obtain hmem | heq | hmem := hmem
    · have hlt : key < k := hlk _ hmem (k, w) (by simp)
      have hleft := ihl hol hl (show l.size < fuel by omega) hmem
      simp [rbtFindNearest, hw, hnull, hlt, hlt.ne', hl.rootAddr_ne_null hN, hleft]
    · obtain ⟨rfl, rfl⟩ := Prod.mk.inj heq
      simp [rbtFindNearest, hw, hnull]
    · have hlt : k < key := hkr _ hmem
      have hright := ihr hor hr (show r.size < fuel by omega) hmem
      simp [rbtFindNearest, hw, hnull, hlt.not_gt, hlt.ne, hr.rootAddr_ne_null hN, hright]

/-- The search for any other key ends at the sentinel. -/
theorem rbtFindNearest_not_mem (ht : Stored h NIL p t) (hN : NilBlack h NIL)
    (hfuel : t.size < fuel) (hkey : key ∉ t.toList.map Prod.fst) :
    rbtFindNearest h fuel (rootAddr NIL t) key = some NIL := by
  obtain ⟨unset, hnil⟩ := hN
  induction t generalizing p fuel with
  | nil =>
    obtain ⟨fuel, rfl⟩ : ∃ n, fuel = n + 1 := ⟨fuel - 1, by omega⟩
    -- whatever the key of the sentinel is
    simp only [rbtFindNearest, rootAddr_nil, if_neg (Heap.ne_null_of_load hnil), hnil,
      Option.bind_eq_bind, Option.bind_some, if_true, ite_self]
  | node c l k w r ihl ihr =>
    obtain ⟨fuel, rfl⟩ : ∃ n, fuel = n + 1 := ⟨fuel - 1, by omega⟩
    rw [ColorTree.size_node] at hfuel
    obtain ⟨hw, hl, hr⟩ := ht
    simp only [ColorTree.toList_node, List.map_append, List.map_cons, List.mem_append,
      List.mem_cons, not_or] at hkey
    obtain ⟨hkl, hne, hkr⟩ := hkey
    have hnull := Heap.ne_null_of_load hnil
    have hleft := ihl hl (show l.size < fuel by omega) hkl
    have hright := ihr hr (show r.size < fuel by omega) hkr
    simp [rbtFindNearest, hw, Heap.ne_null_of_load hw, Ne.symm hne, hl.rootAddr_ne_null hnull,
      hr.rootAddr_ne_null hnull, hleft, hright]

/-- Among the nodes of a tree the search returns one whose key is nearest to `key`, and is
`key` if a node has it. The key of the sentinel does not matter. -/
def FindsNearest (m : RbHeap) (root : Addr) (nodes : List (Addr × RbtNode)) (key : Nat) : Prop :=
  ∃ p n, (p, n) ∈ nodes ∧ p ≠ m.NIL ∧
    (key ∈ nodes.map (·.2.key) → n.key = key) ∧
    (∀ k ∈ nodes.map (·.2.key), n.key.dist key ≤ k.dist key) ∧
    rbtFindNearest m.nodes m.nodes.next root key = some p ∧
    ∀ unset, rbtFindNearest (m.nodes.modify m.NIL ({ · with key := unset })) m.nodes.next root
      key = some p

/-- The search finds what it is for just when there is a node with the key. -/
theorem Forest.findsNearest_iff {ι : Type*} {m : RbHeap} {root : ι → Addr} {T : ι → BookTree}
    {L : Addr → Option Queue} (F : Forest m root T L) (i : ι) {nodes : List (Addr × RbtNode)}
    (hnodes : nodes.map bindingOf = (T i).toList) (key : Nat) :
    FindsNearest m (root i) nodes key ↔ key ∈ nodes.map (·.2.key) := by
  have H := F.tree i
  have hkeys : (T i).toList.map Prod.fst = nodes.map (·.2.key) := by
    rw [← hnodes, List.map_map]
    rfl
  have haddrs : addrs (T i) = nodes.map Prod.fst := by
    rw [addrs, ← hnodes, List.map_map]
    rfl
  constructor
  · rintro ⟨p, n, -, hp, -, -, hrun, -⟩
    by_contra hkey
    rw [H.root, rbtFindNearest_not_mem H.stored F.nilBlack H.size_lt (hkeys ▸ hkey)] at hrun
    exact hp (Option.some.inj hrun).symm
  · intro hkey
    obtain ⟨⟨p, n⟩, hmem, rfl⟩ := List.mem_map.mp hkey
    have hp : p ∈ addrs (T i) := haddrs ▸ List.mem_map_of_mem hmem
    have hbinding : (n.key, (⟨p, n.ordersList⟩ : Ref)) ∈ (T i).toList :=
      hnodes ▸ List.mem_map_of_mem (f := bindingOf) hmem
    refine ⟨p, n, hmem, fun heq => H.nil (heq ▸ hp), fun _ => rfl, fun k _ => ?_, ?_, ?_⟩
    · simp [Nat.dist_self]
    · rw [H.root]
      exact rbtFindNearest_mem (F.ordered i) H.stored F.nil_ne_null H.size_lt hbinding
    · intro unset
      have hstored : Stored (m.nodes.modify m.NIL ({ · with key := unset })) m.NIL m.NIL (T i) :=
        H.stored.frame fun q hq => by
          have hne : q ≠ m.NIL := fun heq => H.nil (heq ▸ hq)
          simp [hne]
      rw [H.root]
      exact rbtFindNearest_mem (F.ordered i) hstored F.nil_ne_null H.size_lt hbinding

/-- In every tree that insertions build, the search is right for the inserted keys and for
no other one. -/
theorem treeRun_findNearest (ops : List TreeOp) (hops : OnTrees 0 ops) :
    ∃ s, treeRun ops = some s ∧ ∀ i root, s.roots[i]? = some root →
      ∃ nodes, inorderNodes s.mem.nodes s.mem.NIL s.mem.nodes.next root = some nodes ∧
        (∀ k, k ∈ nodes.map (·.2.key) ↔ ∃ e ∈ inserts ops, e.tree = i ∧ e.key = k) ∧
        ∀ key, FindsNearest s.mem root nodes key ↔
          ∃ e ∈ inserts ops, e.tree = i ∧ e.key = key := by
  obtain ⟨s, hrun, hs⟩ := runInv_of_root hops
  refine ⟨s, hrun, fun i root hroot => ?_⟩
  obtain ⟨rfl, T, L, ns, h⟩ := hs i root hroot
  obtain ⟨nodes, hwalk, hnodes, -⟩ := h.forest.visit i
  have hkeys := h.mem_keys_walk hnodes
  refine ⟨nodes, hwalk, hkeys, fun key => ?_⟩
  rw [h.forest.findsNearest_iff i hnodes key, hkeys key]

/-- Three keys, of which the search finds the one that was inserted second. -/
theorem treeRun_findNearest_three_keys :
    ∃ s nodes, treeRun [.init 0, .insert ⟨0, 5, 1, true⟩, .insert ⟨0, 3, 2, true⟩,
        .insert ⟨0, 7, 3, false⟩] = some s ∧ s.roots[0]? = some 2 ∧
      inorderNodes s.mem.nodes s.mem.NIL s.mem.nodes.next 2 = some nodes ∧
      nodes.map (fun x => (x.1, x.2.key)) = [(3, 3), (2, 5), (4, 7)] ∧
      FindsNearest s.mem 2 nodes 3 := by
  have hwalk : (treeRun [.init 0, .insert ⟨0, 5, 1, true⟩, .insert ⟨0, 3, 2, true⟩,
      .insert ⟨0, 7, 3, false⟩]).bind (fun s =>
        (inorderNodes s.mem.nodes s.mem.NIL s.mem.nodes.next 2).map fun nodes =>
          (s.roots[0]?, nodes.map fun x => (x.1, x.2.key))) =
      some (some 2, [(3, 3), (2, 5), (4, 7)]) := by decide +kernel
  obtain ⟨s, hrun, h⟩ := treeRun_findNearest [.init 0, .insert ⟨0, 5, 1, true⟩,
    .insert ⟨0, 3, 2, true⟩, .insert ⟨0, 7, 3, false⟩] (by decide)
  rw [hrun, Option.bind_some] at hwalk
  obtain ⟨nodes, hnodes, heq⟩ := Option.map_eq_some_iff.mp hwalk
  obtain ⟨hroot, hkeys⟩ := Prod.mk.inj heq
  obtain ⟨nodes', hnodes', -, hfind⟩ := h 0 2 hroot
  obtain rfl := Option.some.inj (hnodes'.symm.trans hnodes)
  exact ⟨s, nodes', hrun, hroot, hnodes, hkeys, (hfind 3).mpr (by decide)⟩

/-- A tree with the one key 5, in which 7 is searched. -/
theorem not_findsNearest_single :
    ∃ s root nodes, treeRun [.init 0, .insert ⟨0, 5, 1, true⟩] = some s ∧
      s.roots[0]? = some root ∧
      inorderNodes s.mem.nodes s.mem.NIL s.mem.nodes.next root = some nodes ∧
      (∀ k, k ∈ nodes.map (·.2.key) ↔ k = 5) ∧ ¬ FindsNearest s.mem root nodes 7 := by
  obtain ⟨s, hrun, hs⟩ := @runInv_treeRun [.init 0, .insert ⟨0, 5, 1, true⟩] (by decide)
  rcases hs with ⟨hops, -⟩ | ⟨T, L, ns, h⟩
  · cases hops
  · have hroot : s.roots[0]? = some (s.root 0) := by
      have hlen : s.roots.length = 1 := h.count
      simp [Trees.root, hlen]
    obtain ⟨nodes, hwalk, hnodes, -⟩ := h.forest.visit 0
    have hkeys := h.mem_keys_walk hnodes
    refine ⟨s, s.root 0, nodes, hrun, hroot, hwalk, fun k => ?_, ?_⟩
    · rw [hkeys]
      simp [inserts, eq_comm]
    · rw [h.forest.findsNearest_iff 0 hnodes 7, hkeys]
      decide

end TradeServer
