import TradeServer.DataStructures.RbTreeRuns

/-!
# The visit of a range of keys

`rbt_visit_nodes_in_range` prunes subtrees by strict comparisons. In an ordered tree it
is the fold of the visitor over the in-order walk, filtered by the range.
-/

namespace TradeServer

open Library

/-- A visit goes over the lists of the nodes in the range, by increasing keys. -/
theorem rbtVisitNodesInRange_run {h : Heap RbtNode} {NIL p : Addr} {t : BookTree} (ho : Ordered t)
    (ht : Stored h NIL p t) (hnil : NIL ∉ addrs t) (lo hi : Nat) {σ : Type}
    (visitor : Addr → σ → Option σ) {fuel : Nat} (hfuel : t.size < fuel) (s : σ) :
    rbtVisitNodesInRange h NIL lo hi visitor fuel (rootAddr NIL t) s =
      (t.toList.filter fun b => lo ≤ b.1 ∧ b.1 ≤ hi).foldlM (fun s b => visitor b.2.list s) s := by
  induction t generalizing p fuel s with
  | nil =>
    obtain ⟨fuel, rfl⟩ : ∃ k, fuel = k + 1 := ⟨fuel - 1, by omega⟩
    simp [rbtVisitNodesInRange]
  | node c l k v r ihl ihr =>
    obtain ⟨fuel, rfl⟩ : ∃ k, fuel = k + 1 := ⟨fuel - 1, by omega⟩
    rw [ColorTree.size_node] at hfuel
    obtain ⟨hv, hl, hr⟩ := ht
    simp only [mem_addrs_node, not_or] at hnil
    obtain ⟨hnl, hne, hnr⟩ := hnil
    obtain ⟨hol, hor, hlk⟩ := List.pairwise_append.mp ho
    obtain ⟨hkr, hor⟩ := List.pairwise_cons.mp hor
    have hll := ihl hol hl hnl (show l.size < fuel by omega)
    have hrr := ihr hor hr hnr (show r.size < fuel by omega)
    -- a subtree that the search prunes has no key in the range
    have hleft : ¬ lo < k → (l.toList.filter fun b => lo ≤ b.1 ∧ b.1 ≤ hi) = [] := by
      intro hk
      simp only [List.filter_eq_nil_iff, decide_eq_true_eq, not_and]
      intro b hb hlo
      have := hlk b hb (k, v) (by simp)
      omega
    have hright : ¬ k < hi → (r.toList.filter fun b => lo ≤ b.1 ∧ b.1 ≤ hi) = [] := by
      intro hk
      simp only [List.filter_eq_nil_iff, decide_eq_true_eq, not_and]
      intro b hb _
      have := hkr b hb
      omega
    have hnull : ¬ (v.addr = NULL ∨ v.addr = NIL) :=
      not_or.mpr ⟨Heap.ne_null_of_load hv, Ne.symm hne⟩
    simp only [rbtVisitNodesInRange, rootAddr_node, if_neg hnull, hv, Option.bind_eq_bind,
      Option.bind_some, hll, hrr, ColorTree.toList_node, List.filter_append, List.foldlM_append]
    by_cases h1 : lo < k <;> by_cases h2 : lo ≤ k ∧ k ≤ hi <;> by_cases h3 : k < hi <;>
      simp [-Bool.decide_and, h1, h2, h3, hleft, hright]

/-- A walk in order: each node with its address. -/
def inorderNodes (h : Heap RbtNode) (NIL : Addr) : Nat → Addr → Option (List (Addr × RbtNode))
  | 0, _ => none
  | fuel + 1, node =>
    if node = NIL then some []
    else do
      let n ← h.load node
      let before ← inorderNodes h NIL fuel n.left
      let after ← inorderNodes h NIL fuel n.right
      some (before ++ (node, n) :: after)

/-- What a tree keeps of a node. -/
def bindingOf (x : Addr × RbtNode) : Nat × Ref := (x.2.key, ⟨x.1, x.2.ordersList⟩)

theorem inorderNodes_run {h : Heap RbtNode} {NIL p : Addr} {t : BookTree} (ht : Stored h NIL p t)
    (hnil : NIL ∉ addrs t) {fuel : Nat} (hfuel : t.size < fuel) :
    ∃ nodes, inorderNodes h NIL fuel (rootAddr NIL t) = some nodes ∧
      nodes.map bindingOf = t.toList := by
  induction t generalizing p fuel with
  | nil =>
    obtain ⟨fuel, rfl⟩ : ∃ k, fuel = k + 1 := ⟨fuel - 1, by omega⟩
    exact ⟨[], by simp [inorderNodes], rfl⟩
  | node c l k v r ihl ihr =>
    obtain ⟨fuel, rfl⟩ : ∃ k, fuel = k + 1 := ⟨fuel - 1, by omega⟩
    rw [ColorTree.size_node] at hfuel
    obtain ⟨hv, hl, hr⟩ := ht
    simp only [mem_addrs_node, not_or] at hnil
    obtain ⟨hnl, hne, hnr⟩ := hnil
    obtain ⟨ns, hns, hnsl⟩ := ihl hl hnl (show l.size < fuel by omega)
    obtain ⟨ms, hms, hmsr⟩ := ihr hr hnr (show r.size < fuel by omega)
    refine ⟨_, by simp only [inorderNodes, rootAddr_node, if_neg (Ne.symm hne), hv, hns, hms,
      Option.bind_eq_bind, Option.bind_some]; rfl, ?_⟩
    rw [List.map_append, List.map_cons, hnsl, hmsr]
    rfl

/-- The walk of a tree in a forest: increasing keys, and a list for each node that no other
node has. The visit of a range folds over the nodes of the walk in the range. -/
theorem Forest.visit {ι : Type*} {m : RbHeap} {root : ι → Addr} {T : ι → BookTree}
    {L : Addr → Option Queue} (F : Forest m root T L) (i : ι) :
    ∃ nodes, inorderNodes m.nodes m.NIL m.nodes.next (root i) = some nodes ∧
      nodes.map bindingOf = (T i).toList ∧
      (nodes.map (·.2.key)).Pairwise (· < ·) ∧ m.NIL ∉ nodes.map Prod.fst ∧
      (nodes.map (·.2.ordersList)).Nodup ∧
      ∀ (lowKey highKey : Nat) {σ : Type} (visitor : Addr → σ → Option σ) (s : σ),
        rbtVisitNodesInRange m.nodes m.NIL lowKey highKey visitor m.nodes.next (root i) s =
          (nodes.filter fun x => lowKey ≤ x.2.key ∧ x.2.key ≤ highKey).foldlM
            (fun s x => visitor x.2.ordersList s) s := by
  have H := F.tree i
  obtain ⟨nodes, hrun, hnodes⟩ := inorderNodes_run H.stored H.nil H.size_lt
  have ho := F.ordered i
  rw [Ordered, ← hnodes, List.pairwise_map] at ho
  refine ⟨nodes, by rw [H.root, hrun], hnodes, List.pairwise_map.mpr ho, ?_, ?_, ?_⟩
  · have hnil := H.nil
    rwa [addrs, ← hnodes, List.map_map] at hnil
  · -- nodes with one list are one node, and no node occurs twice
    refine List.pairwise_map.mpr (ho.imp_of_mem fun {x y} hx hy hlt heq => ?_)
    have hx' : bindingOf x ∈ (T i).toList := hnodes ▸ List.mem_map_of_mem hx
    have hy' : bindingOf y ∈ (T i).toList := hnodes ▸ List.mem_map_of_mem hy
    have := (F.own hx' hy' heq).2
    exact absurd (congrArg Prod.fst this) hlt.ne
  · intro lowKey highKey σ visitor s
    rw [H.root, rbtVisitNodesInRange_run (F.ordered i) H.stored H.nil lowKey highKey visitor
      H.size_lt, ← hnodes, List.filter_map, List.foldlM_map]
    rfl

/-- The keys of the nodes of a walk are the inserted ones. -/
theorem RunInv.mem_keys_walk {ops : List TreeOp} {s : Trees} {T : Nat → BookTree}
    {L : Addr → Option Queue} {ns : List Addr} (h : RunInv ops s T L ns) {i : Nat}
    {nodes : List (Addr × RbtNode)} (hnodes : nodes.map bindingOf = (T i).toList) (k : Nat) :
    k ∈ nodes.map (·.2.key) ↔ ∃ e ∈ inserts ops, e.tree = i ∧ e.key = k := by
  rw [← mem_keys_pushed h.length, ← h.levels, keys_levels, ← hnodes, List.map_map]
  rfl

/-- In every tree that insertions build, a visit calls the visitor on the lists of the nodes of
the in-order walk with keys in the range, one after another. The walk holds the inserted keys,
each once and in increasing order, and neither the sentinel nor a list twice. -/
theorem treeRun_visit (ops : List TreeOp) (hops : OnTrees 0 ops) :
    ∃ s, treeRun ops = some s ∧ ∀ i root, s.roots[i]? = some root →
      ∃ nodes, inorderNodes s.mem.nodes s.mem.NIL s.mem.nodes.next root = some nodes ∧
        (∀ k, k ∈ nodes.map (·.2.key) ↔ ∃ e ∈ inserts ops, e.tree = i ∧ e.key = k) ∧
        (nodes.map (·.2.key)).Pairwise (· < ·) ∧ s.mem.NIL ∉ nodes.map Prod.fst ∧
        (nodes.map (·.2.ordersList)).Nodup ∧
        ∀ (lowKey highKey : Nat) {σ : Type} (visitor : Addr → σ → Option σ) (world : σ),
          rbtVisitNodesInRange s.mem.nodes s.mem.NIL lowKey highKey visitor s.mem.nodes.next root
              world =
            (nodes.filter fun x => lowKey ≤ x.2.key ∧ x.2.key ≤ highKey).foldlM
              (fun world x => visitor x.2.ordersList world) world := by
  obtain ⟨s, hrun, hs⟩ := runInv_of_root hops
  refine ⟨s, hrun, fun i root hroot => ?_⟩
  obtain ⟨rfl, T, L, ns, h⟩ := hs i root hroot
  obtain ⟨nodes, hwalk, hnodes, hlt, hnil, hnd, hvisit⟩ := h.forest.visit i
  exact ⟨nodes, hwalk, h.mem_keys_walk hnodes, hlt, hnil, hnd, hvisit⟩

/-- Three keys, one of them inserted twice, and a visitor that records the lists it is called on. -/
theorem treeRun_visit_four_keys : ∃ s nodes, treeRun [.init 0, .insert ⟨0, 5, 1, true⟩,
      .insert ⟨0, 3, 2, true⟩, .insert ⟨0, 7, 3, false⟩, .insert ⟨0, 5, 4, true⟩] = some s ∧
    s.roots[0]? = some 2 ∧ inorderNodes s.mem.nodes s.mem.NIL s.mem.nodes.next 2 = some nodes ∧
    nodes.map (fun x => (x.2.key, x.2.ordersList)) = [(3, 2), (5, 1), (7, 3)] ∧
    rbtVisitNodesInRange s.mem.nodes s.mem.NIL 3 5 (fun p ps => some (ps ++ [p]))
      s.mem.nodes.next 2 [] = some [2, 1] := by
  have hwalk : (treeRun [.init 0, .insert ⟨0, 5, 1, true⟩, .insert ⟨0, 3, 2, true⟩,
      .insert ⟨0, 7, 3, false⟩, .insert ⟨0, 5, 4, true⟩]).bind (fun s =>
        (inorderNodes s.mem.nodes s.mem.NIL s.mem.nodes.next 2).map fun nodes =>
          (s.roots[0]?, nodes.map fun x => (x.2.key, x.2.ordersList))) =
      some (some 2, [(3, 2), (5, 1), (7, 3)]) := by decide +kernel
  obtain ⟨s, hrun, h⟩ := treeRun_visit [.init 0, .insert ⟨0, 5, 1, true⟩,
    .insert ⟨0, 3, 2, true⟩, .insert ⟨0, 7, 3, false⟩, .insert ⟨0, 5, 4, true⟩] (by decide)
  rw [hrun, Option.bind_some] at hwalk
  obtain ⟨nodes, hnodes, heq⟩ := Option.map_eq_some_iff.mp hwalk
  obtain ⟨hroot, hlists⟩ := Prod.mk.inj heq
  obtain ⟨nodes', hnodes', -, -, -, -, hvisit⟩ := h 0 2 hroot
  obtain rfl := Option.some.inj (hnodes'.symm.trans hnodes)
  refine ⟨s, nodes', hrun, hroot, hnodes, hlists, (hvisit 3 5 _ []).trans ?_⟩
  have hfold : (nodes'.filter fun x => 3 ≤ x.2.key ∧ x.2.key ≤ 5).foldlM
      (fun ps x => some (ps ++ [x.2.ordersList])) [] =
    ((nodes'.map fun x => (x.2.key, x.2.ordersList)).filter fun x => 3 ≤ x.1 ∧ x.1 ≤ 5).foldlM
      (fun ps x => some (ps ++ [x.2])) [] := by
    rw [List.filter_map, List.foldlM_map]
    rfl
  rw [hfold, hlists]
  decide

end TradeServer
