import TradeServer.DataStructures.RbTreeForest

/-!
# Runs of insertions into any number of trees

A run starts in an empty memory, creates trees with `rbt_init` and inserts into
them in any interleaving. `RunInv` joins the forest invariant with the list nodes
that the insertions created, and gives the shape of every tree and the contents of
every queue at once.
-/

namespace TradeServer

open Library

structure Insert where
  tree : Nat
  key : Nat
  data : Addr
  callback : Bool
  deriving DecidableEq

inductive TreeOp where
  | init (unset : Nat)
  | insert (e : Insert)

/-- The memory, the roots of the trees created so far, and the calls of the callback. -/
structure Trees where
  mem : RbHeap
  roots : List Addr
  calls : List (Addr × Addr)

def Trees.start : Trees := ⟨.empty, [], []⟩

/-- The callback of the runs records its arguments. -/
def recordCall : DataCallback (List (Addr × Addr)) := fun data node calls =>
  some (calls ++ [(data, node)])

def treeStep (s : Trees) : TreeOp → Option Trees
  | .init unset =>
    let (m, root) := rbtInit unset s.mem
    some { s with mem := m, roots := s.roots ++ [root] }
  | .insert e => do
    let root ← s.roots[e.tree]?
    let (m, root, calls) ←
      rbtInsert s.mem root e.key e.data (if e.callback then some recordCall else none) s.calls
    some ⟨m, s.roots.set e.tree root, calls⟩

def treeRun (ops : List TreeOp) : Option Trees := ops.foldlM treeStep .start

def TreeOp.isInit : TreeOp → Bool
  | .init _ => true
  | .insert _ => false

def inits (ops : List TreeOp) : Nat := ops.countP TreeOp.isInit

def inserts (ops : List TreeOp) : List Insert :=
  ops.filterMap fun
    | .init _ => none
    | .insert e => some e

/-- Every insertion is into a tree created before it, `n` trees being there at the start. -/
def OnTrees : Nat → List TreeOp → Prop
  | _, [] => True
  | n, .init _ :: ops => OnTrees (n + 1) ops
  | n, .insert e :: ops => e.tree < n ∧ OnTrees n ops

instance decidableOnTrees : ∀ n ops, Decidable (OnTrees n ops)
  | _, [] => inferInstanceAs (Decidable True)
  | n, .init _ :: ops => decidableOnTrees (n + 1) ops
  | n, .insert e :: ops =>
    have := decidableOnTrees n ops
    inferInstanceAs (Decidable (e.tree < n ∧ OnTrees n ops))

/-- The prices and queues that the insertions into tree `i` make, each with its list node. -/
def pushed (i : Nat) (es : List (Insert × Addr)) : Levels Nat (Addr × Addr) :=
  Levels.pushAll ((es.filter (·.1.tree = i)).map fun e => (e.1.key, (e.2, e.1.data)))

/-- The calls that the insertions make. -/
def calledBack (es : List (Insert × Addr)) : List (Addr × Addr) :=
  (es.filter (·.1.callback)).map fun e => (e.1.data, e.2)

theorem onTrees_append {n : Nat} {ops : List TreeOp} {op : TreeOp} :
    OnTrees n (ops ++ [op]) ↔
      OnTrees n ops ∧ ∀ e, op = .insert e → e.tree < n + inits ops := by
  induction ops generalizing n with
  | nil => cases op <;> simp [OnTrees, inits]
  | cons o ops ih =>
    cases o with
    | init unset =>
      simp only [List.cons_append, OnTrees, ih, inits, List.countP_cons, TreeOp.isInit, if_true]
      simp only [Nat.add_comm 1, Nat.add_left_comm n, Nat.add_assoc]
    | insert e =>
      simp [OnTrees, ih, inits, TreeOp.isInit, and_assoc]

theorem inits_append (ops : List TreeOp) (op : TreeOp) :
    inits (ops ++ [op]) = inits ops + if op.isInit then 1 else 0 := by
  simp [inits, List.countP_append, List.countP_cons]

theorem inserts_append (ops ops' : List TreeOp) :
    inserts (ops ++ ops') = inserts ops ++ inserts ops' := List.filterMap_append

theorem treeRun_append (ops : List TreeOp) (op : TreeOp) :
    treeRun (ops ++ [op]) = (treeRun ops).bind (treeStep · op) := by
  simp [treeRun, List.foldlM_append]

/-- The root of tree `i`; `NIL` past the last tree. -/
def Trees.root (s : Trees) (i : Nat) : Addr := s.roots.getD i s.mem.NIL

/-- The state after a run that created a tree. -/
structure RunInv (ops : List TreeOp) (s : Trees) (T : Nat → BookTree) (L : Addr → Option Queue)
    (nodes : List Addr) : Prop where
  forest : Forest s.mem s.root T L
  /-- `NIL` is what the first call of `rbt_init` made it. -/
  nil : ∃ unset rest, ops = .init unset :: rest ∧
    s.mem.nodes.load s.mem.NIL = some ⟨unset, NULL, .black, NULL, NULL, NULL⟩
  count : s.roots.length = inits ops
  length : nodes.length = (inserts ops).length
  levels : ∀ i, levels L (T i) = pushed i ((inserts ops).zip nodes)
  calls : s.calls = calledBack ((inserts ops).zip nodes)

theorem forest_rbtInit (unset : Nat) (ι : Type*) :
    Forest (ι := ι) (rbtInit unset .empty).1 (fun _ => (rbtInit unset .empty).2) (fun _ => .nil)
      (fun _ => none) where
  nilBlack := ⟨unset, rfl⟩
  tree _ := treeAt_nil _ _
  disjoint _ := by simp
  redBlack _ := ColorTree.redBlack_nil
  ordered _ := List.Pairwise.nil
  queues := queues_empty
  listed h := by simp at h
  own h := by simp at h

theorem Forest.nil_ne_null {ι : Type*} {m : RbHeap} {root : ι → Addr} {T : ι → BookTree}
    {L : Addr → Option Queue} (F : Forest m root T L) : m.NIL ≠ NULL := by
  obtain ⟨unset, hN⟩ := F.nilBlack
  exact Heap.ne_null_of_load hN

theorem pushed_append (i : Nat) (es : List (Insert × Addr)) (e : Insert) (n : Addr) :
    pushed i (es ++ [(e, n)]) =
      if e.tree = i then (pushed i es).push e.key (n, e.data) else pushed i es := by
  by_cases h : e.tree = i <;> simp [pushed, h, Levels.pushAll_concat]

theorem calledBack_append (es : List (Insert × Addr)) (e : Insert) (n : Addr) :
    calledBack (es ++ [(e, n)]) =
      if e.callback then calledBack es ++ [(e.data, n)] else calledBack es := by
  by_cases h : e.callback <;> simp [calledBack, h]

/-- `rbt_init` after the first call only hands out `NIL` again. -/
theorem RunInv.init {ops : List TreeOp} {s : Trees} {T : Nat → BookTree} {L : Addr → Option Queue}
    {nodes : List Addr} (h : RunInv ops s T L nodes) (unset : Nat) :
    ∃ s', treeStep s (.init unset) = some s' ∧ s'.mem = s.mem ∧ s'.root = s.root ∧
      RunInv (ops ++ [.init unset]) s' T L nodes := by
  have hinit : rbtInit unset s.mem = (s.mem, s.mem.NIL) := by
    simp [rbtInit, h.forest.nil_ne_null]
  have hroot : (⟨s.mem, s.roots ++ [s.mem.NIL], s.calls⟩ : Trees).root = s.root := by
    funext i
    simp only [Trees.root, List.getD_eq_getElem?_getD]
    rcases lt_trichotomy i s.roots.length with hi | hi | hi
    · rw [List.getElem?_append_left hi]
    · subst hi
      simp
    · rw [List.getElem?_eq_none (by simp; omega), List.getElem?_eq_none (by omega)]
  refine ⟨⟨s.mem, s.roots ++ [s.mem.NIL], s.calls⟩, by simp [treeStep, hinit], rfl, hroot, ?_⟩
  have hins : inserts (ops ++ [.init unset]) = inserts ops := by
    rw [inserts_append]
    simp [inserts]
  refine ⟨by rw [hroot]; exact h.forest, ?_, ?_, ?_, ?_, ?_⟩
  · obtain ⟨unset', rest, rfl, hN⟩ := h.nil
    exact ⟨unset', rest ++ [.init unset], rfl, hN⟩
  · simp [inits_append, TreeOp.isInit, h.count]
  · rw [hins]
    exact h.length
  · rw [hins]
    exact h.levels
  · rw [hins]
    exact h.calls

/-- One insertion into one tree. -/
theorem RunInv.insert {ops : List TreeOp} {s : Trees} {T : Nat → BookTree}
    {L : Addr → Option Queue} {nodes : List Addr} (h : RunInv ops s T L nodes) {e : Insert}
    (he : e.tree < inits ops) :
    ∃ s' T' L' n, treeStep s (.insert e) = some s' ∧
      Forest.Inserted s.mem s'.mem s.root s'.root T T' L L' e.tree e.key e.data n ∧
      RunInv (ops ++ [.insert e]) s' T' L' (nodes ++ [n]) := by
  have hlt : e.tree < s.roots.length := by rw [h.count]; exact he
  have hroot : s.roots[e.tree]? = some (s.root e.tree) := by
    simp [Trees.root, hlt]
  obtain ⟨m', root', T', L', n, hins, hI⟩ := h.forest.insert e.tree e.key e.data
    (if e.callback then some recordCall else none) s.calls
  have hcalls : callbackResult (if e.callback then some recordCall else none) e.data n s.calls =
      some (if e.callback then s.calls ++ [(e.data, n)] else s.calls) := by
    cases e.callback <;> rfl
  rw [hcalls, Option.map_some] at hins
  have hset : (⟨m', s.roots.set e.tree (root' e.tree),
      if e.callback then s.calls ++ [(e.data, n)] else s.calls⟩ : Trees).root = root' := by
    funext i
    by_cases hi : i = e.tree
    · subst hi
      simp [Trees.root, hlt]
    · rw [(hI.tree_other i hi).2.1]
      simp [Trees.root, Ne.symm hi, hI.nil.1]
  refine ⟨⟨m', s.roots.set e.tree (root' e.tree), _⟩, T', L', n, ?_, hset ▸ hI, ?_⟩
  · simp only [treeStep, hroot, Option.bind_eq_bind, Option.bind_some, hins]
  have hinserts : inserts (ops ++ [.insert e]) = inserts ops ++ [e] := by
    rw [inserts_append]
    rfl
  have hzip : (inserts (ops ++ [.insert e])).zip (nodes ++ [n]) =
      (inserts ops).zip nodes ++ [(e, n)] := by
    rw [hinserts, List.zip_append h.length.symm]
    rfl
  refine ⟨by rw [hset]; exact hI.forest, ?_, ?_, ?_, fun i => ?_, ?_⟩
  · obtain ⟨unset, rest, rfl, hN⟩ := h.nil
    refine ⟨unset, rest ++ [.insert e], rfl, ?_⟩
    show m'.nodes.load m'.NIL = _
    rw [hI.nil.1, hI.nil.2, hN]
  · simp [inits_append, TreeOp.isInit, h.count]
  · simp [hinserts, h.length]
  · rw [hzip, pushed_append]
    by_cases hi : e.tree = i
    · subst hi
      rw [if_pos rfl, hI.levels_self, h.levels]
    · rw [if_neg hi, hI.levels_other i (Ne.symm hi), h.levels]
  · rw [hzip, calledBack_append, ← h.calls]

/-- Every run on existing trees succeeds and ends in a state that the invariant describes. -/
theorem runInv_treeRun {ops : List TreeOp} (hops : OnTrees 0 ops) :
    ∃ s, treeRun ops = some s ∧
      (ops = [] ∧ s = .start ∨ ∃ T L nodes, RunInv ops s T L nodes) := by
  induction ops using List.reverseRecOn with
  | nil => exact ⟨.start, rfl, .inl ⟨rfl, rfl⟩⟩
  | append_singleton ops op ih =>
    obtain ⟨hops, hop⟩ := onTrees_append.mp hops
    obtain ⟨s, hrun, hs⟩ := ih hops
    rw [treeRun_append, hrun, Option.bind_some]
    cases op with
    | init unset =>
      rcases hs with ⟨rfl, rfl⟩ | ⟨T, L, nodes, h⟩
      · refine ⟨_, rfl, .inr ⟨fun _ => .nil, fun _ => none, [], ?_, ⟨unset, [], rfl, rfl⟩, rfl, rfl,
          fun i => rfl, rfl⟩⟩
        have hroot : (⟨(rbtInit unset .empty).1, [(rbtInit unset .empty).2], []⟩ : Trees).root =
            fun _ => (rbtInit unset .empty).2 := by
          funext i
          cases i <;> rfl
        exact hroot ▸ forest_rbtInit unset Nat
      · obtain ⟨s', hstep, -, -, h'⟩ := h.init unset
        exact ⟨s', hstep, .inr ⟨T, L, nodes, h'⟩⟩
    | insert e =>
      have he := hop e rfl
      rw [Nat.zero_add] at he
      rcases hs with ⟨rfl, -⟩ | ⟨T, L, nodes, h⟩
      · simp [inits] at he
      · obtain ⟨s', T', L', n, hstep, -, h'⟩ := h.insert he
        exact ⟨s', hstep, .inr ⟨T', L', nodes ++ [n], h'⟩⟩

/-- Every tree of a run belongs to one that meets the invariant. -/
theorem runInv_of_root {ops : List TreeOp} (hops : OnTrees 0 ops) :
    ∃ s, treeRun ops = some s ∧ ∀ (i : Nat) (root : Addr), s.roots[i]? = some root →
      s.root i = root ∧ ∃ T L nodes, RunInv ops s T L nodes := by
  obtain ⟨s, hrun, hs⟩ := runInv_treeRun hops
  refine ⟨s, hrun, fun i root hroot => ⟨by simp [Trees.root, hroot], ?_⟩⟩
  rcases hs with ⟨-, rfl⟩ | h
  · simp [Trees.start] at hroot
  · exact h

/-! ## Balance -/

/-- What the source promises of one tree that holds the keys `ks`. -/
structure WellShaped (m : RbHeap) (root : Addr) (ks : Finset Nat) (t : BookTree) : Prop where
  treeAt : TreeAt m.nodes m.NIL root t
  ordered : Ordered t
  keys : (t.toList.map Prod.fst).toFinset = ks
  redBlack : t.RedBlack
  height : (t.height : ℝ) ≤ 2 * Real.logb 2 (ks.card + 1)

/-- The keys inserted into tree `i`. -/
def keysOf (i : Nat) (ops : List TreeOp) : Finset Nat :=
  (((inserts ops).filter (·.tree = i)).map Insert.key).toFinset

theorem nodup_keys_of_ordered {t : BookTree} (h : Ordered t) : (t.toList.map Prod.fst).Nodup :=
  List.pairwise_map.mpr (h.imp fun hlt => hlt.ne)

theorem mem_keys_pushed {i k : Nat} {es : List Insert} {nodes : List Addr}
    (hlen : nodes.length = es.length) :
    k ∈ (pushed i (es.zip nodes)).keys ↔ ∃ e ∈ es, e.tree = i ∧ e.key = k := by
  have hfst : (es.zip nodes).map Prod.fst = es := List.map_fst_zip (by omega)
  simp only [pushed, Levels.mem_keys_pushAll, List.mem_map, List.mem_filter, decide_eq_true_eq]
  constructor
  · rintro ⟨x, ⟨y, ⟨hy, hi⟩, rfl⟩, rfl⟩
    exact ⟨y.1, by rw [← hfst]; exact List.mem_map_of_mem hy, hi, rfl⟩
  · rintro ⟨e, he, hi, rfl⟩
    rw [← hfst, List.mem_map] at he
    obtain ⟨y, hy, rfl⟩ := he
    exact ⟨_, ⟨y, ⟨hy, hi⟩, rfl⟩, rfl⟩

theorem RunInv.wellShaped {ops : List TreeOp} {s : Trees} {T : Nat → BookTree}
    {L : Addr → Option Queue} {nodes : List Addr} (h : RunInv ops s T L nodes) {i : Nat}
    {root : Addr} (hroot : s.roots[i]? = some root) :
    WellShaped s.mem root (keysOf i ops) (T i) := by
  have hr : s.root i = root := by simp [Trees.root, hroot]
  have hkeys : ((T i).toList.map Prod.fst).toFinset = keysOf i ops := by
    ext k
    rw [← keys_levels L, h.levels, List.mem_toFinset, mem_keys_pushed h.length]
    simp [keysOf, and_assoc]
  refine ⟨hr ▸ h.forest.tree i, h.forest.ordered i, hkeys, h.forest.redBlack i, ?_⟩
  have hcard : (keysOf i ops).card = (T i).size := by
    rw [← hkeys, List.toFinset_card_of_nodup (nodup_keys_of_ordered (h.forest.ordered i)),
      List.length_map]
    rfl
  rw [hcard]
  exact (h.forest.redBlack i).height_le_logb

/-- In every run every tree is a red-black tree over the keys inserted into it, `NIL` is as
`rbt_init` made it, and an insertion touches no node of another tree. -/
theorem treeRun_redBlack (ops : List TreeOp) (hops : OnTrees 0 ops) :
    ∃ (s : Trees) (T : Nat → BookTree), treeRun ops = some s ∧
      (∀ unset rest, ops = .init unset :: rest →
        s.mem.nodes.load s.mem.NIL = some ⟨unset, NULL, .black, NULL, NULL, NULL⟩) ∧
      (∀ i root, s.roots[i]? = some root → WellShaped s.mem root (keysOf i ops) (T i)) ∧
      (∀ i j, i ≠ j → (addrs (T i)).Disjoint (addrs (T j))) ∧
      ∀ e s', treeStep s (.insert e) = some s' → ∀ j, j ≠ e.tree →
        s'.roots[j]? = s.roots[j]? ∧
          ∀ p ∈ addrs (T j), s'.mem.nodes.load p = s.mem.nodes.load p := by
  obtain ⟨s, hrun, hs⟩ := runInv_treeRun hops
  rcases hs with ⟨rfl, rfl⟩ | ⟨T, L, nodes, h⟩
  · refine ⟨.start, fun _ => .nil, hrun, by simp, by simp [Trees.start], by simp, ?_⟩
    · intro e s' hstep
      simp [treeStep, Trees.start] at hstep
  · refine ⟨s, T, hrun, ?_, fun i root hroot => h.wellShaped hroot,
      fun i j hij => h.forest.disjoint hij, ?_⟩
    · rintro unset rest rfl
      obtain ⟨unset', rest', heq, hN⟩ := h.nil
      cases heq
      exact hN
    · intro e s' hstep j hj
      have he : e.tree < inits ops := by
        by_contra hc
        rw [← h.count, not_lt] at hc
        simp [treeStep, hc] at hstep
      obtain ⟨s'', T', L', n, hstep', hI, -⟩ := h.insert he
      obtain rfl := Option.some.inj (hstep'.symm.trans hstep)
      refine ⟨?_, (hI.tree_other j hj).2.2⟩
      simp only [treeStep, Option.bind_eq_bind, Option.bind_eq_some_iff, Option.some.injEq]
        at hstep
      obtain ⟨root, -, ⟨m, root', calls⟩, -, rfl⟩ := hstep
      simp [Ne.symm hj]

/-- Two trees, inserted into in turns. -/
theorem treeRun_redBlack_interleaved :
    ∃ (s : Trees) (T : Nat → BookTree), treeRun
        [.init 0, .init 0, .insert ⟨0, 5, 1, true⟩, .insert ⟨1, 5, 2, true⟩,
        .insert ⟨0, 7, 3, false⟩, .insert ⟨0, 9, 4, true⟩] = some s ∧
      ∀ i root, s.roots[i]? = some root → (T i).RedBlack ∧ Ordered (T i) := by
  obtain ⟨s, T, hrun, -, h, -⟩ := treeRun_redBlack [.init 0, .init 0, .insert ⟨0, 5, 1, true⟩,
    .insert ⟨1, 5, 2, true⟩, .insert ⟨0, 7, 3, false⟩, .insert ⟨0, 9, 4, true⟩] (by decide)
  exact ⟨s, T, hrun, fun i root hroot => ⟨(h i root hroot).redBlack, (h i root hroot).ordered⟩⟩

/-! ## Order of service -/

theorem listItems_run {h : Heap DllNode} {prev : Addr} {xs : List (Addr × Addr)}
    (s : Seg DllNode.mk h prev xs NULL) {fuel : Nat} (hfuel : xs.length < fuel) :
    listItems h fuel (firstOr NULL xs) = some xs := by
  induction xs generalizing prev fuel with
  | nil =>
    obtain ⟨fuel, rfl⟩ : ∃ k, fuel = k + 1 := ⟨fuel - 1, by omega⟩
    simp [listItems]
  | cons x xs ih =>
    obtain ⟨a, d⟩ := x
    obtain ⟨fuel, rfl⟩ : ∃ k, fuel = k + 1 := ⟨fuel - 1, by omega⟩
    obtain ⟨ha, hrest⟩ := s
    have := @ih a hrest fuel (by simp at hfuel; omega)
    simp [listItems, Heap.ne_null_of_load ha, ha, this]

/-- The walk over the nodes of one list, the dummy first. -/
theorem Queues.listItems {m : DlHeap} {L : Addr → Option Queue} (hQ : Queues m L) {p : Addr}
    {q : Queue} (hp : L p = some q) : TradeServer.listItems m.nodes m.nodes.next q.head =
      some q.cells := by
  have hs := hQ.stored hp
  have hlive : ∀ a ∈ q.nodes, m.nodes.load a ≠ none := fun a ha => by
    obtain ⟨n, hn⟩ := hs.live ha
    simp [hn]
  have hlen := Heap.length_lt_next hs.nodup hlive
  exact listItems_run hs.seg (by simpa [Queue.nodes] using hlen)

theorem inorder_run {m : RbHeap} {L : Addr → Option Queue} (hQ : Queues m.dl L)
    (select : List (Addr × Addr) → List (Addr × Addr)) {p : Addr} {t : BookTree}
    (ht : Stored m.nodes m.NIL p t) (hnil : m.NIL ∉ addrs t)
    (hL : ∀ b ∈ t.toList, ∃ q, L b.2.list = some q) {fuel : Nat} (hfuel : t.size < fuel) :
    inorder select m fuel (rootAddr m.NIL t) =
      some (t.toList.map fun b => (b.1, (L b.2.list).elim [] fun q => select q.cells)) := by
  induction t generalizing p fuel with
  | nil =>
    obtain ⟨fuel, rfl⟩ : ∃ k, fuel = k + 1 := ⟨fuel - 1, by omega⟩
    simp [inorder]
  | node c l k v r ihl ihr =>
    obtain ⟨fuel, rfl⟩ : ∃ k, fuel = k + 1 := ⟨fuel - 1, by omega⟩
    rw [ColorTree.size_node] at hfuel
    obtain ⟨hv, hl, hr⟩ := ht
    simp only [mem_addrs_node, not_or] at hnil
    obtain ⟨hnl, hne, hnr⟩ := hnil
    have hll := @ihl _ hl hnl (fun b hb => hL b (by simp [hb])) fuel (by omega)
    have hrr := @ihr _ hr hnr (fun b hb => hL b (by simp [hb])) fuel (by omega)
    obtain ⟨q, hq⟩ := hL (k, v) (by simp)
    simp only [inorder, rootAddr_node, if_neg (Ne.symm hne), hv, hll, (hQ.stored hq).list,
      hQ.listItems hq, hrr, Option.bind_eq_bind, Option.bind_some, ColorTree.toList_node,
      List.map_append, List.map_cons, hq, Option.elim_some]

/-- The walk behind the dummy heads reads the levels of a tree. -/
theorem Forest.inorder_tail {ι : Type*} {m : RbHeap} {root : ι → Addr} {T : ι → BookTree}
    {L : Addr → Option Queue} (F : Forest m root T L) (i : ι) :
    inorder List.tail m m.nodes.next (root i) = some (levels L (T i)) := by
  rw [(F.tree i).root]
  exact inorder_run F.queues List.tail (F.tree i).stored (F.tree i).nil (fun b hb => F.listed hb)
    (F.tree i).size_lt

/-- `rbt_inorder` prints the levels of a tree without null data. -/
theorem Forest.rbtInorder {ι : Type*} {m : RbHeap} {root : ι → Addr} {T : ι → BookTree}
    {L : Addr → Option Queue} (F : Forest m root T L) (i : ι) :
    TradeServer.rbtInorder m m.nodes.next (root i) =
      some ((levels L (T i)).map fun l => (l.1, l.2.filter (·.2 ≠ NULL))) := by
  rw [(F.tree i).root, TradeServer.rbtInorder, inorder_run F.queues _ (F.tree i).stored
    (F.tree i).nil (fun b hb => F.listed hb) (F.tree i).size_lt, levels, List.map_map]
  refine congrArg some (List.map_congr_left fun b hb => ?_)
  obtain ⟨q, hq⟩ := F.listed hb
  simp [hq, Queue.cells]

/-- In every run a walk yields the distinct keys of a tree in increasing order, each with its
data in the order of insertion. The callback ran once for each insertion that has one, with the
data and the list node that holds it at the end of the run. -/
theorem treeRun_fifo (ops : List TreeOp) (hops : OnTrees 0 ops) :
    ∃ (s : Trees) (nodes : List Addr), treeRun ops = some s ∧ nodes.length = (inserts ops).length ∧
      s.calls = calledBack ((inserts ops).zip nodes) ∧
      ∀ i root, s.roots[i]? = some root →
        ∃ W, inorder List.tail s.mem s.mem.nodes.next root = some W ∧ W.Sorted ∧
          (∀ k, k ∈ W.keys ↔ ∃ e ∈ inserts ops, e.tree = i ∧ e.key = k) ∧
          (∀ k, W.get k = (((inserts ops).zip nodes).filter
            fun e => e.1.tree = i ∧ e.1.key = k).map fun e => (e.2, e.1.data)) ∧
          rbtInorder s.mem s.mem.nodes.next root =
            some (W.map fun l => (l.1, l.2.filter (·.2 ≠ NULL))) := by
  obtain ⟨s, hrun, hs⟩ := runInv_treeRun hops
  rcases hs with ⟨rfl, rfl⟩ | ⟨T, L, nodes, h⟩
  · exact ⟨.start, [], hrun, rfl, rfl, by simp [Trees.start]⟩
  · refine ⟨s, nodes, hrun, h.length, h.calls, fun i root hroot => ?_⟩
    have hr : s.root i = root := by simp [Trees.root, hroot]
    refine ⟨levels L (T i), hr ▸ h.forest.inorder_tail i, levels_sorted (h.forest.ordered i),
      fun k => ?_, fun k => ?_, hr ▸ h.forest.rbtInorder i⟩
    · rw [h.levels, mem_keys_pushed h.length]
    · rw [h.levels, pushed, Levels.get_pushAll, List.filter_map, List.map_map, List.filter_filter]
      simp only [Function.comp_def, Bool.decide_and, Bool.and_comm]

/-- Three orders at one price and one at another price. -/
theorem treeRun_fifo_same_price :
    ∃ (s : Trees) (nodes : List Addr), treeRun
        [.init 0, .insert ⟨0, 5, 1, true⟩, .insert ⟨0, 3, 2, true⟩,
        .insert ⟨0, 5, 3, true⟩, .insert ⟨0, 5, 1, true⟩] = some s ∧
      s.calls.map Prod.snd = nodes ∧
      ∀ root, s.roots[0]? = some root →
        ∃ W, inorder List.tail s.mem s.mem.nodes.next root = some W ∧ W.Sorted := by
  obtain ⟨s, nodes, hrun, hlen, hcalls, h⟩ := treeRun_fifo [.init 0, .insert ⟨0, 5, 1, true⟩,
    .insert ⟨0, 3, 2, true⟩, .insert ⟨0, 5, 3, true⟩, .insert ⟨0, 5, 1, true⟩] (by decide)
  refine ⟨s, nodes, hrun, ?_, fun root hroot => ?_⟩
  · obtain ⟨a, b, c, d, rfl⟩ : ∃ a b c d, nodes = [a, b, c, d] := by
      match nodes, hlen with
      | [a, b, c, d], _ => exact ⟨a, b, c, d, rfl⟩
    rw [hcalls]
    rfl
  · obtain ⟨W, hW, hsorted, -⟩ := h 0 root hroot
    exact ⟨W, hW, hsorted⟩

end TradeServer
