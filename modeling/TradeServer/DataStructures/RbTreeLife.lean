import TradeServer.DataStructures.RbTreeAccount

/-!
# Runs that destroy trees

A run creates trees, inserts into them and destroys them, in any interleaving. The objects
that are live at its end are exactly those of the trees that are left and the sentinel.
-/

namespace TradeServer

open Library Heap

/-! ## Runs -/

inductive LifeOp where
  | tree (op : TreeOp)
  | destroy (i : Nat)

/-- The root stays with the caller, who must not use it again. -/
def lifeStep (s : Trees) : LifeOp → Option Trees
  | .tree op => treeStep s op
  | .destroy i => do
    let root ← s.roots[i]?
    let mem ← rbtDestroy s.mem.nodes.next s.mem root
    some { s with mem := mem }

def lifeRun (ops : List LifeOp) : Option Trees := ops.foldlM lifeStep .start

def treeOps (ops : List LifeOp) : List TreeOp :=
  ops.filterMap fun
    | .tree op => some op
    | .destroy _ => none

def destroyed (ops : List LifeOp) : List Nat :=
  ops.filterMap fun
    | .tree _ => none
    | .destroy i => some i

/-- The existing tree that an operation uses. -/
def LifeOp.target : LifeOp → Option Nat
  | .tree (.init _) => none
  | .tree (.insert e) => some e.tree
  | .destroy i => some i

/-- Every tree is used after its creation and before its destruction, `n` trees and the
destroyed ones `ds` being there at the start. -/
def InLife : Nat → List Nat → List LifeOp → Prop
  | _, _, [] => True
  | n, ds, op :: ops =>
    (∀ i ∈ op.target, i < n ∧ i ∉ ds) ∧ InLife (n + inits (treeOps [op])) (destroyed [op] ++ ds) ops

instance decidableInLife : ∀ n ds ops, Decidable (InLife n ds ops)
  | _, _, [] => inferInstanceAs (Decidable True)
  | n, ds, op :: ops =>
    have := decidableInLife (n + inits (treeOps [op])) (destroyed [op] ++ ds) ops
    inferInstanceAs (Decidable (_ ∧ _))

theorem treeOps_append (ops ops' : List LifeOp) :
    treeOps (ops ++ ops') = treeOps ops ++ treeOps ops' := List.filterMap_append

theorem destroyed_append (ops ops' : List LifeOp) :
    destroyed (ops ++ ops') = destroyed ops ++ destroyed ops' := List.filterMap_append

theorem treeOps_append_tree (ops : List LifeOp) (op : TreeOp) :
    treeOps (ops ++ [.tree op]) = treeOps ops ++ [op] := treeOps_append _ _

theorem destroyed_append_tree (ops : List LifeOp) (op : TreeOp) :
    destroyed (ops ++ [.tree op]) = destroyed ops :=
  (destroyed_append _ _).trans (List.append_nil _)

theorem inLife_append {n : Nat} {ds : List Nat} {ops : List LifeOp} {op : LifeOp} :
    InLife n ds (ops ++ [op]) ↔ InLife n ds ops ∧
      ∀ i ∈ op.target, i < n + inits (treeOps ops) ∧ i ∉ ds ∧ i ∉ destroyed ops := by
  induction ops generalizing n ds with
  | nil => simp [InLife, treeOps, destroyed, inits]
  | cons o ops ih =>
    have hinits : inits (treeOps (o :: ops)) = inits (treeOps [o]) + inits (treeOps ops) := by
      rw [← List.singleton_append, treeOps_append, inits, inits, inits, List.countP_append]
    have hds : ∀ i, i ∈ destroyed (o :: ops) ↔ i ∈ destroyed [o] ∨ i ∈ destroyed ops := by
      intro i
      rw [← List.singleton_append, destroyed_append, List.mem_append]
    rw [List.cons_append, InLife, InLife, ih, and_assoc, hinits]
    refine and_congr_right fun _ => and_congr_right fun _ => forall₂_congr fun i _ => ?_
    rw [hds, List.mem_append, Nat.add_assoc]
    tauto

theorem lifeRun_append (ops : List LifeOp) (op : LifeOp) :
    lifeRun (ops ++ [op]) = (lifeRun ops).bind (lifeStep · op) := by
  simp [lifeRun, List.foldlM_append]

/-- The root of tree `i`, as if it were empty once it is destroyed. -/
def rootLeft (ds : List Nat) (s : Trees) (i : Nat) : Addr :=
  if i ∈ ds then s.mem.NIL else s.root i

/-- The state after a run that created a tree. -/
structure LifeInv (ops : List LifeOp) (s : Trees) (T : Nat → BookTree) (L : Addr → Option Queue)
    (nodes : List Addr) : Prop where
  forest : Forest s.mem (rootLeft (destroyed ops) s) T L
  created : 0 < inits (treeOps ops)
  count : s.roots.length = inits (treeOps ops)
  length : nodes.length = (inserts (treeOps ops)).length
  gone : ∀ i, i ∈ destroyed ops ∨ inits (treeOps ops) ≤ i → T i = .nil
  levels : ∀ i, i ∉ destroyed ops →
    levels L (T i) = pushed i ((inserts (treeOps ops)).zip nodes)
  account : Accounted s.mem (inits (treeOps ops)) fun i => TradeServer.levels L (T i)

theorem Trees.root_append_nil (s : Trees) :
    (⟨s.mem, s.roots ++ [s.mem.NIL], s.calls⟩ : Trees).root = s.root := by
  funext i
  simp only [Trees.root, List.getD_eq_getElem?_getD]
  rcases lt_trichotomy i s.roots.length with hi | rfl | hi
  · rw [List.getElem?_append_left hi]
  · simp
  · rw [List.getElem?_eq_none (by simp; omega), List.getElem?_eq_none (by omega)]

theorem lifeInv_first (unset : Nat) :
    LifeInv [.tree (.init unset)]
      ⟨(rbtInit unset .empty).1, [(rbtInit unset .empty).2], []⟩ (fun _ => .nil) (fun _ => none)
      [] where
  forest := by
    have hroot : rootLeft (destroyed [.tree (.init unset)])
        ⟨(rbtInit unset .empty).1, [(rbtInit unset .empty).2], []⟩ =
          fun _ => (rbtInit unset .empty).2 := by
      funext i
      cases i <;> rfl
    exact hroot ▸ forest_rbtInit unset Nat
  created := Nat.one_pos
  count := rfl
  length := rfl
  gone _ _ := rfl
  levels _ _ := rfl
  account := ⟨rfl, rfl, rfl⟩

namespace LifeInv

variable {ops : List LifeOp} {s : Trees} {T : Nat → BookTree} {L : Addr → Option Queue}
  {nodes : List Addr}

/-- `rbt_init` after the first call only hands out `NIL` again. -/
theorem init (h : LifeInv ops s T L nodes) (unset : Nat) :
    ∃ s', lifeStep s (.tree (.init unset)) = some s' ∧
      LifeInv (ops ++ [.tree (.init unset)]) s' T L nodes := by
  have hinit : rbtInit unset s.mem = (s.mem, s.mem.NIL) := by
    simp [rbtInit, h.forest.nil_ne_null]
  have hds := destroyed_append_tree ops (.init unset)
  have hinits : inits (treeOps (ops ++ [.tree (.init unset)])) = inits (treeOps ops) + 1 := by
    rw [treeOps_append_tree, inits_append]
    rfl
  have hins : inserts (treeOps (ops ++ [.tree (.init unset)])) = inserts (treeOps ops) := by
    rw [treeOps_append_tree, inserts_append]
    exact List.append_nil _
  have hroot : rootLeft (destroyed ops) ⟨s.mem, s.roots ++ [s.mem.NIL], s.calls⟩ =
      rootLeft (destroyed ops) s := by
    funext i
    rw [rootLeft, rootLeft, s.root_append_nil]
  have hempty : T (inits (treeOps ops)) = .nil := h.gone _ (.inr le_rfl)
  refine ⟨⟨s.mem, s.roots ++ [s.mem.NIL], s.calls⟩, by simp [lifeStep, treeStep, hinit], ?_,
    by omega, ?_, ?_, fun i hi => h.gone i ?_, ?_, ?_⟩
  · rw [hds, hroot]
    exact h.forest
  · rw [hinits, ← h.count]
    exact List.length_append
  · rw [hins]
    exact h.length
  · rw [hds, hinits] at hi
    exact hi.imp_right fun hle => by omega
  · rw [hds, hins]
    exact h.levels
  · obtain ⟨h₁, h₂, h₃⟩ := h.account
    rw [hinits]
    refine ⟨?_, ?_, ?_⟩ <;> rw [Finset.sum_range_succ, hempty]
    · exact h₁
    · exact h₂
    · exact h₃

theorem insert (h : LifeInv ops s T L nodes) {e : Insert} (he : e.tree < inits (treeOps ops))
    (hlive : e.tree ∉ destroyed ops) :
    ∃ s' T' L' n, lifeStep s (.tree (.insert e)) = some s' ∧
      LifeInv (ops ++ [.tree (.insert e)]) s' T' L' (nodes ++ [n]) := by
  have hlt : e.tree < s.roots.length := by rw [h.count]; exact he
  have hroot : s.roots[e.tree]? = some (rootLeft (destroyed ops) s e.tree) := by
    simp [rootLeft, hlive, Trees.root, hlt]
  obtain ⟨m', root', T', L', n, hins, hI⟩ := h.forest.insert e.tree e.key e.data
    (if e.callback then some recordCall else none) s.calls
  have hcalls : callbackResult (if e.callback then some recordCall else none) e.data n s.calls =
      some (if e.callback then s.calls ++ [(e.data, n)] else s.calls) := by
    cases e.callback <;> rfl
  rw [hcalls, Option.map_some] at hins
  have ha := h.forest.allocated_insert hins
  rw [← keys_levels L] at ha
  have hds := destroyed_append_tree ops (.insert e)
  have hinits : inits (treeOps (ops ++ [.tree (.insert e)])) = inits (treeOps ops) := by
    rw [treeOps_append_tree, inits_append]
    rfl
  have hinserts : inserts (treeOps (ops ++ [.tree (.insert e)])) =
      inserts (treeOps ops) ++ [e] := by
    rw [treeOps_append_tree, inserts_append]
    rfl
  have hset : rootLeft (destroyed ops) ⟨m', s.roots.set e.tree (root' e.tree),
      if e.callback then s.calls ++ [(e.data, n)] else s.calls⟩ = root' := by
    funext i
    by_cases hi : i = e.tree
    · subst hi
      simp [rootLeft, hlive, Trees.root, hlt]
    · rw [(hI.tree_other i hi).2.1]
      simp [rootLeft, Trees.root, Ne.symm hi, hI.nil.1]
  refine ⟨⟨m', s.roots.set e.tree (root' e.tree),
    if e.callback then s.calls ++ [(e.data, n)] else s.calls⟩, T', L', n, ?_, ?_,
    hinits ▸ h.created, ?_, ?_, ?_, ?_, ?_⟩
  · simp only [lifeStep, treeStep, hroot, Option.bind_eq_bind, Option.bind_some, hins]
  · rw [hds, hset]
    exact hI.forest
  · rw [hinits, ← h.count]
    exact List.length_set
  · rw [hinserts, List.length_append, List.length_append, h.length]
    rfl
  · intro i hi
    rw [hds, hinits] at hi
    have hne : i ≠ e.tree := by
      rintro rfl
      exact hi.elim hlive fun hle => by omega
    rw [(hI.tree_other i hne).1]
    exact h.gone i hi
  · intro i hi
    rw [hds] at hi
    rw [hinserts, List.zip_append h.length.symm, List.zip_cons_cons, List.zip_nil_right,
      pushed_append]
    by_cases hne : e.tree = i
    · subst hne
      rw [if_pos rfl, hI.levels_self, h.levels _ hi]
    · rw [if_neg hne, hI.levels_other i (Ne.symm hne), h.levels _ hi]
  · rw [hinits]
    exact h.account.insert he (levels_sorted (h.forest.ordered _)) ha hI.levels_self hI.levels_other

theorem destroy (h : LifeInv ops s T L nodes) {i : Nat} (hi : i < inits (treeOps ops))
    (hlive : i ∉ destroyed ops) :
    ∃ s' T' L', lifeStep s (.destroy i) = some s' ∧
      LifeInv (ops ++ [.destroy i]) s' T' L' nodes := by
  have hlt : i < s.roots.length := by rw [h.count]; exact hi
  have hroot : s.roots[i]? = some (rootLeft (destroyed ops) s i) := by
    simp [rootLeft, hlive, Trees.root, hlt]
  obtain ⟨m', hrun, D, F⟩ := h.forest.destroy i
  have htree : treeOps (ops ++ [.destroy i]) = treeOps ops :=
    (treeOps_append _ _).trans (List.append_nil _)
  have hds : ∀ j, j ∈ destroyed (ops ++ [.destroy i]) ↔ j ∈ destroyed ops ∨ j = i := fun j => by
    rw [destroyed_append, List.mem_append]
    exact or_congr_right List.mem_singleton
  have hgone : rootLeft (destroyed (ops ++ [.destroy i])) ⟨m', s.roots, s.calls⟩ =
      Function.update (rootLeft (destroyed ops) s) i s.mem.NIL := by
    funext j
    by_cases hj : j = i
    · subst hj
      simp [rootLeft, hds, D.nil]
    · rw [Function.update_of_ne hj]
      simp [rootLeft, hds, hj, D.nil, Trees.root]
  have hlevels : ∀ j, j ≠ i →
      TradeServer.levels (without L (T i)) (Function.update T i .nil j) =
        TradeServer.levels L (T j) := fun j hj => by
    rw [Function.update_of_ne hj]
    exact levels_congr fun b hb => h.forest.without_eq hj hb
  refine ⟨⟨m', s.roots, s.calls⟩, _, _, ?_, hgone ▸ F, htree ▸ h.created, ?_, ?_, fun j hj => ?_,
    fun j hj => ?_, ?_⟩
  · simp only [lifeStep, hroot, Option.bind_eq_bind, Option.bind_some, hrun]
  · rw [htree]
    exact h.count
  · rw [htree]
    exact h.length
  · rw [hds, htree] at hj
    by_cases hji : j = i
    · subst hji
      exact Function.update_self ..
    · rw [Function.update_of_ne hji]
      exact h.gone j (hj.imp_left fun hj => hj.resolve_right hji)
  · rw [hds, not_or] at hj
    rw [hlevels j hj.2, htree]
    exact h.levels j hj.1
  · rw [htree]
    exact h.account.destroy h.forest hi D (Function.update_self ..) hlevels

end LifeInv

/-- Every run within the lives of its trees succeeds and keeps the account. -/
theorem lifeInv_lifeRun {ops : List LifeOp} (hops : InLife 0 [] ops) :
    ∃ s, lifeRun ops = some s ∧
      (ops = [] ∧ s = .start ∨ ∃ T L nodes, LifeInv ops s T L nodes) := by
  induction ops using List.reverseRecOn with
  | nil => exact ⟨.start, rfl, .inl ⟨rfl, rfl⟩⟩
  | append_singleton ops op ih =>
    obtain ⟨hops, hop⟩ := inLife_append.mp hops
    obtain ⟨s, hrun, hs⟩ := ih hops
    rw [lifeRun_append, hrun, Option.bind_some]
    rw [Nat.zero_add] at hop
    rcases hs with ⟨rfl, rfl⟩ | ⟨T, L, nodes, h⟩
    · cases op with
      | tree op =>
        cases op with
        | init unset => exact ⟨_, rfl, .inr ⟨_, _, _, lifeInv_first unset⟩⟩
        | insert e => exact absurd (hop e.tree rfl).1 (Nat.not_lt_zero _)
      | destroy i => exact absurd (hop i rfl).1 (Nat.not_lt_zero _)
    · cases op with
      | tree op =>
        cases op with
        | init unset =>
          obtain ⟨s', hstep, h'⟩ := h.init unset
          exact ⟨s', hstep, .inr ⟨T, L, nodes, h'⟩⟩
        | insert e =>
          obtain ⟨hlt, -, hlive⟩ := hop e.tree rfl
          obtain ⟨s', T', L', n, hstep, h'⟩ := h.insert hlt hlive
          exact ⟨s', hstep, .inr ⟨T', L', nodes ++ [n], h'⟩⟩
      | destroy i =>
        obtain ⟨hlt, -, hlive⟩ := hop i rfl
        obtain ⟨s', T', L', hstep, h'⟩ := h.destroy hlt hlive
        exact ⟨s', hstep, .inr ⟨T', L', nodes, h'⟩⟩

/-- The trees that a run leaves. -/
def treesLeft (ops : List LifeOp) : Finset Nat :=
  (Finset.range (inits (treeOps ops))).filter (· ∉ destroyed ops)

/-- The memory at the end of a run: `NIL`, a tree node with its list and its dummy for each
distinct key of a tree that is left, and a list node for each insertion into such a tree. -/
structure NoLeak (ops : List LifeOp) (m : RbHeap) : Prop where
  nodes : m.nodes.live.length =
    min 1 (inits (treeOps ops)) + ∑ i ∈ treesLeft ops, (keysOf i (treeOps ops)).card
  lists : m.dl.lists.live.length = ∑ i ∈ treesLeft ops, (keysOf i (treeOps ops)).card
  listNodes : m.dl.nodes.live.length = ∑ i ∈ treesLeft ops,
    ((keysOf i (treeOps ops)).card + (inserts (treeOps ops)).countP (·.tree = i))

/-- The live addresses: `NIL`, and of the trees `T i` that are left the nodes, their lists, and the
dummies and nodes of the lists. -/
structure LiveAddrs (ops : List LifeOp) (m : RbHeap) (T : Nat → BookTree)
    (L : Addr → Option Queue) : Prop where
  nodes : ∀ p, p ∈ m.nodes.live ↔
    0 < inits (treeOps ops) ∧ p = m.NIL ∨ ∃ i ∈ treesLeft ops, p ∈ addrs (T i)
  lists : ∀ p, p ∈ m.dl.lists.live ↔ ∃ i ∈ treesLeft ops, p ∈ listAddrs (T i)
  listNodes : ∀ p, p ∈ m.dl.nodes.live ↔ ∃ i ∈ treesLeft ops, p ∈ listNodes L (T i)
  stored : ∀ i ∈ treesLeft ops, ∀ p ∈ listAddrs (T i), ∃ q, L p = some q ∧ QueueAt m.dl p q

namespace LifeInv

variable {ops : List LifeOp} {s : Trees} {T : Nat → BookTree} {L : Addr → Option Queue}
  {nodes : List Addr}

theorem keys (h : LifeInv ops s T L nodes) {i : Nat} (hi : i ∉ destroyed ops) :
    ((T i).toList.map Prod.fst).toFinset = keysOf i (treeOps ops) := by
  ext k
  rw [← keys_levels L, h.levels i hi, List.mem_toFinset, mem_keys_pushed h.length]
  simp [keysOf, and_assoc]

theorem size (h : LifeInv ops s T L nodes) {i : Nat} (hi : i ∉ destroyed ops) :
    (T i).size = (keysOf i (treeOps ops)).card := by
  rw [← h.keys hi, List.toFinset_card_of_nodup (nodup_keys_of_ordered (h.forest.ordered i)),
    List.length_map]
  rfl

theorem wellShaped (h : LifeInv ops s T L nodes) {i : Nat} {root : Addr}
    (hroot : s.roots[i]? = some root) (hi : i ∉ destroyed ops) :
    WellShaped s.mem root (keysOf i (treeOps ops)) (T i) := by
  have hr : rootLeft (destroyed ops) s i = root := by simp [rootLeft, hi, Trees.root, hroot]
  refine ⟨hr ▸ h.forest.tree i, h.forest.ordered i, h.keys hi, h.forest.redBlack i, ?_⟩
  rw [← h.size hi]
  exact (h.forest.redBlack i).height_le_logb

/-- The share of one tree in the account. -/
theorem share (h : LifeInv ops s T L nodes) (i : Nat) :
    (TradeServer.levels L (T i)).length =
        (if i ∈ destroyed ops then 0 else (keysOf i (treeOps ops)).card) ∧
      (TradeServer.levels L (T i)).items.length =
        if i ∈ destroyed ops then 0 else (inserts (treeOps ops)).countP (·.tree = i) := by
  by_cases hi : i ∈ destroyed ops
  · have hT := h.gone i (.inl hi)
    rw [if_pos hi, if_pos hi, hT]
    exact ⟨rfl, rfl⟩
  · rw [if_neg hi, if_neg hi, length_levels]
    refine ⟨h.size hi, ?_⟩
    have hfst : ((inserts (treeOps ops)).zip nodes).map Prod.fst = inserts (treeOps ops) :=
      List.map_fst_zip h.length.ge
    rw [h.levels i hi, pushed, Levels.length_items_pushAll, List.length_map,
      ← List.countP_eq_length_filter]
    conv_rhs => rw [← hfst, List.countP_map]
    rfl

theorem noLeak (h : LifeInv ops s T L nodes) : NoLeak ops s.mem := by
  have hpos : min 1 (inits (treeOps ops)) = 1 := Nat.min_eq_left h.created
  obtain ⟨h₁, h₂, h₃⟩ := h.account
  refine ⟨?_, ?_, ?_⟩
  · rw [h₁, hpos, treesLeft, Finset.sum_filter]
    refine congrArg (1 + ·) (Finset.sum_congr rfl fun i _ => ?_)
    rw [(h.share i).1, ite_not]
  · rw [h₂, treesLeft, Finset.sum_filter]
    refine Finset.sum_congr rfl fun i _ => ?_
    rw [(h.share i).1, ite_not]
  · rw [h₃, treesLeft, Finset.sum_filter]
    refine Finset.sum_congr rfl fun i _ => ?_
    rw [(h.share i).1, (h.share i).2, ite_not]
    split_ifs <;> rfl

/-- What a destroyed tree does not have is in a tree that is left. -/
theorem exists_treesLeft (h : LifeInv ops s T L nodes) {S : BookTree → List Addr}
    (hnil : S .nil = []) {p : Addr} :
    (∃ i < inits (treeOps ops), p ∈ S (T i)) ↔ ∃ i ∈ treesLeft ops, p ∈ S (T i) := by
  constructor
  · rintro ⟨i, hi, hp⟩
    refine ⟨i, Finset.mem_filter.mpr ⟨Finset.mem_range.mpr hi, fun hgone => ?_⟩, hp⟩
    rw [h.gone i (.inl hgone), hnil] at hp
    exact List.not_mem_nil hp
  · rintro ⟨i, hi, hp⟩
    exact ⟨i, Finset.mem_range.mp (Finset.mem_filter.mp hi).1, hp⟩

theorem live_nodes (h : LifeInv ops s T L nodes) (p : Addr) : p ∈ s.mem.nodes.live ↔
    p ∈ [s.mem.NIL] ∨ ∃ i < inits (treeOps ops), p ∈ addrs (T i) := by
  obtain ⟨unset, hN⟩ := h.forest.nilBlack
  refine mem_live_iff_of_shares [s.mem.NIL] _ (fun i => addrs (T i)) (List.nodup_singleton _)
    (fun i => (h.forest.tree i).nodup) (fun i j => h.forest.disjoint)
    (fun i => List.singleton_disjoint.mpr (h.forest.tree i).nil)
    (List.forall_mem_singleton.mpr (mem_live.mpr ⟨_, hN⟩))
    (fun i p hp => mem_live.mpr ((h.forest.tree i).stored.live hp)) ?_
  simpa [addrs, TradeServer.levels] using h.account.nodes

theorem live_lists (h : LifeInv ops s T L nodes) (p : Addr) : p ∈ s.mem.dl.lists.live ↔
    p ∈ ([] : List Addr) ∨ ∃ i < inits (treeOps ops), p ∈ listAddrs (T i) := by
  refine mem_live_iff_of_shares [] _ (fun i => listAddrs (T i)) List.nodup_nil
    h.forest.nodup_listAddrs (fun i j => h.forest.listAddrs_disjoint)
    (fun i => List.disjoint_nil_left _) (by simp) (fun i p hp => ?_) ?_
  · obtain ⟨b, hb, rfl⟩ := List.mem_map.mp hp
    obtain ⟨q, hq⟩ := h.forest.listed hb
    exact mem_live.mpr ⟨_, (h.forest.queues.stored hq).list⟩
  · simpa [listAddrs, TradeServer.levels] using h.account.lists

theorem live_listNodes (h : LifeInv ops s T L nodes) (p : Addr) : p ∈ s.mem.dl.nodes.live ↔
    p ∈ ([] : List Addr) ∨ ∃ i < inits (treeOps ops), p ∈ listNodes L (T i) := by
  refine mem_live_iff_of_shares [] _ (fun i => listNodes L (T i)) List.nodup_nil
    h.forest.nodup_listNodes (fun i j => h.forest.listNodes_disjoint)
    (fun i => List.disjoint_nil_left _) (by simp) (fun i p hp => ?_) ?_
  · obtain ⟨b, hb, hp⟩ := List.mem_flatMap.mp hp
    obtain ⟨q, hq⟩ := h.forest.listed hb
    rw [hq] at hp
    exact mem_live.mpr ((h.forest.queues.stored hq).live hp)
  · simpa [h.forest.length_listNodes] using h.account.listNodes

/-- The shares of the trees add up to the account. -/
theorem liveAddrs (h : LifeInv ops s T L nodes) : LiveAddrs ops s.mem T L where
  nodes p := by
    rw [h.live_nodes, List.mem_singleton, h.exists_treesLeft rfl, and_iff_right h.created]
  lists p := by simp [h.live_lists, h.exists_treesLeft (S := listAddrs) rfl]
  listNodes p := by simp [h.live_listNodes, h.exists_treesLeft (S := listNodes L) rfl]
  stored i _ p hp := by
    obtain ⟨b, hb, rfl⟩ := List.mem_map.mp hp
    obtain ⟨q, hq⟩ := h.forest.listed hb
    exact ⟨q, hq, h.forest.queues.stored hq⟩

end LifeInv

/-- No tree is left. -/
theorem NoLeak.of_all_destroyed {ops : List LifeOp} {m : RbHeap} (h : NoLeak ops m)
    (hall : ∀ i < inits (treeOps ops), i ∈ destroyed ops) :
    m.nodes.live.length ≤ 1 ∧ m.dl.lists.live = [] ∧ m.dl.nodes.live = [] := by
  have hnone : treesLeft ops = ∅ := by
    refine Finset.filter_eq_empty_iff.mpr fun i hi => not_not_intro ?_
    exact hall i (Finset.mem_range.mp hi)
  obtain ⟨h₁, h₂, h₃⟩ := h
  rw [hnone, Finset.sum_empty] at h₁ h₂ h₃
  exact ⟨by omega, List.eq_nil_of_length_eq_zero h₂, List.eq_nil_of_length_eq_zero h₃⟩

/-- Whatever trees a run creates, fills and destroys in any interleaving, it never faults, the
trees that are left are well shaped and hold what was inserted into them, and nothing else is
live; when all are destroyed only `NIL` is. -/
theorem rbt_destroy_releases (ops : List LifeOp) (hops : InLife 0 [] ops) :
    ∃ (s : Trees) (nodes : List Addr) (T : Nat → BookTree) (L : Addr → Option Queue),
      lifeRun ops = some s ∧ nodes.length = (inserts (treeOps ops)).length ∧
      (∀ i root, s.roots[i]? = some root → i ∉ destroyed ops →
        WellShaped s.mem root (keysOf i (treeOps ops)) (T i) ∧
          inorder List.tail s.mem s.mem.nodes.next root =
            some (pushed i ((inserts (treeOps ops)).zip nodes))) ∧
      LiveAddrs ops s.mem T L ∧ NoLeak ops s.mem ∧
      ((∀ i < inits (treeOps ops), i ∈ destroyed ops) →
        s.mem.nodes.live ⊆ [s.mem.NIL] ∧ s.mem.dl.lists.live = [] ∧ s.mem.dl.nodes.live = []) := by
  obtain ⟨s, hrun, hs⟩ := lifeInv_lifeRun hops
  rcases hs with ⟨rfl, rfl⟩ | ⟨T, L, nodes, h⟩
  · have hnone : NoLeak [] Trees.start.mem := ⟨rfl, rfl, rfl⟩
    have hlive : LiveAddrs [] Trees.start.mem (fun _ => .nil) fun _ => none := by
      refine ⟨fun p => ?_, fun p => ?_, fun p => ?_, fun i hi => ?_⟩
      · simp [Trees.start, RbHeap.empty, inits, treeOps, treesLeft]
      · simp [Trees.start, RbHeap.empty, DlHeap.empty, inits, treeOps, treesLeft]
      · simp [Trees.start, RbHeap.empty, DlHeap.empty, inits, treeOps, treesLeft]
      · simp [treesLeft, inits, treeOps] at hi
    refine ⟨.start, [], _, _, hrun, rfl, by simp [Trees.start], hlive, hnone, fun hall => ?_⟩
    obtain ⟨-, hlists, hnodes⟩ := hnone.of_all_destroyed hall
    exact ⟨by simp [live, Trees.start, RbHeap.empty], hlists, hnodes⟩
  · refine ⟨s, nodes, T, L, hrun, h.length, fun i root hroot hi => ⟨h.wellShaped hroot hi, ?_⟩,
      h.liveAddrs, h.noLeak, fun hall => ?_⟩
    · have hr : rootLeft (destroyed ops) s i = root := by simp [rootLeft, hi, Trees.root, hroot]
      rw [← hr, h.forest.inorder_tail, h.levels i hi]
    · obtain ⟨-, hlists, hnodes⟩ := h.noLeak.of_all_destroyed hall
      refine ⟨fun p hp => ?_, hlists, hnodes⟩
      rcases (h.liveAddrs.nodes p).mp hp with ⟨-, rfl⟩ | ⟨i, hi, -⟩
      · exact List.mem_singleton_self _
      · obtain ⟨hlt, hleft⟩ := Finset.mem_filter.mp hi
        exact absurd (hall i (Finset.mem_range.mp hlt)) hleft

/-- The second tree is destroyed between two insertions into the first. -/
theorem rbt_destroy_releases_two_trees :
    ∃ s, lifeRun [.tree (.init 0), .tree (.init 0), .tree (.insert ⟨0, 5, 1, true⟩),
        .tree (.insert ⟨1, 5, 2, true⟩), .tree (.insert ⟨1, 6, 2, true⟩), .destroy 1,
        .tree (.insert ⟨0, 5, 3, false⟩)] = some s ∧
      s.mem.nodes.live.length = 2 ∧ s.mem.dl.lists.live.length = 1 ∧
      s.mem.dl.nodes.live.length = 3 := by
  obtain ⟨s, nodes, T, L, hrun, -, -, -, h, -⟩ := rbt_destroy_releases
    [.tree (.init 0), .tree (.init 0), .tree (.insert ⟨0, 5, 1, true⟩),
      .tree (.insert ⟨1, 5, 2, true⟩), .tree (.insert ⟨1, 6, 2, true⟩), .destroy 1,
      .tree (.insert ⟨0, 5, 3, false⟩)] (by decide)
  exact ⟨s, hrun, h.nodes, h.lists, h.listNodes⟩

end TradeServer
