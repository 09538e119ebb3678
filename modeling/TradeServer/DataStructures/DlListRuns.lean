import TradeServer.DataStructures.DlList
import TradeServer.Library.System

/-!
# Runs of a list

The insertions and removals of a list in any order. A list refines the sequence of the
elements that were inserted and not removed, and a node pointer that an insertion gave away
denotes its element until that node is removed.
-/

namespace TradeServer

open Library

/-- The list object at `p` has the dummy `head` and the items behind it, on the walk from the head
and on the walk from the tail. Both walks end at `NULL`. -/
structure WellFormed (m : DlHeap) (p head : Addr) (items : List (Addr × Addr)) : Prop where
  walks : ∃ l, m.lists.load p = some l ∧ l.head = head ∧
    Chain DllNode.next m.nodes l.head (head :: items.map Prod.fst) ∧
    Chain DllNode.prev m.nodes l.tail (head :: items.map Prod.fst).reverse
  data : ∀ x ∈ items, ∃ n, m.nodes.load x.1 = some n ∧ n.data = x.2

theorem QueueAt.wellFormed {m : DlHeap} {p : Addr} {q : Queue} (h : QueueAt m p q) :
    WellFormed m p q.head q.items where
  walks := ⟨_, h.list, rfl, h.seg.chain_next fun _ _ _ => rfl, h.seg.chain_prev fun _ _ _ => rfl⟩
  data x hx := by
    obtain ⟨xs, ys, hxy⟩ := List.append_of_mem (List.mem_cons_of_mem (q.head, NULL) hx)
    have hseg := h.seg
    rw [Queue.cells, hxy] at hseg
    exact ⟨_, hseg.load_mid, rfl⟩

/-- A heap in which only one list matters. -/
theorem QueueAt.queues {m : DlHeap} {p : Addr} {q : Queue} (h : QueueAt m p q) :
    Queues m (Function.update (fun _ => none) p (some q)) where
  stored {p' q'} hp' := by
    obtain rfl : p' = p := by by_contra hne; simp [hne] at hp'
    obtain rfl : q = q' := by simpa using hp'
    exact h
  disjoint {p₁ p₂ q₁ q₂} h₁ h₂ hne := by
    obtain rfl : p₁ = p := by by_contra hne; simp [hne] at h₁
    simp [Ne.symm hne] at h₂

/-! ## Operations -/

/-- A call on the list. A callback changes the state `σ` of its own. -/
inductive ListOp (σ : Type) where
  | insert (data : Addr) (dataCallback : Option (Addr → Addr → σ → σ))
  | remove (node : Addr)

/-- The heaps, the state of the callbacks, and the nodes that were handed to callbacks with their
data. -/
structure ListState (σ : Type) where
  heap : DlHeap
  world : σ
  handed : List (Addr × Addr)

variable {σ : Type}

/-- A callback, with a note of what it gets. -/
def noted (callback : Addr → Addr → σ → σ) : DataCallback (σ × List (Addr × Addr)) :=
  fun data node s => some (callback data node s.1, s.2 ++ [(node, data)])

def listStep (p : Addr) (s : ListState σ) : ListOp σ → Option (ListState σ)
  | .insert data dataCallback => do
    let (heap, world, handed) ←
      dlListInsert s.heap p data (dataCallback.map noted) (s.world, s.handed)
    some ⟨heap, world, handed⟩
  | .remove node => do
    let heap ← dlListRemove s.heap p node
    some { s with heap := heap }

def listRun (p : Addr) (s : ListState σ) (ops : List (ListOp σ)) : Option (ListState σ) :=
  ops.foldlM (listStep p) s

/-- The state after `dl_list_init`. -/
def listStart (m : DlHeap) (world : σ) : ListState σ := ⟨(dlListInit m).1, world, []⟩

/-- A node other than the head that the walk along the list meets. -/
def OnList (m : DlHeap) (p node : Addr) : Prop :=
  ∃ l nodes, m.lists.load p = some l ∧
    Chain DllNode.next m.nodes l.head (l.head :: nodes) ∧ node ∈ nodes

/-- Removals get a node of the list or `NULL`. -/
def Removable (p : Addr) (s : ListState σ) : ListOp σ → Prop
  | .insert _ _ => True
  | .remove node => node = NULL ∨ OnList s.heap p node

/-- The data of the insertions. -/
def insertedData (ops : List (ListOp σ)) : List Addr :=
  ops.filterMap fun
    | .insert data _ => some data
    | .remove _ => none

def removedNodes (ops : List (ListOp σ)) : List Addr :=
  ops.filterMap fun
    | .insert _ _ => none
    | .remove node => some node

/-! ## The invariant -/

/-- After insertions of `elems` and removals of `gone`, the list has the other elements; the nodes
handed to callbacks are nodes of elements. -/
structure DlListInv (p head : Addr) (s : ListState σ) (elems : List (Addr × Addr))
    (gone : List Addr) : Prop where
  queue : QueueAt s.heap p ⟨head, elems.filter (·.1 ∉ gone)⟩
  nodup : (head :: elems.map Prod.fst).Nodup
  old : ∀ x ∈ elems, x.1 < s.heap.nodes.next
  gone : ∀ a ∈ gone, a = NULL ∨ a ∈ elems.map Prod.fst
  handed : s.handed.Sublist elems

namespace DlListInv

variable {p head : Addr} {s : ListState σ} {elems : List (Addr × Addr)} {gone : List Addr}

theorem start (m : DlHeap) (world : σ) :
    DlListInv (dlListInit m).2 m.nodes.fresh (listStart m world) [] [] := by
  have hnone : Queues m (fun _ => none) := ⟨by simp, by simp⟩
  exact {
    queue := hnone.init.stored (Function.update_self ..)
    nodup := by simp
    old := by simp
    gone := by simp
    handed := List.Sublist.slnil }

/-- The next node is neither the head nor that of an element. -/
theorem fresh_notMem (h : DlListInv p head s elems gone) :
    s.heap.nodes.fresh ∉ head :: elems.map Prod.fst ∧ s.heap.nodes.fresh ∉ gone := by
  have hp := Function.update_self p (some (⟨head, elems.filter (·.1 ∉ gone)⟩ : Queue))
    (fun _ => none)
  have hhead : s.heap.nodes.fresh ≠ head :=
    (h.queue.queues.ne_fresh hp (by simp [Queue.nodes, Queue.cells])).symm
  have helems : s.heap.nodes.fresh ∉ elems.map Prod.fst := by
    intro hmem
    obtain ⟨x, hx, heq⟩ := List.mem_map.mp hmem
    exact (h.old x hx).ne heq
  constructor
  · simpa [hhead] using helems
  · intro hmem
    rcases h.gone _ hmem with hnull | hmem
    · exact s.heap.nodes.next_pos.ne' hnull
    · exact helems hmem

/-- The new element is behind the others. -/
theorem pushed (h : DlListInv p head s elems gone) {us : List (Addr × Addr)}
    {t d : Addr} (ht : Queues.Tail s.heap ⟨head, elems.filter (·.1 ∉ gone)⟩ us t d) (data : Addr)
    (world : σ) {handed : List (Addr × Addr)}
    (hhanded : handed.Sublist (elems ++ [(s.heap.nodes.fresh, data)])) :
    DlListInv p head ⟨Queues.pushed s.heap p t data, world, handed⟩
      (elems ++ [(s.heap.nodes.fresh, data)]) gone := by
  obtain ⟨hfresh, hgone⟩ := h.fresh_notMem
  have hpushed := h.queue.queues.queueAt_pushed (Function.update_self ..) ht data
  have hnext : (Queues.pushed s.heap p t data).nodes.next = s.heap.nodes.next + 1 := rfl
  refine ⟨?_, ?_, ?_, ?_, hhanded⟩
  · simpa [List.filter_append, hgone, Queue.push] using hpushed
  · rw [List.map_append, ← List.cons_append]
    refine List.nodup_append.mpr ⟨h.nodup, by simp, fun a ha b hb => ?_⟩
    rw [List.mem_singleton.mp hb]
    exact ne_of_mem_of_not_mem ha hfresh
  · intro x hx
    rcases List.mem_append.mp hx with hx | hx
    · exact hnext ▸ Nat.lt_succ_of_lt (h.old x hx)
    · rw [List.mem_singleton.mp hx]
      exact hnext ▸ Nat.lt_succ_self _
  · intro a ha
    exact (h.gone a ha).imp_right fun hm => by simp [hm]

/-- An insertion appends an element with a new node. -/
theorem insert (h : DlListInv p head s elems gone) (data : Addr)
    (dataCallback : Option (Addr → Addr → σ → σ)) :
    ∃ s', listStep p s (.insert data dataCallback) = some s' ∧
      DlListInv p head s' (elems ++ [(s.heap.nodes.fresh, data)]) gone ∧
      s.handed <+: s'.handed := by
  have hQ := h.queue.queues
  have hp := Function.update_self p (some (⟨head, elems.filter (·.1 ∉ gone)⟩ : Queue))
    (fun _ => none)
  obtain ⟨us, t, d, ht⟩ := hQ.tail hp
  have hrun := hQ.dlListInsert_run hp ht data (dataCallback.map noted) (s.world, s.handed)
  cases dataCallback with
  | none =>
    have hstep : listStep p s (.insert data none) =
        some ⟨Queues.pushed s.heap p t data, s.world, s.handed⟩ := by
      rw [Option.map_none] at hrun
      simp only [listStep, Option.map_none, hrun, Option.elim_none, Option.map_some,
        Option.bind_eq_bind, Option.bind_some]
    exact ⟨_, hstep, h.pushed ht data _ (h.handed.trans (List.sublist_append_left _ _)),
      List.prefix_refl _⟩
  | some callback =>
    have hstep : listStep p s (.insert data (some callback)) =
        some ⟨Queues.pushed s.heap p t data, callback data s.heap.nodes.fresh s.world,
          s.handed ++ [(s.heap.nodes.fresh, data)]⟩ := by
      rw [Option.map_some] at hrun
      simp only [listStep, Option.map_some, hrun, Option.elim_some, noted, Option.bind_eq_bind,
        Option.bind_some]
    exact ⟨_, hstep, h.pushed ht data _ (h.handed.append (List.Sublist.refl _)),
      List.prefix_append _ _⟩

theorem next_dlListRemove {m m' : DlHeap} {p node : Addr} (h : dlListRemove m p node = some m') :
    m'.nodes.next = m.nodes.next := by
  by_cases hnull : node = NULL
  · rw [dlListRemove, if_pos hnull] at h
    rw [Option.some.inj h]
  · rw [dlListRemove, if_neg hnull, Option.bind_eq_bind, Option.bind_eq_some_iff] at h
    obtain ⟨l, -, h⟩ := h
    split_ifs at h with htail
    · simp only [Option.bind_eq_bind, Option.bind_eq_some_iff, Option.some.injEq] at h
      obtain ⟨t, -, ls, -, ns, hu, _, rfl, ns', hfree, rfl⟩ := h
      exact (Heap.next_of_release hfree).trans (Heap.next_of_update hu)
    · simp only [Option.bind_eq_bind, Option.bind_eq_some_iff, Option.some.injEq] at h
      obtain ⟨n, -, ns, hu, n', -, ns', hu', _, rfl, ns'', hfree, rfl⟩ := h
      exact (Heap.next_of_release hfree).trans
        ((Heap.next_of_update hu').trans (Heap.next_of_update hu))

/-- A node on the walk is the node of an item. -/
theorem mem_of_onList {m : DlHeap} {q : Queue} (h : QueueAt m p q) {node : Addr}
    (hnode : OnList m p node) : ∃ x ∈ q.items, x.1 = node := by
  obtain ⟨l, nodes, hl, hwalk, hmem⟩ := hnode
  obtain ⟨l', hl', -, hnext, -⟩ := h.wellFormed.walks
  obtain rfl := Option.some.inj (hl.symm.trans hl')
  obtain ⟨-, rfl⟩ := List.cons_eq_cons.mp (hwalk.unique hnext)
  exact List.mem_map.mp hmem

/-- A removal takes out the element of its node. -/
theorem remove (h : DlListInv p head s elems gone) {node : Addr}
    (hnode : node = NULL ∨ OnList s.heap p node) :
    ∃ s', listStep p s (.remove node) = some s' ∧ DlListInv p head s' elems (gone ++ [node]) ∧
      s'.handed = s.handed := by
  have hgone : node = NULL ∨ node ∈ elems.map Prod.fst := by
    refine hnode.imp_right fun hnode => ?_
    obtain ⟨x, hx, rfl⟩ := mem_of_onList h.queue hnode
    exact List.mem_map_of_mem (List.mem_of_mem_filter hx)
  have hfilter : (elems.filter (·.1 ∉ gone)).filter (fun x => x.1 ≠ node) =
      elems.filter (·.1 ∉ gone ++ [node]) := by
    rw [List.filter_filter]
    grind
  have hinv : ∀ m', dlListRemove s.heap p node = some m' →
      QueueAt m' p ⟨head, elems.filter (·.1 ∉ gone ++ [node])⟩ →
      DlListInv p head { s with heap := m' } elems (gone ++ [node]) := by
    intro m' hremove hqueue
    refine ⟨hqueue, h.nodup, fun x hx => ?_, fun a ha => ?_, h.handed⟩
    · rw [next_dlListRemove hremove]
      exact h.old x hx
    · rcases List.mem_append.mp ha with ha | ha
      · exact h.gone a ha
      · rwa [List.mem_singleton.mp ha]
  rcases hnode with rfl | hnode
  · have hremove : dlListRemove s.heap p NULL = some s.heap := if_pos rfl
    have hkeep : elems.filter (·.1 ∉ gone ++ [NULL]) = elems.filter (·.1 ∉ gone) := by
      rw [← hfilter, List.filter_eq_self]
      intro x hx
      obtain ⟨n, hn, -⟩ := h.queue.wellFormed.data x hx
      simpa using Heap.ne_null_of_load hn
    exact ⟨_, by simp [listStep, hremove], hinv _ hremove (hkeep ▸ h.queue), rfl⟩
  · obtain ⟨⟨a, d⟩, hx, rfl⟩ := mem_of_onList h.queue hnode
    obtain ⟨xs, ys, hxy⟩ := List.append_of_mem hx
    obtain ⟨m', hremove, hQ, -⟩ := h.queue.queues.remove (Function.update_self ..) hxy
    have hqueue := hQ.stored (Function.update_self ..)
    rw [Queue.erase, hfilter] at hqueue
    exact ⟨_, by simp [listStep, hremove], hinv _ hremove hqueue, rfl⟩

end DlListInv

/-! ## Runs -/

theorem insertedData_append (ops ops' : List (ListOp σ)) :
    insertedData (ops ++ ops') = insertedData ops ++ insertedData ops' := List.filterMap_append

theorem removedNodes_append (ops ops' : List (ListOp σ)) :
    removedNodes (ops ++ ops') = removedNodes ops ++ removedNodes ops' := List.filterMap_append

theorem dlListInv_listRun (m : DlHeap) (world : σ) {ops : List (ListOp σ)}
    (hops : AllSteps (listStep (dlListInit m).2) (Removable (dlListInit m).2) (listStart m world)
      ops) :
    ∃ (s : ListState σ) (elems : List (Addr × Addr)),
      listRun (dlListInit m).2 (listStart m world) ops = some s ∧
      DlListInv (dlListInit m).2 m.nodes.fresh s elems (removedNodes ops) ∧
      elems.map Prod.snd = insertedData ops ∧
      ∀ pre u, pre <+: ops → listRun (dlListInit m).2 (listStart m world) pre = some u →
        u.handed <+: s.handed := by
  induction ops using List.reverseRecOn with
  | nil =>
    refine ⟨_, [], rfl, .start m world, rfl, fun pre u hpre hrun => ?_⟩
    obtain rfl := List.prefix_nil.mp hpre
    rw [← Option.some.inj hrun]
  | append_singleton ops op ih =>
    obtain ⟨s, elems, hrun, hinv, hdata, hhanded⟩ := ih (hops.of_prefix (List.prefix_append ops _))
    have hok := hops ops op s (List.prefix_refl _) hrun
    obtain ⟨s', elems', hstep, hinv', hdata', hkept⟩ : ∃ s' elems',
        listStep (dlListInit m).2 s op = some s' ∧
        DlListInv (dlListInit m).2 m.nodes.fresh s' elems' (removedNodes (ops ++ [op])) ∧
        elems'.map Prod.snd = insertedData (ops ++ [op]) ∧ s.handed <+: s'.handed := by
      rw [removedNodes_append, insertedData_append, ← hdata]
      cases op with
      | insert data dataCallback =>
        obtain ⟨s', hstep, hinv', hkept⟩ := hinv.insert data dataCallback
        exact ⟨s', _, hstep, by simpa [removedNodes] using hinv', by simp [insertedData], hkept⟩
      | remove node =>
        obtain ⟨s', hstep, hinv', hkept⟩ := hinv.remove hok
        exact ⟨s', _, hstep, hinv', by simp [insertedData], hkept ▸ List.prefix_refl _⟩
    have hrun' : listRun (dlListInit m).2 (listStart m world) (ops ++ [op]) = some s' := by
      rw [listRun] at hrun ⊢
      simp [List.foldlM_append, hrun, hstep]
    refine ⟨s', elems', hrun', hinv', hdata', fun pre u hpre hu => ?_⟩
    rcases List.prefix_concat_iff.mp hpre with rfl | hlt
    · rw [Option.some.inj (hu.symm.trans hrun')]
    · exact (hhanded pre u hlt hu).trans hkept

/-- The list refines the sequence of the elements inserted and not removed, and a pointer given to
a callback at any time denotes its element until its node is removed. -/
theorem listRun_refines (m : DlHeap) (world : σ) (ops : List (ListOp σ))
    (hops : AllSteps (listStep (dlListInit m).2) (Removable (dlListInit m).2) (listStart m world)
      ops) :
    ∃ (s : ListState σ) (elems : List (Addr × Addr)),
      listRun (dlListInit m).2 (listStart m world) ops = some s ∧
      elems.map Prod.snd = insertedData ops ∧ (elems.map Prod.fst).Nodup ∧
      WellFormed s.heap (dlListInit m).2 m.nodes.fresh
        (elems.filter (·.1 ∉ removedNodes ops)) ∧
      ∀ pre u x, pre <+: ops → listRun (dlListInit m).2 (listStart m world) pre = some u →
        x ∈ u.handed → x ∈ elems ∧ (x.1 ∉ removedNodes ops →
          ∃ n, s.heap.nodes.load x.1 = some n ∧ n.data = x.2) := by
  obtain ⟨s, elems, hrun, hinv, hdata, hhanded⟩ := dlListInv_listRun m world hops
  have hformed := hinv.queue.wellFormed
  refine ⟨s, elems, hrun, hdata, (List.nodup_cons.mp hinv.nodup).2, hformed, ?_⟩
  intro pre u x hpre hu hx
  have hmem : x ∈ elems := hinv.handed.subset ((hhanded pre u hpre hu).subset hx)
  refine ⟨hmem, fun hkept => hformed.data x ?_⟩
  simpa [hmem] using hkept

/-- A callback that counts its calls. -/
def countCalls : Addr → Addr → Nat → Nat := fun _ _ n => n + 1

/-- The first of two elements is removed, and the list is filled again. -/
def refillCalls : List (ListOp Nat) :=
  [.insert 11 (some countCalls), .insert 12 none, .remove 2, .remove NULL,
    .insert 13 (some countCalls)]

theorem removable_refillCalls :
    AllSteps (listStep (dlListInit .empty).2) (Removable (dlListInit .empty).2)
      (listStart .empty 0) refillCalls := by
  rw [refillCalls, allSteps_cons rfl, allSteps_cons rfl, allSteps_cons rfl, allSteps_cons rfl,
    allSteps_cons rfl]
  refine ⟨trivial, trivial, .inr ?_, .inl rfl, trivial, allSteps_nil⟩
  exact ⟨⟨1, 3, 1⟩, [2, 3], by decide, ⟨rfl, ⟨NULL, NULL, 2⟩, by decide, rfl, ⟨11, 1, 3⟩, by decide,
    rfl, ⟨12, 2, NULL⟩, by decide, rfl⟩, by decide⟩

theorem listRun_refines_refillCalls :
    ∃ (s : ListState Nat) (elems : List (Addr × Addr)),
      listRun (dlListInit .empty).2 (listStart .empty 0) refillCalls = some s ∧
      elems.map Prod.snd = insertedData refillCalls ∧ (elems.map Prod.fst).Nodup ∧
      WellFormed s.heap (dlListInit .empty).2 DlHeap.empty.nodes.fresh
        (elems.filter (·.1 ∉ removedNodes refillCalls)) ∧
      ∀ pre u x, pre <+: refillCalls →
        listRun (dlListInit .empty).2 (listStart .empty 0) pre = some u →
        x ∈ u.handed → x ∈ elems ∧ (x.1 ∉ removedNodes refillCalls →
          ∃ n, s.heap.nodes.load x.1 = some n ∧ n.data = x.2) :=
  listRun_refines .empty 0 refillCalls removable_refillCalls

end TradeServer
