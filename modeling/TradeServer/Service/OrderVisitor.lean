import TradeServer.DataStructures.DlListRuns
import TradeServer.Service.FillScan

/-!
# The visit of an order list

`order_visitor` removes the node it stands on when its order was filled. The nodes that are left
are those whose calls failed.
-/

namespace TradeServer

open Library

variable {σ : Type} (fillOrder : FillOrder σ) {entries : Heap HtEntry} {orders : Heap TradeOrder}
  {items : List (Addr × Addr)}

/-- One call for each item, in the order of the list. -/
theorem callsOn_forall₂ (hitems : Resolved entries orders items) (world : σ) :
    List.Forall₂ (fun x (f : Fill) => f.node = x.1 ∧ orderOf entries orders x.2 = some f.order)
      items (callsOn fillOrder entries orders items world).1 := by
  induction items generalizing world with
  | nil => exact .nil
  | cons x items ih =>
    obtain ⟨n, a⟩ := x
    obtain ⟨o, ho⟩ := hitems (n, a) (by simp)
    rw [callsOn_cons ho]
    exact .cons ⟨rfl, ho⟩ (ih (fun y hy => hitems y (by simp [hy])) _)

theorem callsOn_nodes (hitems : Resolved entries orders items) (world : σ) :
    (callsOn fillOrder entries orders items world).1.map (·.node) = items.map Prod.fst := by
  have hnodes := (callsOn_forall₂ fillOrder hitems world).imp fun x f h => h.1.symm
  rw [← List.forall₂_eq_eq_eq, List.forall₂_map_left_iff, List.forall₂_map_right_iff]
  exact hnodes.flip.imp fun f x h => h.symm

/-- Where no node comes up twice, the nodes that were not filled are those of the failed calls. -/
theorem filter_not_filledNodes {fills : List Fill} (hnd : (fills.map (·.node)).Nodup) :
    (fills.map (·.node)).filter (· ∉ filledNodes fills) =
      (fills.filter (fun f => !f.filled)).map (·.node) := by
  rw [List.filter_map]
  congr 1
  refine List.filter_congr fun f hf => ?_
  have hiff : f.node ∈ filledNodes fills ↔ f.filled = true := by
    rw [mem_filledNodes]
    constructor
    · rintro ⟨f', hf', hfilled, hnode⟩
      rwa [← List.inj_on_of_nodup_map hnd hf' hf hnode]
    · exact fun hfilled => ⟨f, hf, hfilled, rfl⟩
  simp [hiff]

/-- Whatever calls succeed, `order_visitor` passes every order of a list once, in order, and leaves
the nodes whose calls failed. An insertion appends behind these. -/
theorem orderVisitor_keeps_failed {m : DlHeap} {p : Addr} {q : Queue} (h : QueueAt m p q)
    (hitems : Resolved entries orders q.items) (world : σ) :
    ∃ lists fills world' items,
      orderVisitor fillOrder entries orders p ⟨m, [], world⟩ = some ⟨lists, fills, world'⟩ ∧
      List.Forall₂ (fun x f => f.node = x.1 ∧ orderOf entries orders x.2 = some f.order) q.items
        fills ∧
      (fills, world') = callsOn fillOrder entries orders q.items world ∧
      items.Sublist q.items ∧
      items.map Prod.fst = (fills.filter (fun f => !f.filled)).map (·.node) ∧
      QueueAt lists p ⟨q.head, items⟩ ∧ WellFormed lists p q.head items ∧
      ∀ {τ : Type} (data : Addr) (dataCallback : Option (DataCallback τ)) (t : τ), ∃ lists',
        dlListInsert lists p data dataCallback t =
          (dataCallback.elim (some t) (fun callback => callback data lists.nodes.fresh t)).map
            (fun t => (lists', t)) ∧
        WellFormed lists' p q.head (items ++ [(lists.nodes.fresh, data)]) := by
  have hp := Function.update_self p (some q) (fun _ => none)
  obtain ⟨lists, hrun, hQ⟩ := @orderVisitor_run _ fillOrder _ _ _ _ h.queues _ _ hp hitems [] world
  generalize hcalls : callsOn fillOrder entries orders q.items world = calls at hrun hQ
  have hforall := callsOn_forall₂ fillOrder hitems world
  have hnodes := callsOn_nodes fillOrder hitems world
  rw [hcalls] at hforall hnodes
  have hL : keepQueues (filledNodes calls.1) (Function.update (fun _ => none) p (some q)) p =
      some (q.keep (filledNodes calls.1)) := by simp [keepQueues]
  have hqueue := hQ.stored hL
  refine ⟨lists, calls.1, calls.2, q.items.filter (fun x => x.1 ∉ filledNodes calls.1), hrun,
    hforall, rfl, List.filter_sublist, ?_, hqueue, hqueue.wellFormed, fun data dataCallback t => ?_⟩
  · have hnd : (calls.1.map (·.node)).Nodup := by
      have hall := h.nodup
      rw [Queue.nodes, Queue.cells, List.map_cons, List.nodup_cons, ← hnodes] at hall
      exact hall.2
    rw [← filter_not_filledNodes hnd, hnodes, List.filter_map]
    rfl
  · obtain ⟨lists', hQ', hinsert⟩ := hQ.insert hL data dataCallback t
    exact ⟨lists', hinsert, (hQ'.stored (Function.update_self ..)).wellFormed⟩

/-- A list with the same entry in two nodes. -/
def repeatedEntry : DlHeap :=
  ⟨Heap.empty.alloc ⟨1, 3, 1⟩,
    ((Heap.empty.alloc ⟨NULL, NULL, 2⟩).alloc ⟨1, 1, 3⟩).alloc ⟨1, 2, NULL⟩⟩

def repeatedOrder : TradeOrder := ⟨7, 12, tickers .SPARK, 'B', 'O', 'L', 10, 2500000, 0⟩

/-- The first of two calls succeeds. -/
theorem orderVisitor_keeps_second :
    let entries := Heap.empty.alloc ⟨hashKey .BUY 7, 1, NULL, NULL⟩
    let orders := Heap.empty.alloc repeatedOrder
    ∃ lists fills world' items,
      orderVisitor (fun _ first => (first, false)) entries orders 1 ⟨repeatedEntry, [], true⟩ =
        some ⟨lists, fills, world'⟩ ∧
      List.Forall₂ (fun x f => f.node = x.1 ∧ orderOf entries orders x.2 = some f.order)
        [(2, 1), (3, 1)] fills ∧
      (fills, world') =
        callsOn (fun _ first => (first, false)) entries orders [(2, 1), (3, 1)] true ∧
      items.Sublist [(2, 1), (3, 1)] ∧
      items.map Prod.fst = (fills.filter (fun f => !f.filled)).map (·.node) ∧
      QueueAt lists 1 ⟨1, items⟩ ∧ WellFormed lists 1 1 items ∧
      ∀ {τ : Type} (data : Addr) (dataCallback : Option (DataCallback τ)) (t : τ), ∃ lists',
        dlListInsert lists 1 data dataCallback t =
          (dataCallback.elim (some t) (fun callback => callback data lists.nodes.fresh t)).map
            (fun t => (lists', t)) ∧
        WellFormed lists' 1 1 (items ++ [(lists.nodes.fresh, data)]) :=
  orderVisitor_keeps_failed _ (q := ⟨1, [(2, 1), (3, 1)]⟩)
    ⟨by decide, by simp [Queue.cells]; decide, by decide⟩
    (by simp only [Resolved, List.mem_cons, List.not_mem_nil, or_false, forall_eq_or_imp, forall_eq]
        exact ⟨⟨repeatedOrder, by decide⟩, ⟨repeatedOrder, by decide⟩⟩) true

end TradeServer
