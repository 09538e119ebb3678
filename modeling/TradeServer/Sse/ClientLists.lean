import Mathlib.Order.MinMax
import TradeServer.Sse.WriteThread

/-!
# The client lists

The round robin goes over the lists whether they have room or not, so it fills them evenly:
the lists before its place have one client more than the others, up to the capacity. A slot
is given out once, and a zero behind the last one stops the loop of the write thread.
-/

namespace TradeServer

open Library

variable {k : Fin NUM_CLIENT_LISTS} {i n : Nat} {s t : Broadcast} {e : WriterEvent}

/-- The slots of list `k` that were given out, with the descriptors put there. -/
def given (k : Fin NUM_CLIENT_LISTS) (log : List Effect) : List (Nat × Int) :=
  log.filterMap fun
    | .added j i clientFd => if j = k then some (i, clientFd) else none
    | _ => none

/-- The lists before the place of the round robin are one client ahead. -/
def Level (w : ClientWriter) (idx : Nat) : Prop :=
  ∃ m, ∀ k, (w.clm k).lastClientInsertIdx =
    min NUM_CLIENTS_PER_LIST (m + if k.val < idx then 1 else 0)

structure RoundInv (w : ClientWriter) : Prop where
  le : w.roundRobinIdx ≤ NUM_CLIENT_LISTS
  level : Level w w.roundRobinIdx

/-- After a whole round all lists are level again. -/
theorem RoundInv.wrap {w : ClientWriter} (h : RoundInv w) :
    Level w (Library.wrap NUM_CLIENT_LISTS w.roundRobinIdx) := by
  obtain ⟨m, hm⟩ := h.level
  unfold Library.wrap
  split_ifs with hround
  · refine ⟨m + 1, fun k => ?_⟩
    rw [hm, hround, if_pos k.isLt, if_neg (Nat.not_lt_zero _), Nat.add_zero]
  · exact ⟨m, hm⟩

theorem clientWriterAddClient_eq (w : ClientWriter) (clientFd : Int)
    (h : wrap NUM_CLIENT_LISTS w.roundRobinIdx < NUM_CLIENT_LISTS) :
    clientWriterAddClient w clientFd =
      let k : Fin NUM_CLIENT_LISTS := ⟨wrap NUM_CLIENT_LISTS w.roundRobinIdx, h⟩
      let v : ClientWriter := { w with roundRobinIdx := k.val + 1 }
      if (w.clm k).lastClientInsertIdx = NUM_CLIENTS_PER_LIST then some (v, [])
      else if (w.clm k).lastClientInsertIdx < (w.clm k).clientFdArr.length then
        some (v.setClm k { w.clm k with
          clientFdArr := (w.clm k).clientFdArr.set (w.clm k).lastClientInsertIdx clientFd
          lastClientInsertIdx := (w.clm k).lastClientInsertIdx + 1 },
          [.added k (w.clm k).lastClientInsertIdx clientFd])
      else none := by
  simp only [clientWriterAddClient, clientWriterSelectManager, dif_pos h, Option.bind_some]

/-- A client that is turned away found all lists full. -/
theorem Level.full {w : ClientWriter} {j : Fin NUM_CLIENT_LISTS} (h : Level w j)
    (hfull : (w.clm j).lastClientInsertIdx = NUM_CLIENTS_PER_LIST) (k : Fin NUM_CLIENT_LISTS) :
    (w.clm k).lastClientInsertIdx = NUM_CLIENTS_PER_LIST := by
  obtain ⟨m, hm⟩ := h
  rw [hm, if_neg (lt_irrefl _)] at hfull
  rw [hm]
  omega

theorem RoundInv.full {w : ClientWriter} {j : Fin NUM_CLIENT_LISTS} (h : Level w j)
    (hfull : (w.clm j).lastClientInsertIdx = NUM_CLIENTS_PER_LIST) :
    RoundInv { w with roundRobinIdx := j.val + 1 } := by
  refine ⟨j.isLt, NUM_CLIENTS_PER_LIST, fun k => ?_⟩
  have := h.full hfull k
  simp only at this ⊢
  omega

theorem RoundInv.add {w : ClientWriter} {j : Fin NUM_CLIENT_LISTS} (h : Level w j)
    (hroom : (w.clm j).lastClientInsertIdx ≠ NUM_CLIENTS_PER_LIST) {clm : ClientListManager}
    (hclm : clm.lastClientInsertIdx = (w.clm j).lastClientInsertIdx + 1) :
    RoundInv (({ w with roundRobinIdx := j.val + 1 } : ClientWriter).setClm j clm) := by
  obtain ⟨m, hm⟩ := h
  refine ⟨j.isLt, m, fun k => ?_⟩
  have hj := hm j
  rw [if_neg (lt_irrefl _)] at hj
  obtain rfl | hk := eq_or_ne k j
  · have hlt : k.val < ClientWriter.roundRobinIdx
        (({ w with roundRobinIdx := k.val + 1 } : ClientWriter).setClm k clm) :=
      Nat.lt_succ_self _
    rw [ClientWriter.clm_setClm, Function.update_self, hclm, if_pos hlt]
    omega
  · have hlt : k.val < ClientWriter.roundRobinIdx
        (({ w with roundRobinIdx := j.val + 1 } : ClientWriter).setClm j clm) ↔ k.val < j.val :=
      ⟨fun hk' => lt_of_le_of_ne (Nat.le_of_lt_succ hk') (Fin.val_ne_of_ne hk),
        fun hk' => hk'.trans (Nat.lt_succ_self _)⟩
    rw [ClientWriter.clm_setClm, Function.update_of_ne hk]
    simp only [hlt]
    exact hm k

theorem RoundInv.step (h : RoundInv s.writer) (hstep : s.next e = some t) : RoundInv t.writer := by
  obtain ⟨⟨w, es⟩, hw, rfl⟩ := Option.map_eq_some_iff.mp hstep
  by_cases hadd : ∃ clientFd, e = .addClient clientFd
  · obtain ⟨clientFd, rfl⟩ := hadd
    rw [writerStep, clientWriterAddClient_eq _ _ (wrap_lt (by decide) h.le)] at hw
    simp only at hw
    split_ifs at hw with hfull
    · obtain ⟨rfl, -⟩ := Prod.mk.inj (Option.some.inj hw)
      exact .full h.wrap hfull
    · obtain ⟨rfl, -⟩ := Prod.mk.inj (Option.some.inj hw)
      exact .add h.wrap hfull rfl
  · -- no other step moves an index
    have hcases := writerStep_cases hw
    have hidx : ∀ k, (w.clm k).lastClientInsertIdx = (s.writer.clm k).lastClientInsertIdx :=
      fun k => ((hcases.view k).keep fun clientFd he => hadd ⟨clientFd, he⟩).1
    have hround : w.roundRobinIdx = s.writer.roundRobinIdx := by
      cases hcases with
      | full => exact absurd ⟨_, rfl⟩ hadd
      | addClient => exact absurd ⟨_, rfl⟩ hadd
      | _ => rfl
    exact ⟨hround ▸ h.le, by simpa only [Level, hround, hidx] using h.level⟩

/-! ## The slots -/

theorem mem_given {log : List Effect} {x : Nat × Int} :
    x ∈ given k log ↔ .added k x.1 x.2 ∈ log := by
  simp only [given, List.mem_filterMap]
  constructor
  · rintro ⟨e, he, hx⟩
    cases e with
    | added j i clientFd =>
      simp only [Option.ite_none_right_eq_some, Option.some.injEq] at hx
      obtain ⟨rfl, rfl⟩ := hx
      exact he
    | _ => simp at hx
  · exact fun he => ⟨_, he, by simp⟩

theorem given_eq_nil {es : List Effect} (h : ∀ e ∈ es, ¬ e.Of k) : given k es = [] := by
  rw [List.eq_nil_iff_forall_not_mem]
  exact fun x hx => h _ (mem_given.mp hx) rfl

/-- A step gives out the next slots of the list, one or none. -/
theorem ThreadStep.given {v v' : ThreadView} {es : List Effect} (h : ThreadStep k v e v' es) :
    ∃ m, v'.lastClientInsertIdx = v.lastClientInsertIdx + m ∧
      (TradeServer.given k es).map Prod.fst = List.range' v.lastClientInsertIdx m := by
  cases h with
  | other hes => exact ⟨0, rfl, by simp [given_eq_nil hes]⟩
  | add hroom hidx => exact ⟨1, rfl, by simp [TradeServer.given]⟩
  | _ => exact ⟨0, rfl, by simp [TradeServer.given]⟩

end TradeServer
