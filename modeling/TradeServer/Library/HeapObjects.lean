import TradeServer.Library.Heap

/-!
# The objects of a heap

`Heap.objects` lists the live objects with their addresses. The allocations and the
releases of a program keep an account in it: what an operation does to the list is
stated up to a permutation.
-/

namespace TradeServer.Library.Heap

variable {α : Type*}

def objects (h : Heap α) : List (Addr × α) :=
  (List.range h.next).filterMap fun p => (h.load p).map (p, ·)

def live (h : Heap α) : List Addr := h.objects.map Prod.fst

@[simp] theorem objects_empty : (empty : Heap α).objects = [] := by
  simp [objects, empty, load]

@[simp] theorem mem_objects {h : Heap α} {p : Addr} {v : α} :
    (p, v) ∈ h.objects ↔ h.load p = some v := by
  simp only [objects, List.mem_filterMap, List.mem_range, Option.map_eq_some_iff, Prod.mk.injEq]
  constructor
  · rintro ⟨q, -, w, hw, rfl, rfl⟩
    exact hw
  · intro hv
    exact ⟨p, lt_next_of_load hv, v, hv, rfl, rfl⟩

@[simp] theorem mem_live {h : Heap α} {p : Addr} : p ∈ h.live ↔ ∃ v, h.load p = some v := by
  simp [live]

theorem nodup_live (h : Heap α) : h.live.Nodup := by
  rw [live, objects, List.map_filterMap]
  refine List.nodup_range.filterMap fun p q a hp hq => ?_
  simp only [Option.map_map, Option.mem_def, Option.map_eq_some_iff, Function.comp_apply] at hp hq
  obtain ⟨v, -, rfl⟩ := hp
  obtain ⟨w, -, heq⟩ := hq
  exact heq.symm

theorem objects_congr {h h' : Heap α} (hnext : h'.next = h.next) (hload : h'.load = h.load) :
    h'.objects = h.objects := by rw [objects, objects, hnext, hload]

theorem objects_alloc (h : Heap α) (v : α) :
    (h.alloc v).objects = h.objects ++ [(h.fresh, v)] := by
  rw [objects, next_alloc, List.range_succ, List.filterMap_append]
  congr 1
  · refine List.filterMap_congr fun p hp => ?_
    have hne : p ≠ h.fresh := (List.mem_range.mp hp).ne
    rw [load_alloc, if_neg hne]
  · simp [fresh]

/-- A live object stands at one place of the list. -/
theorem objects_free {h : Heap α} {p : Addr} {v : α} (hp : h.load p = some v) :
    h.objects.Perm ((p, v) :: (h.free p).objects) := by
  obtain ⟨xs, ys, hr⟩ := List.append_of_mem (List.mem_range.mpr (lt_next_of_load hp))
  have hnd : (xs ++ p :: ys).Nodup := hr ▸ List.nodup_range
  obtain ⟨hnot, -⟩ := List.nodup_cons.mp (List.nodup_middle.mp hnd)
  have hrest : (h.free p).objects =
      (xs ++ ys).filterMap fun q => (h.load q).map (q, ·) := by
    rw [objects, next_free, hr]
    simp only [List.filterMap_append, List.filterMap_cons, load_free, if_true, Option.map_none]
    congr 1 <;> refine List.filterMap_congr fun q hq => ?_
    · have hne : q ≠ p := by rintro rfl; exact hnot (by simp [hq])
      rw [if_neg hne]
    · have hne : q ≠ p := by rintro rfl; exact hnot (by simp [hq])
      rw [if_neg hne]
  rw [hrest, objects, hr, List.filterMap_append, List.filterMap_append, List.filterMap_cons, hp]
  exact List.perm_middle

theorem objects_modify {h : Heap α} {p : Addr} {v : α} (hp : h.load p = some v) (f : α → α) :
    (h.modify p f).objects.Perm ((p, f v) :: (h.free p).objects) := by
  have hload : (h.modify p f).load p = some (f v) := by simp [hp]
  have hfree : ((h.modify p f).free p).objects = (h.free p).objects := by
    refine objects_congr rfl (funext fun q => ?_)
    by_cases hq : q = p <;> simp [hq]
  rw [← hfree]
  exact objects_free hload

/-- A write that keeps what `f` reads does not show through `f`. -/
theorem objects_modify_map {β : Type*} (h : Heap α) (p : Addr) (f : α → β) (g : α → α)
    (hfg : ∀ v, f (g v) = f v) :
    ((h.modify p g).objects.map fun x => (x.1, f x.2)) = h.objects.map fun x => (x.1, f x.2) := by
  simp only [objects, List.map_filterMap, next_modify]
  refine List.filterMap_congr fun q _ => ?_
  by_cases hq : q = p
  · subst hq
    cases hv : h.load q <;> simp [hv, hfg]
  · simp [hq]

end TradeServer.Library.Heap
