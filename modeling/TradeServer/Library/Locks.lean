import Mathlib.Logic.Function.Basic
import Mathlib.Logic.Relation
import Mathlib.Tactic.SplitIfs
import TradeServer.Library.System

/-!
# Threads that lock and join

`Cmd` is what is left of a thread when only its mutexes, its joins and its control flow are kept;
all conditions are free choices. A thread runs on a stack of frames, so `break` and `return` leave
the loop or the call they stand in. `check` walks through a command with the locks held at its
start and finds those held at each of its exits; it fails where a lock is taken out of order,
released by a thread without it, or kept at a join or at the end. Where all threads pass, a mutex
is held exactly as `check` says, and no thread waits forever for threads that wait.
-/

namespace TradeServer.Library.Locks

variable {T L : Type*}

inductive Cmd (T L : Type*) where
  | skip
  | lock (l : L)
  | unlock (l : L)
  | join (t : T)
  | seq (c d : Cmd T L)
  | choice (c d : Cmd T L)
  /-- An endless loop, left by `brk`, `ret` or `exit`. -/
  | loop (c : Cmd T L)
  | brk
  | call (c : Cmd T L)
  | ret
  | exit

/-- A list of commands in order. -/
def Cmd.block : List (Cmd T L) → Cmd T L
  | [] => .skip
  | [c] => c
  | c :: cs => .seq c (block cs)

/-- An `if` without `else`. -/
def Cmd.maybe (c : Cmd T L) : Cmd T L := .choice c .skip

/-- A loop that may end before each round. -/
def Cmd.repeated (c : Cmd T L) : Cmd T L := .loop (.choice .brk c)

inductive Frame (T L : Type*) where
  | cmd (c : Cmd T L)
  | loop (c : Cmd T L)
  | call

/-- The rest of a thread behind its innermost loop. -/
def dropLoop : List (Frame T L) → List (Frame T L)
  | [] => []
  | .loop _ :: k => k
  | _ :: k => dropLoop k

/-- The rest of a thread behind its innermost call. -/
def dropCall : List (Frame T L) → List (Frame T L)
  | [] => []
  | .call :: k => k
  | _ :: k => dropCall k

structure Config (T L : Type*) where
  stack : T → List (Frame T L)
  owner : L → Option T

namespace Config

variable [DecidableEq T] [DecidableEq L]

def goto (s : Config T L) (t : T) (k : List (Frame T L)) : Config T L :=
  { s with stack := Function.update s.stack t k }

def setOwner (s : Config T L) (l : L) (o : Option T) : Config T L :=
  { s with owner := Function.update s.owner l o }

/-- The next step of a thread; `branch` is its choice, if it has one. A thread has no step while
it waits for a mutex or for the end of a thread, nor at an unlock of what it does not hold. -/
def step (s : Config T L) (t : T) (branch : Bool) : Option (Config T L) :=
  match s.stack t with
  | [] => none
  | .loop c :: k => some (s.goto t (.cmd (.loop c) :: k))
  | .call :: k => some (s.goto t k)
  | .cmd .skip :: k => some (s.goto t k)
  | .cmd (.lock l) :: k =>
    if s.owner l = none then some ((s.goto t k).setOwner l (some t)) else none
  | .cmd (.unlock l) :: k =>
    if s.owner l = some t then some ((s.goto t k).setOwner l none) else none
  | .cmd (.join u) :: k => if (s.stack u).isEmpty then some (s.goto t k) else none
  | .cmd (.seq c d) :: k => some (s.goto t (.cmd c :: .cmd d :: k))
  | .cmd (.choice c d) :: k => some (s.goto t (.cmd (if branch then c else d) :: k))
  | .cmd (.loop c) :: k => some (s.goto t (.cmd c :: .loop c :: k))
  | .cmd .brk :: k => some (s.goto t (dropLoop k))
  | .cmd (.call c) :: k => some (s.goto t (.cmd c :: .call :: k))
  | .cmd .ret :: k => some (s.goto t (dropCall k))
  | .cmd .exit :: _ => some (s.goto t [])

def Done (s : Config T L) (t : T) : Prop := s.stack t = []

def CanStep (s : Config T L) (t : T) : Prop := ∃ branch u, s.step t branch = some u

/-- Thread `t` is at a lock that `u` holds, or at a join of `u`, which is not done. -/
inductive WaitsFor (s : Config T L) (t u : T) : Prop where
  | lock {l : L} {k : List (Frame T L)} (hat : s.stack t = .cmd (.lock l) :: k)
      (hheld : s.owner l = some u)
  | join {k : List (Frame T L)} (hat : s.stack t = .cmd (.join u) :: k) (hrun : ¬ s.Done u)

end Config

/-- All threads from the start of their commands. -/
def program [DecidableEq T] [DecidableEq L] (code : T → Cmd T L) :
    System (Config T L) (T × Bool) where
  init s := s = ⟨fun t => [.cmd (code t)], fun _ => none⟩
  step s e u := s.step e.1 e.2 = some u

/-! ## The static check -/

/-- The locks held where a command ends, breaks or returns, if it does. -/
@[ext] structure Outcome (L : Type*) where
  next : Option (List L)
  brk : Option (List L)
  ret : Option (List L)

section Check

variable [DecidableEq L]

/-- The same locks on both ways to a place. -/
def merge : Option (List L) → Option (List L) → Option (Option (List L))
  | none, o => some o
  | o, none => some o
  | some held, some held' => if held = held' then some (some held) else none

def Outcome.merge (o o' : Outcome L) : Option (Outcome L) :=
  (Locks.merge o.next o'.next).bind fun next => (Locks.merge o.brk o'.brk).bind fun brk =>
    (Locks.merge o.ret o'.ret).map fun ret => ⟨next, brk, ret⟩

/-- `rank` is the order of the mutexes and `level` that of the joins. -/
def check (rank : L → Nat) (level : T → Nat) (me : T) : Cmd T L → List L → Option (Outcome L)
  | .skip, held => some ⟨some held, none, none⟩
  | .lock l, held =>
    if ∀ m ∈ held, rank m < rank l then some ⟨some (l :: held), none, none⟩ else none
  | .unlock l, held => if l ∈ held then some ⟨some (held.erase l), none, none⟩ else none
  | .join u, held =>
    if held = [] ∧ level u < level me then some ⟨some held, none, none⟩ else none
  | .seq c d, held => (check rank level me c held).bind fun o =>
    match o.next with
    | none => some o
    | some held' => (check rank level me d held').bind (Outcome.merge ⟨none, o.brk, o.ret⟩)
  | .choice c d, held => (check rank level me c held).bind fun o =>
    (check rank level me d held).bind o.merge
  | .loop c, held => (check rank level me c held).bind fun o =>
    if o.next = none ∨ o.next = some held then some ⟨o.brk, none, o.ret⟩ else none
  | .brk, held => some ⟨none, some held, none⟩
  | .call c, held => (check rank level me c held).bind fun o =>
    if o.brk = none then (Locks.merge o.next o.ret).map fun next => ⟨next, none, none⟩ else none
  | .ret, held => some ⟨none, none, some held⟩
  | .exit, held => if held = [] then some ⟨none, none, none⟩ else none

/-- A thread that passes ends without locks, whichever way it ends. -/
def passes (rank : L → Nat) (level : T → Nat) (me : T) (c : Cmd T L) : Bool :=
  match check rank level me c [] with
  | none => false
  | some o => o.next.getD [] = [] ∧ o.brk.getD [] = [] ∧ o.ret.getD [] = []

theorem merge_eq_some {o o' m : Option (List L)} (h : merge o o' = some m) {held : List L} :
    (o = some held → m = some held) ∧ (o' = some held → m = some held) := by
  cases o <;> cases o' <;> simp_all [merge]

theorem Outcome.merge_eq_some {o o' m : Outcome L} (h : o.merge o' = some m) {held : List L} :
    (o.next = some held ∨ o'.next = some held → m.next = some held) ∧
    (o.brk = some held ∨ o'.brk = some held → m.brk = some held) ∧
    (o.ret = some held ∨ o'.ret = some held → m.ret = some held) := by
  simp only [Outcome.merge, Option.bind_eq_some_iff, Option.map_eq_some_iff] at h
  obtain ⟨next, hnext, brk, hbrk, ret, hret, rfl⟩ := h
  refine ⟨fun h => h.elim ?_ ?_, fun h => h.elim ?_ ?_, fun h => h.elim ?_ ?_⟩
  exacts [(Locks.merge_eq_some hnext).1, (Locks.merge_eq_some hnext).2,
    (Locks.merge_eq_some hbrk).1, (Locks.merge_eq_some hbrk).2,
    (Locks.merge_eq_some hret).1, (Locks.merge_eq_some hret).2]

end Check

/-! ## Soundness of the check -/

section Soundness

variable [DecidableEq L] {rank : L → Nat} {level : T → Nat} {me t u : T}
  {c d : Cmd T L} {k k' : List (Frame T L)} {held : List L} {l : L} {o : Outcome L}

/-- The frames pass the check from the locks `held`. -/
inductive Fits (rank : L → Nat) (level : T → Nat) (me : T) : List (Frame T L) → List L → Prop where
  | done : Fits rank level me [] []
  | cmd {c : Cmd T L} {k : List (Frame T L)} {held : List L} {o : Outcome L}
      (hcheck : check rank level me c held = some o)
      (hnext : ∀ held', o.next = some held' → Fits rank level me k held')
      (hbrk : ∀ held', o.brk = some held' → Fits rank level me (dropLoop k) held')
      (hret : ∀ held', o.ret = some held' → Fits rank level me (dropCall k) held') :
      Fits rank level me (.cmd c :: k) held
  | loop {c : Cmd T L} {k : List (Frame T L)} {held : List L}
      (h : Fits rank level me (.cmd (.loop c) :: k) held) : Fits rank level me (.loop c :: k) held
  | call {k : List (Frame T L)} {held : List L} (h : Fits rank level me k held) :
      Fits rank level me (.call :: k) held

theorem Fits.inv (h : Fits rank level me (.cmd c :: k) held) :
    ∃ o, check rank level me c held = some o ∧
      (∀ held', o.next = some held' → Fits rank level me k held') ∧
      (∀ held', o.brk = some held' → Fits rank level me (dropLoop k) held') ∧
      (∀ held', o.ret = some held' → Fits rank level me (dropCall k) held') := by
  cases h with
  | cmd hcheck hnext hbrk hret => exact ⟨_, hcheck, hnext, hbrk, hret⟩

theorem Fits.of_passes (h : passes rank level me c) :
    Fits rank level me [.cmd c] [] := by
  unfold passes at h
  split at h
  · simp at h
  · next o hcheck =>
    obtain ⟨hnext, hbrk, hret⟩ := by simpa using h
    refine .cmd hcheck (fun held' h' => ?_) (fun held' h' => ?_) (fun held' h' => ?_)
    · obtain rfl : held' = [] := by simpa [h'] using hnext
      exact .done
    · obtain rfl : held' = [] := by simpa [h'] using hbrk
      exact .done
    · obtain rfl : held' = [] := by simpa [h'] using hret
      exact .done

/-- The ways out of a command are among those that fit. -/
theorem Fits.mono {m : Outcome L} (h : check rank level me c held = some o)
    (hnext : ∀ held', o.next = some held' → m.next = some held')
    (hbrk : ∀ held', o.brk = some held' → m.brk = some held')
    (hret : ∀ held', o.ret = some held' → m.ret = some held')
    (hm : (∀ held', m.next = some held' → Fits rank level me k held') ∧
      (∀ held', m.brk = some held' → Fits rank level me (dropLoop k) held') ∧
      (∀ held', m.ret = some held' → Fits rank level me (dropCall k) held')) :
    Fits rank level me (.cmd c :: k) held :=
  .cmd h (fun _ h' => hm.1 _ (hnext _ h')) (fun _ h' => hm.2.1 _ (hbrk _ h'))
    (fun _ h' => hm.2.2 _ (hret _ h'))

namespace Fits

theorem skip (h : Fits rank level me (.cmd .skip :: k) held) : Fits rank level me k held := by
  obtain ⟨o, hcheck, hnext, -⟩ := h.inv
  obtain rfl := Option.some.inj hcheck
  exact hnext held rfl

theorem lock (h : Fits rank level me (.cmd (.lock l) :: k) held) :
    (∀ m ∈ held, rank m < rank l) ∧ Fits rank level me k (l :: held) := by
  obtain ⟨o, hcheck, hnext, -⟩ := h.inv
  simp only [check] at hcheck
  split_ifs at hcheck with hrank
  obtain rfl := Option.some.inj hcheck
  exact ⟨hrank, hnext _ rfl⟩

theorem unlock (h : Fits rank level me (.cmd (.unlock l) :: k) held) :
    l ∈ held ∧ Fits rank level me k (held.erase l) := by
  obtain ⟨o, hcheck, hnext, -⟩ := h.inv
  simp only [check] at hcheck
  split_ifs at hcheck with hheld
  obtain rfl := Option.some.inj hcheck
  exact ⟨hheld, hnext _ rfl⟩

theorem join (h : Fits rank level me (.cmd (.join u) :: k) held) :
    held = [] ∧ level u < level me ∧ Fits rank level me k held := by
  obtain ⟨o, hcheck, hnext, -⟩ := h.inv
  simp only [check] at hcheck
  split_ifs at hcheck with hok
  obtain rfl := Option.some.inj hcheck
  exact ⟨hok.1, hok.2, hnext _ rfl⟩

theorem seq (h : Fits rank level me (.cmd (.seq c d) :: k) held) :
    Fits rank level me (.cmd c :: .cmd d :: k) held := by
  obtain ⟨m, hcheck, hm⟩ := h.inv
  simp only [check, Option.bind_eq_some_iff] at hcheck
  obtain ⟨o, hc, hcheck⟩ := hcheck
  cases hnext : o.next with
  | none =>
    obtain rfl : o = m := by simpa [hnext] using hcheck
    exact .cmd hc (by simp [hnext]) hm.2.1 hm.2.2
  | some held' =>
    simp only [hnext, Option.bind_eq_some_iff] at hcheck
    obtain ⟨o', hd, hmerge⟩ := hcheck
    refine .cmd hc (fun held'' h' => ?_) (fun held'' h' => ?_) (fun held'' h' => ?_)
    · obtain rfl : held' = held'' := by simpa [hnext] using h'
      exact .mono hd (fun _ h' => (Outcome.merge_eq_some hmerge).1 (.inr h'))
        (fun _ h' => (Outcome.merge_eq_some hmerge).2.1 (.inr h'))
        (fun _ h' => (Outcome.merge_eq_some hmerge).2.2 (.inr h')) hm
    · exact hm.2.1 _ ((Outcome.merge_eq_some hmerge).2.1 (.inl h'))
    · exact hm.2.2 _ ((Outcome.merge_eq_some hmerge).2.2 (.inl h'))

theorem choice (h : Fits rank level me (.cmd (.choice c d) :: k) held) (branch : Bool) :
    Fits rank level me (.cmd (if branch then c else d) :: k) held := by
  obtain ⟨m, hcheck, hm⟩ := h.inv
  simp only [check, Option.bind_eq_some_iff] at hcheck
  obtain ⟨o, hc, o', hd, hmerge⟩ := hcheck
  cases branch with
  | true =>
    exact .mono hc (fun _ h' => (Outcome.merge_eq_some hmerge).1 (.inl h'))
      (fun _ h' => (Outcome.merge_eq_some hmerge).2.1 (.inl h'))
      (fun _ h' => (Outcome.merge_eq_some hmerge).2.2 (.inl h')) hm
  | false =>
    exact .mono hd (fun _ h' => (Outcome.merge_eq_some hmerge).1 (.inr h'))
      (fun _ h' => (Outcome.merge_eq_some hmerge).2.1 (.inr h'))
      (fun _ h' => (Outcome.merge_eq_some hmerge).2.2 (.inr h')) hm

/-- The locks at the start of a loop are those of each of its rounds. -/
theorem enter (h : Fits rank level me (.cmd (.loop c) :: k) held) :
    Fits rank level me (.cmd c :: .loop c :: k) held := by
  obtain ⟨m, hcheck, hm⟩ := h.inv
  simp only [check, Option.bind_eq_some_iff] at hcheck
  obtain ⟨o, hc, hcheck⟩ := hcheck
  split_ifs at hcheck with hround
  obtain rfl := Option.some.inj hcheck
  refine .cmd hc (fun held' h' => ?_) hm.1 hm.2.2
  obtain rfl : held = held' := by
    rcases hround with hnone | hsame
    · simp [hnone] at h'
    · exact Option.some.inj (hsame.symm.trans h')
  exact .loop h

theorem callee (h : Fits rank level me (.cmd (.call c) :: k) held) :
    Fits rank level me (.cmd c :: .call :: k) held := by
  obtain ⟨m, hcheck, hm⟩ := h.inv
  simp only [check, Option.bind_eq_some_iff] at hcheck
  obtain ⟨o, hc, hcheck⟩ := hcheck
  split_ifs at hcheck with hbrk
  obtain ⟨next, hmerge, rfl⟩ := Option.map_eq_some_iff.mp hcheck
  exact .cmd hc (fun held' h' => .call (hm.1 _ ((merge_eq_some hmerge).1 h')))
    (by simp [hbrk]) fun held' h' => hm.1 _ ((merge_eq_some hmerge).2 h')

theorem leave (h : Fits rank level me (.cmd .brk :: k) held) :
    Fits rank level me (dropLoop k) held := by
  obtain ⟨m, hcheck, -, hbrk, -⟩ := h.inv
  obtain rfl := Option.some.inj hcheck
  exact hbrk held rfl

theorem ret (h : Fits rank level me (.cmd .ret :: k) held) :
    Fits rank level me (dropCall k) held := by
  obtain ⟨m, hcheck, -, -, hret⟩ := h.inv
  obtain rfl := Option.some.inj hcheck
  exact hret held rfl

theorem exit (h : Fits rank level me (.cmd .exit :: k) held) : held = [] := by
  obtain ⟨m, hcheck, -⟩ := h.inv
  simp only [check] at hcheck
  split_ifs at hcheck with hheld
  exact hheld

end Fits

end Soundness

/-! ## All threads -/

section Program

variable [DecidableEq T] [DecidableEq L] {rank : L → Nat} {level : T → Nat} {s s' : Config T L}
  {t u : T} {held : T → List L}

/-- Each thread fits with its locks, which are exactly those that it owns. -/
structure Held (rank : L → Nat) (level : T → Nat) (s : Config T L) (held : T → List L) :
    Prop where
  fits : ∀ t, Fits rank level t (s.stack t) (held t)
  owns : ∀ t l, l ∈ held t ↔ s.owner l = some t
  nodup : ∀ t, (held t).Nodup

namespace Held

/-- A thread moves on with the same locks. -/
theorem goto {k : List (Frame T L)} (h : Held rank level s held)
    (hk : Fits rank level t k (held t)) : Held rank level (s.goto t k) held where
  fits u := by
    obtain rfl | hu := eq_or_ne u t
    · simpa [Config.goto] using hk
    · simpa [Config.goto, hu] using h.fits u
  owns := h.owns
  nodup := h.nodup

theorem acquire {k : List (Frame T L)} {l : L} (h : Held rank level s held)
    (hfree : s.owner l = none) (hk : Fits rank level t k (l :: held t)) :
    Held rank level ((s.goto t k).setOwner l (some t))
      (Function.update held t (l :: held t)) where
  fits u := by
    obtain rfl | hu := eq_or_ne u t
    · simpa [Config.goto, Config.setOwner] using hk
    · simpa [Config.goto, Config.setOwner, hu] using h.fits u
  owns u m := by
    have hnone : l ∉ held u := by simp [h.owns, hfree]
    obtain rfl | hm := eq_or_ne m l
    · obtain rfl | hu := eq_or_ne u t
      · simp [Config.setOwner]
      · simp [Config.setOwner, hu, hnone, hu.symm]
    · obtain rfl | hu := eq_or_ne u t
      · simp [Config.setOwner, Config.goto, hm, h.owns]
      · simp [Config.setOwner, Config.goto, hm, hu, h.owns]
  nodup u := by
    obtain rfl | hu := eq_or_ne u t
    · simpa [h.owns, hfree] using h.nodup u
    · simpa [hu] using h.nodup u

theorem release {k : List (Frame T L)} {l : L} (h : Held rank level s held)
    (howner : s.owner l = some t) (hk : Fits rank level t k ((held t).erase l)) :
    Held rank level ((s.goto t k).setOwner l none)
      (Function.update held t ((held t).erase l)) where
  fits u := by
    obtain rfl | hu := eq_or_ne u t
    · simpa [Config.goto, Config.setOwner] using hk
    · simpa [Config.goto, Config.setOwner, hu] using h.fits u
  owns u m := by
    obtain rfl | hu := eq_or_ne u t
    · rw [Function.update_self, (h.nodup u).mem_erase_iff, h.owns]
      obtain rfl | hm := eq_or_ne m l
      · simp [Config.setOwner]
      · simp [Config.setOwner, Config.goto, hm]
    · rw [Function.update_of_ne hu, h.owns]
      obtain rfl | hm := eq_or_ne m l
      · simp [Config.setOwner, howner, hu.symm]
      · simp [Config.setOwner, Config.goto, hm]
  nodup u := by
    obtain rfl | hu := eq_or_ne u t
    · simpa using (h.nodup u).erase l
    · simpa [hu] using h.nodup u

theorem step {branch : Bool} (h : Held rank level s held) (hstep : s.step t branch = some s') :
    ∃ held', Held rank level s' held' := by
  have hfits := h.fits t
  unfold Config.step at hstep
  split at hstep
  · simp at hstep
  · next c k hk =>
    rw [hk] at hfits
    obtain rfl := Option.some.inj hstep
    cases hfits with
    | loop hloop => exact ⟨held, h.goto hloop⟩
  · next k hk =>
    rw [hk] at hfits
    obtain rfl := Option.some.inj hstep
    cases hfits with
    | call hcall => exact ⟨held, h.goto hcall⟩
  · next k hk => exact ⟨held, Option.some.inj hstep ▸ h.goto (hk ▸ hfits).skip⟩
  · next l k hk =>
    split_ifs at hstep with hfree
    exact ⟨_, Option.some.inj hstep ▸ h.acquire hfree (hk ▸ hfits).lock.2⟩
  · next l k hk =>
    split_ifs at hstep with howner
    exact ⟨_, Option.some.inj hstep ▸ h.release howner (hk ▸ hfits).unlock.2⟩
  · next u k hk =>
    split_ifs at hstep
    exact ⟨held, Option.some.inj hstep ▸ h.goto (hk ▸ hfits).join.2.2⟩
  · next c d k hk => exact ⟨held, Option.some.inj hstep ▸ h.goto (hk ▸ hfits).seq⟩
  · next c d k hk => exact ⟨held, Option.some.inj hstep ▸ h.goto ((hk ▸ hfits).choice branch)⟩
  · next c k hk => exact ⟨held, Option.some.inj hstep ▸ h.goto (hk ▸ hfits).enter⟩
  · next k hk => exact ⟨held, Option.some.inj hstep ▸ h.goto (hk ▸ hfits).leave⟩
  · next c k hk => exact ⟨held, Option.some.inj hstep ▸ h.goto (hk ▸ hfits).callee⟩
  · next k hk => exact ⟨held, Option.some.inj hstep ▸ h.goto (hk ▸ hfits).ret⟩
  · next k hk =>
    have hnone : held t = [] := (hk ▸ hfits).exit
    exact ⟨held, Option.some.inj hstep ▸ h.goto (hnone ▸ .done)⟩

omit [DecidableEq T] in
/-- A thread that is done holds nothing. -/
theorem done (h : Held rank level s held) (hdone : s.Done t) : held t = [] := by
  have hfits := h.fits t
  rw [show s.stack t = [] from hdone] at hfits
  generalize held t = locks at hfits ⊢
  cases hfits
  rfl

/-- A thread that can do nothing waits for another one that is not done. -/
theorem waits (h : Held rank level s held) (hdone : ¬ s.Done t) (hstuck : ¬ s.CanStep t) :
    ∃ u, s.WaitsFor t u ∧ ¬ s.Done u := by
  have hfits := h.fits t
  have hnone : ∀ branch, s.step t branch = none := by
    intro branch
    by_contra hsome
    obtain ⟨u, hu⟩ := Option.ne_none_iff_exists'.mp hsome
    exact hstuck ⟨branch, u, hu⟩
  have hstep := hnone true
  unfold Config.step at hstep
  split at hstep
  · next hnil => exact absurd hnil hdone
  any_goals cases hstep
  · next l k hk =>
    split_ifs at hstep with hfree
    obtain ⟨u, hu⟩ := Option.ne_none_iff_exists'.mp hfree
    refine ⟨u, .lock hk hu, fun hend => ?_⟩
    have := (h.owns u l).mpr hu
    simp [h.done hend] at this
  · next l k hk =>
    split_ifs at hstep with howner
    exact absurd ((h.owns t l).mp (hk ▸ hfits).unlock.1) howner
  · next u k hk =>
    split_ifs at hstep with hend
    have hrun : ¬ s.Done u := by simpa [Config.Done] using hend
    exact ⟨u, .join hk hrun, hrun⟩

end Held

/-- How far a waiting thread is from one that can go on: lock waits go up in the order of the
mutexes, and below a join there are threads of a lower level. -/
def waitRank (rank : L → Nat) (level : T → Nat) (top : Nat) (s : Config T L) (t : T) : Nat :=
  match s.stack t with
  | .cmd (.lock l) :: _ => top - rank l
  | .cmd (.join _) :: _ => top + 1 + level t
  | _ => 0

theorem Held.waitRank_lt {top : Nat} (h : Held rank level s held) (htop : ∀ l, rank l < top)
    (hwait : s.WaitsFor t u) (hdone : ¬ s.Done u) (hstuck : ¬ s.CanStep u) :
    waitRank rank level top s u < waitRank rank level top s t := by
  obtain ⟨v, hv, -⟩ := h.waits hdone hstuck
  have hu := h.fits u
  have ht := h.fits t
  cases hwait with
  | @lock l k hat hheld =>
    cases hv with
    | @lock l' k' hat' hheld' =>
      -- `u` holds the mutex of `t`, so its own is later in the order
      have hlt := (hat' ▸ hu).lock.1 l ((h.owns u l).mpr hheld)
      have := htop l'
      simp only [waitRank, hat, hat']
      omega
    | join hat' =>
      have hnone := (hat' ▸ hu).join.1
      have := (h.owns u l).mpr hheld
      simp [hnone] at this
  | join hat =>
    have hlt := (hat ▸ ht).join.2.1
    cases hv with
    | lock hat' =>
      simp only [waitRank, hat, hat']
      omega
    | join hat' =>
      simp only [waitRank, hat, hat']
      omega

/-- What the check promises of a state that the threads reach. -/
structure Disciplined (rank : L → Nat) (s : Config T L) : Prop where
  /-- A thread that can do nothing waits, directly or not, for one that can. -/
  waits : ∀ t, ¬ s.Done t → ∃ u, Relation.ReflTransGen s.WaitsFor t u ∧ s.CanStep u
  /-- A mutex is unlocked by its owner only, and not locked by it again. -/
  unlocks : ∀ t l k, s.stack t = .cmd (.unlock l) :: k → s.owner l = some t
  locks : ∀ t l k, s.stack t = .cmd (.lock l) :: k → s.owner l ≠ some t
  /-- A mutex is locked after all that its thread has, in the order of the ranks. -/
  ordered : ∀ t l k, s.stack t = .cmd (.lock l) :: k → ∀ m, s.owner m = some t → rank m < rank l
  /-- A thread that is done has released all. -/
  released : ∀ t l, s.Done t → s.owner l ≠ some t

theorem Held.disciplined {top : Nat} (h : Held rank level s held) (htop : ∀ l, rank l < top) :
    Disciplined rank s where
  waits t hdone := by
    induction hr : waitRank rank level top s t using Nat.strongRecOn generalizing t with
    | ind r ih =>
      by_cases hstep : s.CanStep t
      · exact ⟨t, .refl, hstep⟩
      · obtain ⟨u, hwait, hu⟩ := h.waits hdone hstep
        by_cases hstep' : s.CanStep u
        · exact ⟨u, .single hwait, hstep'⟩
        · have hlt := h.waitRank_lt htop hwait hu hstep'
          obtain ⟨v, hchain, hv⟩ := ih _ (hr ▸ hlt) u hu rfl
          exact ⟨v, .head hwait hchain, hv⟩
  unlocks t l k hk := (h.owns t l).mp (hk ▸ h.fits t).unlock.1
  locks t l k hk howner :=
    absurd ((hk ▸ h.fits t).lock.1 l ((h.owns t l).mpr howner)) (Nat.lt_irrefl _)
  ordered t l k hk m howner := (hk ▸ h.fits t).lock.1 m ((h.owns t m).mpr howner)
  released t l hdone howner := by
    have := (h.owns t l).mpr howner
    simp [h.done hdone] at this

/-- Threads that pass the check keep the discipline in every state that they reach. -/
theorem disciplined_of_passes {code : T → Cmd T L} {top : Nat} (htop : ∀ l, rank l < top)
    (hcode : ∀ t, passes rank level t (code t)) (h : (program code).Reachable s) :
    Disciplined rank s := by
  have hinv : (program code).Invariant fun s => ∃ held, Held rank level s held := by
    refine ⟨?_, fun s e u ⟨held, hs⟩ hstep => hs.step hstep⟩
    rintro s rfl
    exact ⟨fun _ => [], fun t => .of_passes (hcode t), by simp, fun _ => List.nodup_nil⟩
  obtain ⟨held, hs⟩ := hinv.of_reachable h
  exact hs.disciplined htop

end Program

end TradeServer.Library.Locks
