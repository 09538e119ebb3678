import Mathlib.Data.List.Basic

/-!
# Records in brackets

A text of named lists: a record is a text in brackets, a list of records is in brackets
itself, and its name is the letters and digits before it. The reader takes one character
after another and knows only where it is, so that it also reads a list that is not yet
closed.
-/

namespace TradeServer.Library

/-- Where the reader is: between the lists, in a list, or in a record of a list. -/
inductive Place where
  | outside
  | inside
  | record (text : List Char)

structure Reader where
  place : Place
  name : List Char
  records : List (List Char × List Char)

namespace Reader

def step (r : Reader) (c : Char) : Reader :=
  match r.place with
  | .outside =>
    if c = '[' then { r with place := .inside }
    else if c = ',' then { r with name := [] }
    else if c.isAlphanum then { r with name := r.name ++ [c] }
    else r
  | .inside =>
    if c = '[' then { r with place := .record ['['] }
    else if c = ']' then { r with place := .outside }
    else r
  | .record text =>
    if c = ']' then { r with place := .inside, records := r.records ++ [(r.name, text ++ [']'])] }
    else { r with place := .record (text ++ [c]) }

def run (r : Reader) (text : List Char) : Reader := text.foldl step r

@[simp] theorem run_nil (r : Reader) : r.run [] = r := rfl

@[simp] theorem run_cons (r : Reader) (c : Char) (text : List Char) :
    r.run (c :: text) = (r.step c).run text := rfl

@[simp] theorem run_append (r : Reader) (text text' : List Char) :
    r.run (text ++ text') = (r.run text).run text' := by
  simp [run]

end Reader

/-- The records of a text of named lists, each with the name of its list. -/
def readLists (text : List Char) : List (List Char × List Char) :=
  (Reader.run ⟨.outside, [], []⟩ text).records

/-- The records of a list that is not yet closed. -/
def readRecords (text : List Char) : List (List Char) :=
  (Reader.run ⟨.inside, [], []⟩ text).records.map Prod.snd

/-- One pair of brackets around a text without closing bracket. -/
def IsRecord (t : List Char) : Prop := ∃ body, t = '[' :: body ++ [']'] ∧ ']' ∉ body

/-- Records, each with a comma behind it. -/
def pendingText (ts : List (List Char)) : List Char := ts.flatMap (· ++ [','])

/-- A named list of records. -/
def listText (name : List Char) (ts : List (List Char)) : List Char :=
  '"' :: name ++ ['"', ':', '['] ++ [','].intercalate ts ++ [']']

/-- The list is closed by taking the last comma away. -/
theorem dropLast_pendingText (ts : List (List Char)) :
    (pendingText ts).dropLast = [','].intercalate ts := by
  induction ts with
  | nil => rfl
  | cons t ts ih =>
    cases ts with
    | nil => simp [pendingText, List.intercalate]
    | cons t' ts =>
      have hne : pendingText (t' :: ts) ≠ [] := by simp [pendingText]
      calc (pendingText (t :: t' :: ts)).dropLast
          = (t ++ [','] ++ pendingText (t' :: ts)).dropLast := rfl
        _ = t ++ [','] ++ [','].intercalate (t' :: ts) := by
          rw [List.dropLast_append_of_ne_nil hne, ih]
        _ = [','].intercalate (t :: t' :: ts) := List.intercalate_cons_cons.symm

/-- Behind records with commas a text is the last piece of the list. -/
theorem pendingText_append (ts : List (List Char)) (last : List Char) :
    pendingText ts ++ last = [','].intercalate (ts ++ [last]) := by
  induction ts with
  | nil => simp [pendingText]
  | cons t ts ih =>
    have hne : ts ++ [last] ≠ [] := by simp
    obtain ⟨t', ts', heq⟩ := List.exists_cons_of_ne_nil hne
    calc pendingText (t :: ts) ++ last = t ++ [','] ++ (pendingText ts ++ last) := by
          simp [pendingText]
      _ = [','].intercalate (t :: (ts ++ [last])) := by
          rw [ih, heq, List.intercalate_cons_cons]

namespace Reader

variable {t body text name : List Char} {ts : List (List Char)}
variable {rs : List (List Char × List Char)}

theorem run_body (hbody : ']' ∉ body) :
    run ⟨.record text, name, rs⟩ body = ⟨.record (text ++ body), name, rs⟩ := by
  induction body generalizing text with
  | nil => simp
  | cons c body ih =>
    have hc : c ≠ ']' := fun heq => hbody (by simp [heq])
    have hstep : step ⟨.record text, name, rs⟩ c = ⟨.record (text ++ [c]), name, rs⟩ := by
      simp [step, hc]
    rw [run_cons, hstep, ih (fun hmem => hbody (by simp [hmem]))]
    simp

theorem run_record (ht : IsRecord t) :
    run ⟨.inside, name, rs⟩ t = ⟨.inside, name, rs ++ [(name, t)]⟩ := by
  obtain ⟨body, rfl, hbody⟩ := ht
  have hopen : step ⟨.inside, name, rs⟩ '[' = ⟨.record ['['], name, rs⟩ := rfl
  rw [List.cons_append, run_cons, hopen, run_append, run_body hbody]
  rfl

theorem step_comma : step ⟨.inside, name, rs⟩ ',' = ⟨.inside, name, rs⟩ := rfl

theorem run_pendingText (hts : ∀ t ∈ ts, IsRecord t) :
    run ⟨.inside, name, rs⟩ (pendingText ts) = ⟨.inside, name, rs ++ ts.map (name, ·)⟩ := by
  induction ts generalizing rs with
  | nil => simp [pendingText]
  | cons t ts ih =>
    have hcons : pendingText (t :: ts) = t ++ ',' :: pendingText ts := by simp [pendingText]
    rw [hcons, run_append, run_record (hts t (by simp)), run_cons, step_comma,
      ih (fun t' ht' => hts t' (by simp [ht']))]
    simp

theorem run_intercalate (hts : ∀ t ∈ ts, IsRecord t) :
    run ⟨.inside, name, rs⟩ ([','].intercalate ts) = ⟨.inside, name, rs ++ ts.map (name, ·)⟩ := by
  induction ts generalizing rs with
  | nil => simp [List.intercalate]
  | cons t ts ih =>
    have ht : run ⟨.inside, name, rs⟩ t = ⟨.inside, name, rs ++ [(name, t)]⟩ :=
      run_record (hts t (by simp))
    cases ts with
    | nil => simpa [List.intercalate] using ht
    | cons t' ts =>
      rw [List.intercalate_cons_cons, run_append, run_append, ht, run_cons, run_nil, step_comma,
        ih (fun t' ht' => hts t' (by simp [ht']))]
      simp

theorem run_name {pre : List Char} (hname : ∀ c ∈ name, c.isAlphanum) :
    run ⟨.outside, pre, rs⟩ name = ⟨.outside, pre ++ name, rs⟩ := by
  induction name generalizing pre with
  | nil => simp
  | cons c name ih =>
    have hc := hname c (by simp)
    have hstep : step ⟨.outside, pre, rs⟩ c = ⟨.outside, pre ++ [c], rs⟩ := by
      have hopen : c ≠ '[' := by rintro rfl; exact absurd hc (by decide)
      have hcomma : c ≠ ',' := by rintro rfl; exact absurd hc (by decide)
      simp [step, hopen, hcomma, hc]
    rw [run_cons, hstep, ih (fun c' hc' => hname c' (by simp [hc']))]
    simp

theorem run_listText (hname : ∀ c ∈ name, c.isAlphanum) (hts : ∀ t ∈ ts, IsRecord t) :
    run ⟨.outside, [], rs⟩ (listText name ts) = ⟨.outside, name, rs ++ ts.map (name, ·)⟩ := by
  have hopen : run ⟨.outside, [], rs⟩ ('"' :: name ++ ['"', ':', '[']) = ⟨.inside, name, rs⟩ := by
    have hquote : step ⟨.outside, [], rs⟩ '"' = ⟨.outside, [], rs⟩ := rfl
    rw [List.cons_append, run_cons, hquote, run_append, run_name hname]
    rfl
  rw [listText, run_append, run_append, hopen, run_intercalate hts]
  rfl

variable (rs) in
/-- The reader finds the records of every list under its name. -/
theorem run_join {ι : Type*} {lists : ι → List Char} {records : ι → List (List Char)} {is : List ι}
    (hname : ∀ i ∈ is, ∀ c ∈ lists i, c.isAlphanum)
    (hrec : ∀ i ∈ is, ∀ t ∈ records i, IsRecord t) :
    ∃ name, run ⟨.outside, [], rs⟩
        ([','].intercalate (is.map fun i => listText (lists i) (records i))) =
      ⟨.outside, name, rs ++ is.flatMap fun i => (records i).map (lists i, ·)⟩ := by
  induction is generalizing rs with
  | nil => exact ⟨[], by simp [List.intercalate]⟩
  | cons i is ih =>
    have hi : run ⟨.outside, [], rs⟩ (listText (lists i) (records i)) =
        ⟨.outside, lists i, rs ++ (records i).map (lists i, ·)⟩ :=
      run_listText (hname i (by simp)) (hrec i (by simp))
    cases is with
    | nil => exact ⟨lists i, by simpa [List.intercalate] using hi⟩
    | cons i' is =>
      obtain ⟨name, hrest⟩ := ih (rs ++ (records i).map (lists i, ·))
        (fun j hj => hname j (by simp [hj])) (fun j hj => hrec j (by simp [hj]))
      have hcomma : step ⟨.outside, lists i, rs ++ (records i).map (lists i, ·)⟩ ',' =
          ⟨.outside, [], rs ++ (records i).map (lists i, ·)⟩ := rfl
      refine ⟨name, ?_⟩
      rw [List.map_cons, List.map_cons, List.intercalate_cons_cons, run_append, run_append, hi,
        run_cons, run_nil, hcomma]
      exact hrest.trans (by simp)

end Reader

/-- A list that is not yet closed has the records that were appended to it. -/
theorem readRecords_pendingText {ts : List (List Char)} (hts : ∀ t ∈ ts, IsRecord t) :
    readRecords (pendingText ts) = ts := by
  rw [readRecords, Reader.run_pendingText hts]
  simp [Function.comp_def]

theorem readLists_join {ι : Type*} {lists : ι → List Char} {records : ι → List (List Char)}
    {is : List ι} (hname : ∀ i ∈ is, ∀ c ∈ lists i, c.isAlphanum)
    (hrec : ∀ i ∈ is, ∀ t ∈ records i, IsRecord t) :
    readLists ('{' :: [','].intercalate (is.map fun i => listText (lists i) (records i)) ++ ['}']) =
      is.flatMap fun i => (records i).map (lists i, ·) := by
  have hopen : Reader.step ⟨.outside, [], []⟩ '{' = ⟨.outside, [], []⟩ := rfl
  obtain ⟨name, hlists⟩ := Reader.run_join [] hname hrec
  rw [readLists, List.cons_append, Reader.run_cons, hopen, Reader.run_append, hlists]
  rfl

end TradeServer.Library
