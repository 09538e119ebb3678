import Mathlib.Data.List.Basic

/-!
# Event streams

A stream of server-sent events is read line by line. A line ends with a line feed, a carriage
return, or both; a blank line ends the event of the lines before it. The text of an event
is its lines, each with a line feed, and a blank line.
-/

namespace TradeServer.Library

/-- A text without a line end. -/
def IsLine (l : List Char) : Prop := '\n' ∉ l ∧ '\r' ∉ l

instance : DecidablePred IsLine := fun _ => inferInstanceAs (Decidable (_ ∧ _))

/-- A field: a name, a colon, and a value. -/
def IsField (l : List Char) : Prop :=
  IsLine l ∧ ∃ name value, l = name ++ ':' :: value ∧ name ≠ [] ∧ ':' ∉ name

structure Event where
  lines : List (List Char)
  ne_nil : lines ≠ []
  fields : ∀ l ∈ lines, IsField l

def Event.text (e : Event) : List Char := e.lines.flatMap (· ++ ['\n']) ++ ['\n']

/-- The events read so far, the lines of the next one, and its latest line. -/
structure StreamReader where
  events : List (List (List Char))
  lines : List (List Char)
  line : List Char
  afterCr : Bool

namespace StreamReader

def step (s : StreamReader) (c : Char) : StreamReader :=
  if c = '\n' ∧ s.afterCr = true then { s with afterCr := false }
  else if c = '\n' ∨ c = '\r' then
    if s.line ≠ [] then { s with lines := s.lines ++ [s.line], line := [], afterCr := c = '\r' }
    else if s.lines ≠ [] then ⟨s.events ++ [s.lines], [], [], c = '\r'⟩
    else { s with afterCr := c = '\r' }
  else { s with line := s.line ++ [c], afterCr := false }

def run (s : StreamReader) (text : List Char) : StreamReader := text.foldl step s

@[simp] theorem run_nil (s : StreamReader) : s.run [] = s := rfl

@[simp] theorem run_cons (s : StreamReader) (c : Char) (text : List Char) :
    s.run (c :: text) = (s.step c).run text := rfl

@[simp] theorem run_append (s : StreamReader) (text text' : List Char) :
    s.run (text ++ text') = (s.run text).run text' := by
  simp [run]

end StreamReader

/-- The lines of each complete event of a stream. -/
def readEvents (text : List Char) : List (List (List Char)) :=
  (StreamReader.run ⟨[], [], [], false⟩ text).events

theorem isLine_append {l l' : List Char} : IsLine (l ++ l') ↔ IsLine l ∧ IsLine l' := by
  simp only [IsLine, List.mem_append]
  tauto

namespace StreamReader

variable {events : List (List (List Char))} {lines ls : List (List Char)} {line l : List Char}

theorem run_line (hl : IsLine l) :
    run ⟨events, lines, line, false⟩ l = ⟨events, lines, line ++ l, false⟩ := by
  induction l generalizing line with
  | nil => simp
  | cons c l ih =>
    obtain ⟨hc, hrest⟩ := isLine_append.mp (show IsLine ([c] ++ l) from hl)
    have hne : c ≠ '\n' ∧ c ≠ '\r' := by simpa [IsLine, eq_comm] using hc
    have hstep : step ⟨events, lines, line, false⟩ c = ⟨events, lines, line ++ [c], false⟩ := by
      simp [step, hne]
    rw [run_cons, hstep, ih hrest]
    simp

theorem run_lines (hls : ∀ l ∈ ls, IsLine l ∧ l ≠ []) :
    run ⟨events, lines, [], false⟩ (ls.flatMap (· ++ ['\n'])) =
      ⟨events, lines ++ ls, [], false⟩ := by
  induction ls generalizing lines with
  | nil => simp
  | cons l ls ih =>
    obtain ⟨hl, hne⟩ := hls l (by simp)
    have hend : step ⟨events, lines, l, false⟩ '\n' = ⟨events, lines ++ [l], [], false⟩ := by
      simp [step, hne]
    rw [List.flatMap_cons, run_append, run_append, run_line hl, List.nil_append, run_cons, hend,
      run_nil, ih fun l' hl' => hls l' (by simp [hl'])]
    simp

theorem run_text (e : Event) :
    run ⟨events, [], [], false⟩ e.text = ⟨events ++ [e.lines], [], [], false⟩ := by
  have hls : ∀ l ∈ e.lines, IsLine l ∧ l ≠ [] := by
    intro l hl
    obtain ⟨hline, name, value, rfl, -⟩ := e.fields l hl
    exact ⟨hline, by simp⟩
  rw [Event.text, run_append, run_lines hls]
  simp [step, e.ne_nil]

end StreamReader

theorem StreamReader.run_flatMap_text (es : List Event) {events : List (List (List Char))} :
    StreamReader.run ⟨events, [], [], false⟩ (es.flatMap Event.text) =
      ⟨events ++ es.map Event.lines, [], [], false⟩ := by
  induction es generalizing events with
  | nil => simp
  | cons e es ih =>
    rw [List.flatMap_cons, StreamReader.run_append, StreamReader.run_text, ih]
    simp

/-- The texts of events, one after another, are read as these events. -/
theorem readEvents_flatMap_text (es : List Event) :
    readEvents (es.flatMap Event.text) = es.map Event.lines := by
  rw [readEvents, StreamReader.run_flatMap_text]
  rfl

/-- What was read stays read. -/
theorem StreamReader.events_run (s : StreamReader) (text : List Char) :
    s.events <+: (s.run text).events := by
  induction text generalizing s with
  | nil => exact List.prefix_rfl
  | cons c text ih =>
    refine List.IsPrefix.trans ?_ (ih (s.step c))
    unfold step
    split_ifs <;> simp

/-- An event that is cut short is not read. -/
theorem readEvents_flatMap_text_append (es : List Event) {e : Event} {part : List Char}
    (hpart : part <+: e.text) (hlen : part.length < e.text.length) :
    readEvents (es.flatMap Event.text ++ part) = es.map Event.lines := by
  have hls : ∀ l ∈ e.lines, IsLine l ∧ l ≠ [] := by
    intro l hl
    obtain ⟨hline, name, value, rfl, -⟩ := e.fields l hl
    exact ⟨hline, by simp⟩
  obtain rfl | ⟨rest, hrest⟩ := List.prefix_concat_iff.mp hpart
  · exact absurd hlen (Nat.lt_irrefl _)
  · have hstart : StreamReader.run ⟨[], [], [], false⟩ (es.flatMap Event.text) = _ :=
      StreamReader.run_flatMap_text es
    have hall : StreamReader.run ⟨es.map Event.lines, [], [], false⟩ (part ++ rest) = _ :=
      hrest ▸ StreamReader.run_lines hls
    rw [StreamReader.run_append] at hall
    have hbefore := StreamReader.events_run ⟨es.map Event.lines, [], [], false⟩ part
    have hafter := StreamReader.events_run
      (StreamReader.run ⟨es.map Event.lines, [], [], false⟩ part) rest
    rw [hall] at hafter
    rw [readEvents, StreamReader.run_append, hstart]
    exact (hbefore.eq_of_length_le hafter.length_le).symm

theorem Event.getLast?_text (e : Event) : e.text.getLast? = some '\n' := by
  simp [Event.text]

end TradeServer.Library
