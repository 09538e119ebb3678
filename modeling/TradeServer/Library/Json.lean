import Mathlib.Data.Rat.Defs
import TradeServer.Library.Digits

/-!
# JSON texts

The grammar of RFC 8259, as a relation between a text and the value it denotes. Numbers denote
rationals, strings their code units, and objects all their members in sequence.

A scan from left to right rejects some texts that are no JSON: outside of the strings, every colon
follows a string.
-/

namespace TradeServer.Library

inductive Json where
  | null
  | bool (b : Bool)
  | number (q : ℚ)
  | string (units : List Nat)
  | array (vs : List Json)
  | object (ms : List (List Nat × Json))

namespace Json

/-! ## The grammar -/

def IsWs (text : List Char) : Prop := ∀ c ∈ text, c ∈ [' ', '\t', '\n', '\r']

def IsDigits (text : List Char) : Prop := text ≠ [] ∧ ∀ c ∈ text, c.isDigit

/-- Only the zero itself starts with a zero. -/
def IsInt (text : List Char) : Prop := IsDigits text ∧ (text.head? = some '0' → text = ['0'])

inductive IsFraction : List Char → ℚ → Prop
  | absent : IsFraction [] 0
  | digits {ds : List Char} (hds : IsDigits ds) :
      IsFraction ('.' :: ds) (readDigits ds / 10 ^ ds.length)

inductive IsExponent : List Char → ℤ → Prop
  | absent : IsExponent [] 0
  | positive {e : Char} {sign ds : List Char} (he : e = 'e' ∨ e = 'E')
      (hsign : sign = [] ∨ sign = ['+']) (hds : IsDigits ds) :
      IsExponent (e :: sign ++ ds) (readDigits ds)
  | negative {e : Char} {ds : List Char} (he : e = 'e' ∨ e = 'E') (hds : IsDigits ds) :
      IsExponent (e :: '-' :: ds) (-readDigits ds)

inductive IsNumber : List Char → ℚ → Prop
  | unsigned {int fraction exponent : List Char} {f : ℚ} {n : ℤ} (hint : IsInt int)
      (hf : IsFraction fraction f) (hn : IsExponent exponent n) :
      IsNumber (int ++ fraction ++ exponent) ((readDigits int + f) * 10 ^ n)
  | negative {int fraction exponent : List Char} {f : ℚ} {n : ℤ} (hint : IsInt int)
      (hf : IsFraction fraction f) (hn : IsExponent exponent n) :
      IsNumber ('-' :: int ++ fraction ++ exponent) (-((readDigits int + f) * 10 ^ n))

/-- The characters that stand for themselves in a string. -/
def IsPlain (c : Char) : Prop := 32 ≤ c.toNat ∧ c ≠ '"' ∧ c ≠ '\\'

/-- The letters behind a backslash and the code units they stand for. -/
def escapes : List (Char × Nat) :=
  [('"', 34), ('\\', 92), ('/', 47), ('b', 8), ('f', 12), ('n', 10), ('r', 13), ('t', 9)]

def hexDigits : List Char :=
  ['0', '1', '2', '3', '4', '5', '6', '7', '8', '9', 'a', 'b', 'c', 'd', 'e', 'f', 'A', 'B', 'C',
    'D', 'E', 'F']

/-- The number that four hexadecimal digits stand for. -/
def readHex (text : List Char) : Nat :=
  text.foldl (fun n c => 16 * n +
    if hexDigits.idxOf c < 16 then hexDigits.idxOf c else hexDigits.idxOf c - 6) 0

/-- What is between the quotes of a string. -/
inductive IsChars : List Char → List Nat → Prop
  | nil : IsChars [] []
  | plain {c : Char} {text : List Char} {units : List Nat} (hc : IsPlain c)
      (rest : IsChars text units) : IsChars (c :: text) (c.toNat :: units)
  | escape {c : Char} {unit : Nat} {text : List Char} {units : List Nat}
      (hc : (c, unit) ∈ escapes) (rest : IsChars text units) :
      IsChars ('\\' :: c :: text) (unit :: units)
  | unicode {hex text : List Char} {units : List Nat} (hlen : hex.length = 4)
      (hhex : ∀ c ∈ hex, c ∈ hexDigits) (rest : IsChars text units) :
      IsChars ('\\' :: 'u' :: hex ++ text) (readHex hex :: units)

/-- What a part of a text denotes: a value, or what is between the brackets of an array or
of an object. -/
inductive Part where
  | value (v : Json)
  | elements (vs : List Json)
  | members (ms : List (List Nat × Json))

inductive Derives : Part → List Char → Prop
  | null : Derives (.value .null) ['n', 'u', 'l', 'l']
  | yes : Derives (.value (.bool true)) ['t', 'r', 'u', 'e']
  | no : Derives (.value (.bool false)) ['f', 'a', 'l', 's', 'e']
  | number {text : List Char} {q : ℚ} (h : IsNumber text q) : Derives (.value (.number q)) text
  | string {text : List Char} {units : List Nat} (h : IsChars text units) :
      Derives (.value (.string units)) ('"' :: text ++ ['"'])
  | emptyArray {w : List Char} (hw : IsWs w) : Derives (.value (.array [])) ('[' :: w ++ [']'])
  | array {text : List Char} {vs : List Json} (h : Derives (.elements vs) text) :
      Derives (.value (.array vs)) ('[' :: text ++ [']'])
  | emptyObject {w : List Char} (hw : IsWs w) : Derives (.value (.object [])) ('{' :: w ++ ['}'])
  | object {text : List Char} {ms : List (List Nat × Json)} (h : Derives (.members ms) text) :
      Derives (.value (.object ms)) ('{' :: text ++ ['}'])
  | element {w text w' : List Char} {v : Json} (hw : IsWs w) (h : Derives (.value v) text)
      (hw' : IsWs w') : Derives (.elements [v]) (w ++ text ++ w')
  | elements {text text' : List Char} {v : Json} {vs : List Json}
      (h : Derives (.elements [v]) text) (rest : Derives (.elements vs) text') :
      Derives (.elements (v :: vs)) (text ++ ',' :: text')
  | member {w key w' text : List Char} {units : List Nat} {v : Json} (hw : IsWs w)
      (hkey : IsChars key units) (hw' : IsWs w') (h : Derives (.elements [v]) text) :
      Derives (.members [(units, v)]) (w ++ '"' :: key ++ '"' :: w' ++ ':' :: text)
  | members {text text' : List Char} {m : List Nat × Json} {ms : List (List Nat × Json)}
      (h : Derives (.members [m]) text) (rest : Derives (.members ms) text') :
      Derives (.members (m :: ms)) (text ++ ',' :: text')

/-- The text is JSON and denotes `v`: a value with whitespace around it. -/
def IsText (text : List Char) (v : Json) : Prop := Derives (.elements [v]) text

/-! ## Writing -/

variable {text : List Char}

theorem isWs_nil : IsWs [] := fun _ hc => absurd hc List.not_mem_nil

theorem Derives.isText {v : Json} (h : Derives (.value v) text) : IsText text v := by
  simpa [IsText] using Derives.element isWs_nil h isWs_nil

/-- A string of plain characters denotes their codes. -/
theorem isChars_of_isPlain (h : ∀ c ∈ text, IsPlain c) : IsChars text (text.map Char.toNat) := by
  induction text with
  | nil => exact .nil
  | cons c text ih => exact .plain (h c (by simp)) (ih fun d hd => h d (by simp [hd]))

theorem derives_string (h : ∀ c ∈ text, IsPlain c) :
    Derives (.value (.string (text.map Char.toNat))) ('"' :: text ++ ['"']) :=
  .string (isChars_of_isPlain h)

theorem isInt_toDigits (n : Nat) : IsInt (Nat.toDigits 10 n) := by
  refine ⟨⟨Nat.toDigits_ne_nil, fun c hc => Nat.isDigit_of_mem_toDigits (by omega) (by omega) hc⟩,
    fun hzero => ?_⟩
  rcases Nat.eq_zero_or_pos n with rfl | hpos
  · rfl
  · exact absurd hzero (head?_toDigits_ne_zero (by omega) (by omega) hpos)

theorem isNumber_toDigits (n : Nat) : IsNumber (Nat.toDigits 10 n) n := by
  simpa using IsNumber.unsigned (isInt_toDigits n) .absent .absent

/-- Digits around a dot are a number. -/
theorem isNumber_decimal {int fraction : List Char} (hint : IsInt int) (hds : IsDigits fraction) :
    IsNumber (int ++ '.' :: fraction)
      (readDigits int + readDigits fraction / 10 ^ fraction.length) := by
  simpa using IsNumber.unsigned hint (.digits hds) .absent

theorem derives_elements {texts : List (List Char)} {vs : List Json} (hne : texts ≠ [])
    (h : List.Forall₂ (fun t v => Derives (.value v) t) texts vs) :
    Derives (.elements vs) ([','].intercalate texts) := by
  induction h with
  | nil => exact absurd rfl hne
  | cons hone hrest ih =>
    cases hrest with
    | nil =>
      rw [List.intercalate_singleton]
      exact hone.isText
    | cons htwo hrest =>
      have h := ih (by simp)
      rw [List.intercalate_cons_cons, List.append_assoc]
      exact .elements hone.isText h

/-- Values with commas between them, in brackets. -/
theorem derives_array {texts : List (List Char)} {vs : List Json}
    (h : List.Forall₂ (fun t v => Derives (.value v) t) texts vs) :
    Derives (.value (.array vs)) ('[' :: [','].intercalate texts ++ [']']) := by
  cases h with
  | nil => exact .emptyArray isWs_nil
  | cons hone hrest => exact .array (derives_elements (by simp) (.cons hone hrest))

section Objects

variable {ι : Type*} {names : ι → List Char} {texts : ι → List Char} {values : ι → Json}

/-- A name in quotes, a colon, and a value. -/
def memberText (name text : List Char) : List Char := '"' :: name ++ '"' :: ':' :: text

theorem derives_member {name : List Char} {v : Json} (hname : ∀ c ∈ name, IsPlain c)
    (h : Derives (.value v) text) :
    Derives (.members [(name.map Char.toNat, v)]) (memberText name text) := by
  simpa [memberText] using
    Derives.member isWs_nil (isChars_of_isPlain hname) isWs_nil h.isText

theorem derives_members {is : List ι} (hne : is ≠ [])
    (hnames : ∀ i ∈ is, ∀ c ∈ names i, IsPlain c)
    (h : ∀ i ∈ is, Derives (.value (values i)) (texts i)) :
    Derives (.members (is.map fun i => ((names i).map Char.toNat, values i)))
      ([','].intercalate (is.map fun i => memberText (names i) (texts i))) := by
  induction is with
  | nil => exact absurd rfl hne
  | cons i is ih =>
    have hone := derives_member (hnames i (by simp)) (h i (by simp))
    cases is with
    | nil => simpa [List.intercalate_singleton] using hone
    | cons j is =>
      have hrest := ih (by simp) (fun k hk => hnames k (by simp [hk]))
        (fun k hk => h k (by simp [hk]))
      simp only [List.map_cons, List.intercalate_cons_cons, List.append_assoc] at hrest ⊢
      exact .members hone hrest

/-- Members with commas between them, in braces. -/
theorem derives_object {is : List ι} (hnames : ∀ i ∈ is, ∀ c ∈ names i, IsPlain c)
    (h : ∀ i ∈ is, Derives (.value (values i)) (texts i)) :
    Derives (.value (.object (is.map fun i => ((names i).map Char.toNat, values i))))
      ('{' :: [','].intercalate (is.map fun i => memberText (names i) (texts i)) ++ ['}']) := by
  cases is with
  | nil => exact .emptyObject isWs_nil
  | cons i is => exact .object (derives_members (by simp) hnames h)

end Objects

/-! ## Scanning -/

/-- Where the scan is. Outside of the strings it knows whether it has just read one. -/
inductive Scan where
  | outside (afterString : Bool)
  | inString
  | inEscape

def Scan.step : Scan → Char → Option Scan
  | .outside afterString, c =>
    if c = '"' then some .inString
    else if c = ':' then if afterString then some (.outside false) else none
    else if c ∈ [' ', '\t', '\n', '\r'] then some (.outside afterString)
    else some (.outside false)
  | .inString, c =>
    if c = '"' then some (.outside true)
    else if c = '\\' then some .inEscape
    else some .inString
  | .inEscape, _ => some .inString

def Scan.run (s : Scan) (text : List Char) : Option Scan := text.foldlM Scan.step s

@[simp] theorem Scan.run_nil (s : Scan) : s.run [] = some s := rfl

@[simp] theorem Scan.run_cons (s : Scan) (c : Char) (text : List Char) :
    s.run (c :: text) = (s.step c).bind (·.run text) := rfl

@[simp] theorem Scan.run_append (s : Scan) (text text' : List Char) :
    s.run (text ++ text') = (s.run text).bind (·.run text') := List.foldlM_append

/-- The scan gets through the text, wherever outside of the strings it starts. -/
def Passes (text : List Char) : Prop :=
  ∀ b, ∃ b', (Scan.outside b).run text = some (.outside b')

theorem Passes.append {text' : List Char} (h : Passes text) (h' : Passes text') :
    Passes (text ++ text') := by
  intro b
  obtain ⟨b', hb'⟩ := h b
  obtain ⟨b'', hb''⟩ := h' b'
  exact ⟨b'', by simp [hb', hb'']⟩

theorem passes_singleton {c : Char} (h : c ≠ '"' ∧ c ≠ ':') : Passes [c] := by
  intro b
  by_cases hws : c ∈ [' ', '\t', '\n', '\r']
  · refine ⟨b, ?_⟩
    rw [Scan.run_cons, Scan.step, if_neg h.1, if_neg h.2, if_pos hws]
    rfl
  · refine ⟨false, ?_⟩
    rw [Scan.run_cons, Scan.step, if_neg h.1, if_neg h.2, if_neg hws]
    rfl

/-- Texts without quotes and colons. -/
theorem passes_of_notMem (h : ∀ c ∈ text, c ≠ '"' ∧ c ≠ ':') : Passes text := by
  induction text with
  | nil => exact fun b => ⟨b, rfl⟩
  | cons c text ih =>
    exact (passes_singleton (h c (by simp))).append (ih fun d hd => h d (by simp [hd]))

theorem run_isWs (h : IsWs text) (b : Bool) :
    (Scan.outside b).run text = some (.outside b) := by
  induction text with
  | nil => rfl
  | cons c text ih =>
    have hc := h c (by simp)
    have hquote : c ≠ '"' := by rintro rfl; simp at hc
    have hcolon : c ≠ ':' := by rintro rfl; simp at hc
    rw [Scan.run_cons, Scan.step, if_neg hquote, if_neg hcolon, if_pos hc]
    exact ih fun d hd => h d (by simp [hd])

theorem run_inString (h : ∀ c ∈ text, c ≠ '"' ∧ c ≠ '\\') :
    Scan.inString.run text = some .inString := by
  induction text with
  | nil => rfl
  | cons c text ih =>
    obtain ⟨hquote, hback⟩ := h c (by simp)
    rw [Scan.run_cons, Scan.step, if_neg hquote, if_neg hback]
    exact ih fun d hd => h d (by simp [hd])

theorem run_isChars {units : List Nat} (h : IsChars text units) :
    Scan.inString.run text = some .inString := by
  induction h with
  | nil => rfl
  | @plain c text units hc _ ih =>
    rw [← List.singleton_append, Scan.run_append, run_inString (by simpa using hc.2)]
    exact ih
  | escape hc _ ih => exact ih
  | @unicode hex text units hlen hhex _ ih =>
    have hrun : Scan.inString.run hex = some .inString := by
      refine run_inString fun c hc => ?_
      have hall : ∀ c ∈ hexDigits, c ≠ '"' ∧ c ≠ '\\' := by simp [hexDigits]
      exact hall c (hhex c hc)
    rw [Scan.run_append, Scan.run_cons, Scan.step, if_neg (by decide), if_pos rfl]
    show ((Scan.inString.run hex).bind _) = _
    rw [hrun]
    exact ih

theorem run_string {units : List Nat} (h : IsChars text units) (b : Bool) :
    (Scan.outside b).run ('"' :: text ++ ['"']) = some (.outside true) := by
  have hopen : (Scan.outside b).step '"' = some .inString := rfl
  rw [List.cons_append, Scan.run_cons, hopen, Option.bind_some, Scan.run_append, run_isChars h]
  rfl

/-- The characters of a number. -/
def InNumber (c : Char) : Prop := c.isDigit ∨ c ∈ ['.', 'e', 'E', '+', '-']

theorem IsFraction.inNumber {q : ℚ} (h : IsFraction text q) {c : Char} (hc : c ∈ text) :
    InNumber c := by
  cases h with
  | absent => exact absurd hc List.not_mem_nil
  | digits hds =>
    rcases List.mem_cons.mp hc with rfl | hc
    · exact .inr (by decide)
    · exact .inl (hds.2 c hc)

theorem IsExponent.inNumber {n : ℤ} (h : IsExponent text n) {c : Char} (hc : c ∈ text) :
    InNumber c := by
  cases h with
  | absent => exact absurd hc List.not_mem_nil
  | positive he hsign hds =>
    have hdigit := hds.2 c
    simp only [List.mem_append, List.mem_cons] at hc
    rcases hsign with rfl | rfl <;> simp [InNumber] at hc ⊢ <;> grind
  | negative he hds =>
    have hdigit := hds.2 c
    simp only [List.mem_cons, InNumber] at hc ⊢
    grind

theorem IsNumber.inNumber {q : ℚ} (h : IsNumber text q) {c : Char} (hc : c ∈ text) :
    InNumber c := by
  cases h with
  | unsigned hint hf hn | negative hint hf hn =>
    have hminus : InNumber '-' := .inr (by decide)
    have hdigit : ∀ c, c.isDigit → InNumber c := fun c => .inl
    have := hint.1.2 c
    have := @hf.inNumber _ _ c
    have := @hn.inNumber _ _ c
    simp only [List.mem_append, List.mem_cons] at hc
    grind

theorem passes_isNumber {q : ℚ} (h : IsNumber text q) : Passes text := by
  refine passes_of_notMem fun c hc => ?_
  have hnot : ¬ InNumber '"' ∧ ¬ InNumber ':' := by simp [InNumber]
  have := h.inNumber hc
  grind

theorem Passes.brackets (h : Passes text) {left right : Char} (hleft : left ≠ '"' ∧ left ≠ ':')
    (hright : right ≠ '"' ∧ right ≠ ':') : Passes (left :: text ++ [right]) :=
  ((passes_singleton hleft).append h).append (passes_singleton hright)

theorem passes_isWs (h : IsWs text) : Passes text := fun b => ⟨b, run_isWs h b⟩

/-- The scan gets through every part of a JSON text. -/
theorem Derives.passes {p : Part} (h : Derives p text) : Passes text := by
  induction h with
  | null | yes | no => exact passes_of_notMem (by simp)
  | number h => exact passes_isNumber h
  | string h => exact fun b => ⟨true, run_string h b⟩
  | emptyArray hw | emptyObject hw => exact (passes_isWs hw).brackets (by decide) (by decide)
  | array _ ih | object _ ih => exact ih.brackets (by decide) (by decide)
  | element hw _ hw' ih => exact ((passes_isWs hw).append ih).append (passes_isWs hw')
  | elements _ _ ih ih' | members _ _ ih ih' =>
    exact ih.append ((passes_singleton (by decide)).append ih')
  | @member w key w' text units v hw hkey hw' _ ih =>
    intro b
    obtain ⟨b', hb'⟩ := ih false
    refine ⟨b', ?_⟩
    have hsplit : w ++ '"' :: key ++ '"' :: w' ++ ':' :: text =
        w ++ (('"' :: key ++ ['"']) ++ (w' ++ ':' :: text)) := by simp
    have hcolon : (Scan.outside true).step ':' = some (.outside false) := rfl
    rw [hsplit, Scan.run_append, run_isWs hw, Option.bind_some, Scan.run_append, run_string hkey,
      Option.bind_some, Scan.run_append, run_isWs hw', Option.bind_some, Scan.run_cons, hcolon]
    exact hb'

/-- The scan ends inside the text, wherever outside of the strings it starts. -/
def Rejects (text : List Char) : Prop := ∀ b, (Scan.outside b).run text = none

/-- A text that the scan rejects is no JSON. -/
theorem Rejects.not_isText (h : Rejects text) (v : Json) : ¬ IsText text v := by
  intro hv
  obtain ⟨b, hb⟩ := Derives.passes hv false
  simp [h false] at hb

theorem Rejects.append (h : Rejects text) (text' : List Char) : Rejects (text ++ text') := by
  intro b
  rw [Scan.run_append, h b, Option.bind_none]

theorem Passes.append_rejects {text' : List Char} (h : Passes text) (h' : Rejects text') :
    Rejects (text ++ text') := by
  intro b
  obtain ⟨b', hb'⟩ := h b
  rw [Scan.run_append, hb', Option.bind_some, h' b']

/-- A colon behind something that is no string. -/
theorem rejects_colon {c : Char} (hc : c.isDigit) : Rejects [c, ':'] := by
  intro b
  have hquote : c ≠ '"' := by rintro rfl; exact absurd hc (by decide)
  have hcolon : c ≠ ':' := by rintro rfl; exact absurd hc (by decide)
  have hws : c ∉ [' ', '\t', '\n', '\r'] := by
    have hnone : ∀ d ∈ [' ', '\t', '\n', '\r'], ¬ d.isDigit := by simp
    exact fun hmem => hnone c hmem hc
  rw [Scan.run_cons, Scan.step, if_neg hquote, if_neg hcolon, if_neg hws]
  rfl

/-- One rejected piece is enough. -/
theorem rejects_intercalate {texts : List (List Char)}
    (h : ∀ t ∈ texts, Passes t ∨ Rejects t) (hone : ∃ t ∈ texts, Rejects t) :
    Rejects ([','].intercalate texts) := by
  induction texts with
  | nil => simp at hone
  | cons t texts ih =>
    cases texts with
    | nil => simpa [List.intercalate_singleton] using hone
    | cons t' texts =>
      rw [List.intercalate_cons_cons]
      rcases h t (by simp) with hpass | hreject
      · obtain ⟨u, hu, hreject⟩ := hone
        rcases List.mem_cons.mp hu with rfl | hu
        · exact (hreject.append _).append _
        · have hrest := ih (fun v hv => h v (by simp [hv])) ⟨u, hu, hreject⟩
          exact (hpass.append (passes_singleton (by decide))).append_rejects hrest
      · exact (hreject.append _).append _

end Json

end TradeServer.Library
