import PathSlice.Json.Basic

/-! The lexemes of a JSON text, found by an automaton that reads one character at a time.

Some parts of a document are read for their content and some are only skipped. Skipping is more
permissive: it accepts escapes that name half a surrogate pair. So the end of a faulty
text may be seen at two places, and a lexeme says what either reading makes of it. -/
namespace PathSlice.Json

/-- Why a text is not JSON: it ends too early, or a character is out of place. -/
inductive Flaw where
  | unfinished
  | malformed
  deriving DecidableEq

/-- What is wrong for a reader of content and for a reader that skips. -/
structure Break where
  content : Flaw
  skipped : Flaw

namespace Break

def unfinished : Break := ⟨.unfinished, .unfinished⟩

def malformed : Break := ⟨.malformed, .malformed⟩

/-- A number that stops too early can be completed for its content, but not skipped. -/
def cutNumber : Break := ⟨.unfinished, .malformed⟩

end Break

inductive Token where
  | leftBracket
  | rightBracket
  | leftBrace
  | rightBrace
  | comma
  | colon
  | null
  | bool (b : Bool)
  | number (n : Numeral)
  /-- A string, or the flaw that its content has. -/
  | text (content : Except Flaw String)
  /-- The last lexeme of a faulty text; `quoted` if it starts with a quote. -/
  | broken (quoted : Bool) (why : Break)

namespace Token

/-- A string as far as it was read, the last character first. `lead` is the first half of a
surrogate pair, if the second has to follow; `flawed` is set once the content is known to be no
text. -/
structure Quotation where
  chars : List Char := []
  lead : Option Nat := none
  flawed : Bool := false

inductive NumeralPart where
  | sign
  | zero
  | whole
  | point
  | fraction
  | mark
  | markSign
  | exponent

/-- A number as far as it was read; the digits of the fraction stand last first. -/
structure Digits where
  negative : Bool := false
  whole : Nat := 0
  fraction : Option (List Char) := none
  exponentNegative : Bool := false
  exponent : Option Nat := none

inductive Mode where
  | between
  | word (rest : List Char) (token : Token)
  | numeral (part : NumeralPart) (n : Digits)
  | string (q : Quotation)
  | escape (q : Quotation)
  /-- Four bytes of an escaped code unit are due; `code` is lost if one was no digit. -/
  | codeUnit (q : Quotation) (bytes : Nat) (code : Option Nat)
  | stopped

def Digits.toNumeral (n : Digits) : Numeral where
  negative := n.negative
  whole := n.whole
  fraction := n.fraction.map List.reverse
  exponent := n.exponent.map fun e => if n.exponentNegative then -(e : Int) else e

def Quotation.content (q : Quotation) : Except Flaw String :=
  if q.flawed || q.lead.isSome then .error .malformed else .ok (String.ofList q.chars.reverse)

/-- The second half of a surrogate pair did not follow. -/
def Quotation.unpaired (q : Quotation) : Quotation :=
  { q with lead := none, flawed := q.flawed || q.lead.isSome }

def Quotation.push (q : Quotation) (c : Char) : Quotation :=
  { q with chars := c :: q.chars }

/-- Takes an escaped code unit, which may be half of a surrogate pair. -/
def Quotation.pushUnit (q : Quotation) (u : Nat) : Quotation :=
  if 0xDC00 ≤ u ∧ u ≤ 0xDFFF then
    match q.lead with
    | some lead => { q with lead := none }.push
        (Char.ofNat (0x10000 + (lead - 0xD800) * 0x400 + (u - 0xDC00)))
    | none => { q with flawed := true }
  else
    let q := q.unpaired
    if 0xD800 ≤ u ∧ u ≤ 0xDBFF then { q with lead := some u } else q.push (Char.ofNat u)

/-- A string that goes on is wrong for its content if that was no text already. -/
def Quotation.stop (q : Quotation) (why : Flaw) : Token :=
  .broken true ⟨if q.flawed then .malformed else why, why⟩

def digit? (c : Char) : Option Nat :=
  if c.isDigit then some (c.toNat - '0'.toNat) else none

def hexDigit? (c : Char) : Option Nat :=
  if c.isDigit then some (c.toNat - '0'.toNat)
  else if 'a' ≤ c ∧ c ≤ 'f' then some (c.toNat - 'a'.toNat + 10)
  else if 'A' ≤ c ∧ c ≤ 'F' then some (c.toNat - 'A'.toNat + 10)
  else none

/-- The character that a letter after a backslash stands for. -/
def escaped? : Char → Option Char
  | '"' => some '"'
  | '\\' => some '\\'
  | '/' => some '/'
  | 'b' => some '\x08'
  | 'f' => some '\x0c'
  | 'n' => some '\n'
  | 'r' => some '\r'
  | 't' => some '\t'
  | _ => none

/-- A character between lexemes. -/
def start (c : Char) : List Token × Mode :=
  match c with
  | ' ' | '\n' | '\t' | '\r' => ([], .between)
  | '[' => ([.leftBracket], .between)
  | ']' => ([.rightBracket], .between)
  | '\x7b' => ([.leftBrace], .between)
  | '\x7d' => ([.rightBrace], .between)
  | ',' => ([.comma], .between)
  | ':' => ([.colon], .between)
  | 'n' => ([], .word ['u', 'l', 'l'] .null)
  | 't' => ([], .word ['r', 'u', 'e'] (.bool true))
  | 'f' => ([], .word ['a', 'l', 's', 'e'] (.bool false))
  | '"' => ([], .string {})
  | '-' => ([], .numeral .sign { negative := true })
  | '0' => ([], .numeral .zero {})
  | _ =>
    match digit? c with
    | some d => ([], .numeral .whole { whole := d })
    | none => ([.broken false .malformed], .stopped)

/-- The number ends before this character. -/
private def close (n : Digits) (c : Char) : List Token × Mode :=
  (.number n.toNumeral :: (start c).1, (start c).2)

private def refuse : List Token × Mode :=
  ([.broken false .malformed], .stopped)

def extendNumeral (part : NumeralPart) (n : Digits) (c : Char) : List Token × Mode :=
  match part with
  | .sign =>
    match digit? c with
    | some 0 => ([], .numeral .zero n)
    | some d => ([], .numeral .whole { n with whole := d })
    | none => refuse
  | .zero =>
    if c = '.' then ([], .numeral .point n)
    else if c = 'e' ∨ c = 'E' then ([], .numeral .mark n)
    else if c.isDigit then refuse
    else close n c
  | .whole =>
    if c = '.' then ([], .numeral .point n)
    else if c = 'e' ∨ c = 'E' then ([], .numeral .mark n)
    else match digit? c with
      | some d => ([], .numeral .whole { n with whole := 10 * n.whole + d })
      | none => close n c
  | .point =>
    if c.isDigit then ([], .numeral .fraction { n with fraction := some [c] }) else refuse
  | .fraction =>
    if c = 'e' ∨ c = 'E' then ([], .numeral .mark n)
    else if c.isDigit then
      ([], .numeral .fraction { n with fraction := some (c :: n.fraction.getD []) })
    else close n c
  | .mark =>
    if c = '+' then ([], .numeral .markSign n)
    else if c = '-' then ([], .numeral .markSign { n with exponentNegative := true })
    else match digit? c with
      | some d => ([], .numeral .exponent { n with exponent := some d })
      | none => refuse
  | .markSign =>
    match digit? c with
    | some d => ([], .numeral .exponent { n with exponent := some d })
    | none => refuse
  | .exponent =>
    match digit? c with
    | some d => ([], .numeral .exponent { n with exponent := some (10 * n.exponent.getD 0 + d) })
    | none => close n c

def extendString (q : Quotation) (c : Char) : List Token × Mode :=
  if c = '\\' then ([], .escape q)
  else
    let q := q.unpaired
    if c = '"' then ([.text q.content], .between)
    else if c.toNat < 0x20 then ([q.stop .malformed], .stopped)
    else ([], .string (q.push c))

def extendEscape (q : Quotation) (c : Char) : List Token × Mode :=
  if c = 'u' then ([], .codeUnit q 0 (some 0))
  else
    let q := q.unpaired
    match escaped? c with
    | some d => ([], .string (q.push d))
    | none => ([q.stop .malformed], .stopped)

/-- A character of an escaped code unit. Four bytes are taken before they are judged. -/
def extendCodeUnit (q : Quotation) (bytes : Nat) (code : Option Nat) (c : Char) :
    List Token × Mode :=
  let bytes := bytes + c.utf8Size
  let code := code.bind fun n => (hexDigit? c).map (16 * n + ·)
  if bytes < 4 then ([], .codeUnit q bytes code)
  else match code with
    | some u => ([], .string (q.pushUnit u))
    | none => ([q.stop .malformed], .stopped)

def step : Mode → Char → List Token × Mode
  | .between, c => start c
  | .word [] t, c => (t :: (start c).1, (start c).2)
  | .word (d :: rest) t, c =>
    if c = d then (if rest.isEmpty then ([t], .between) else ([], .word rest t)) else refuse
  | .numeral part n, c => extendNumeral part n c
  | .string q, c => extendString q c
  | .escape q, c => extendEscape q c
  | .codeUnit q bytes code, c => extendCodeUnit q bytes code c
  | .stopped, _ => ([], .stopped)

/-- The lexeme that the end of the text completes or cuts. -/
def finish : Mode → List Token
  | .between | .stopped => []
  | .word [] t => [t]
  | .word _ _ => [.broken false .unfinished]
  | .numeral part n =>
    match part with
    | .zero | .whole | .fraction | .exponent => [.number n.toNumeral]
    | .sign | .point | .mark | .markSign => [.broken false .cutNumber]
  | .string q | .escape q | .codeUnit q _ _ => [q.stop .unfinished]

/-- All lexemes of a text, last first. -/
private def scan : List Char → Mode → List Token → List Token
  | [], m, acc => (finish m).reverse ++ acc
  | c :: cs, m, acc => scan cs (step m c).2 ((step m c).1.reverse ++ acc)

/-- The lexemes of a text up to its first flaw. -/
def ofString (s : String) : List Token :=
  (scan s.toList .between []).reverse

end Token

end PathSlice.Json
