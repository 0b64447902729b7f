import PathSlice.Json.Token

/-! What can be seen of a JSON text up to its first flaw. A reader that wants a certain shape walks
an outline from left to right, so that it meets the first thing that is wrong, be it a flaw of the
text or a value of the wrong shape, before anything that stands behind it. -/
namespace PathSlice.Json

inductive Outline where
  | null
  | bool (b : Bool)
  | number (n : Numeral)
  | text (content : Except Flaw String)
  /-- The items, and what follows the last one if it is not the closing bracket. -/
  | array (items : List Outline) (open? : Option Break)
  /-- The members, and what follows the last one if it is not the closing brace. -/
  | object (members : List (Except Flaw String × Outline)) (open? : Option Break)
  /-- No value starts here. -/
  | broken (why : Break)

/-- A document: its value, and whether anything follows the value. -/
structure Document where
  value : Outline
  trailing : Bool

namespace Outline

/-- A container that is not closed yet; its parts stand last first. -/
inductive Level where
  | array (items : List Outline)
  | object (members : List (Except Flaw String × Outline))
  /-- An object that waits for the value of its last name. -/
  | member (members : List (Except Flaw String × Outline)) (name : Except Flaw String)

inductive Expects where
  | value
  /-- A first item, or the closing bracket. -/
  | item
  /-- A first name, or the closing brace. -/
  | name
  | nextName
  | colon
  | commaOrClose

/-- Closes all containers at a place where a value is due and does not come. -/
def missing (why : Break) : List Level → Outline
  | [] => .broken why
  | .array items :: outer => enclose outer (.array (.broken why :: items).reverse (some why))
  | .object members :: outer => enclose outer (.object members.reverse (some why))
  | .member members name :: outer =>
    enclose outer (.object ((name, .broken why) :: members).reverse (some why))
where
  /-- Puts an unfinished value into the containers around it. -/
  enclose : List Level → Outline → Outline
    | [], v => v
    | .array items :: outer, v => enclose outer (.array (v :: items).reverse (some why))
    | .object members :: outer, _ => enclose outer (.object members.reverse (some why))
    | .member members name :: outer, v =>
      enclose outer (.object ((name, v) :: members).reverse (some why))

/-- Closes all containers at a place behind a complete item, member or bracket. -/
def unclosed (why : Break) : List Level → Outline
  | [] => .broken why
  | .array items :: outer => missing.enclose why outer (.array items.reverse (some why))
  | .object members :: outer => missing.enclose why outer (.object members.reverse (some why))
  | .member members name :: outer =>
    missing.enclose why outer (.object ((name, .broken why) :: members).reverse (some why))

/-- What is wrong with a text that has this lexeme where a value is due. -/
def notValue : Token → Break
  | .broken _ why => why
  | _ => .malformed

/-- What is wrong with a text that has this lexeme where a name is due. -/
def notName : Token → Break
  | .broken true why => why
  | _ => .malformed

/-- A value that is one lexeme. -/
def scalar? : Token → Option Outline
  | .null => some .null
  | .bool b => some (.bool b)
  | .number n => some (.number n)
  | .text content => some (.text content)
  | _ => none

/-- Puts a complete value into the innermost container. -/
def place (v : Outline) : List Level → Expects × List Level ⊕ Outline
  | [] => .inr v
  | .array items :: outer => .inl (.commaOrClose, .array (v :: items) :: outer)
  | .object members :: outer => .inl (.commaOrClose, .object members :: outer)
  | .member members name :: outer => .inl (.commaOrClose, .object ((name, v) :: members) :: outer)

/-- Reads the lexemes from where the containers in `levels` are open. -/
def ofTokens : List Token → Expects → List Level → Document
  | [], e, levels =>
    match e with
    | .value | .item => ⟨missing .unfinished levels, false⟩
    | _ => ⟨unclosed .unfinished levels, false⟩
  | t :: rest, e, levels =>
    /- The value `v` is complete; `outer` are the containers around it. -/
    let complete (v : Outline) (outer : List Level) : Document :=
      match place v outer with
      | .inl (e, levels) => ofTokens rest e levels
      | .inr v => ⟨v, !rest.isEmpty⟩
    let value : Document :=
      match t with
      | .leftBracket => ofTokens rest .item (.array [] :: levels)
      | .leftBrace => ofTokens rest .name (.object [] :: levels)
      | _ =>
        match scalar? t with
        | some v => complete v levels
        | none => ⟨missing (notValue t) levels, false⟩
    match e, t, levels with
    | .value, _, _ => value
    | .item, .rightBracket, .array items :: outer => complete (.array items.reverse none) outer
    | .item, _, _ => value
    | .name, .rightBrace, .object members :: outer => complete (.object members.reverse none) outer
    | .name, .text name, .object members :: outer =>
      ofTokens rest .colon (.member members name :: outer)
    | .name, _, _ => ⟨unclosed (notName t) levels, false⟩
    | .nextName, .text name, .object members :: outer =>
      ofTokens rest .colon (.member members name :: outer)
    | .nextName, _, _ => ⟨unclosed (notName t) levels, false⟩
    | .colon, .colon, _ => ofTokens rest .value levels
    | .colon, _, _ => ⟨unclosed .malformed levels, false⟩
    | .commaOrClose, .comma, .array items :: outer => ofTokens rest .value (.array items :: outer)
    | .commaOrClose, .comma, .object members :: outer =>
      ofTokens rest .nextName (.object members :: outer)
    | .commaOrClose, .rightBracket, .array items :: outer =>
      complete (.array items.reverse none) outer
    | .commaOrClose, .rightBrace, .object members :: outer =>
      complete (.object members.reverse none) outer
    | .commaOrClose, _, _ => ⟨unclosed .malformed levels, false⟩

end Outline

def Document.ofString (s : String) : Document :=
  Outline.ofTokens (Token.ofString s) .value []

namespace Outline

mutual

/-- The flaw met by skipping a value, if any. -/
def skip : Outline → Except Flaw Unit
  | .array items open? => do
    skipItems items
    match open? with
    | some why => throw why.skipped
    | none => return ()
  | .object members open? => do
    skipMembers members
    match open? with
    | some why => throw why.skipped
    | none => return ()
  | .broken why => throw why.skipped
  | _ => return ()

def skipItems : List Outline → Except Flaw Unit
  | [] => return ()
  | v :: rest => do skip v; skipItems rest

def skipMembers : List (Except Flaw String × Outline) → Except Flaw Unit
  | [] => return ()
  | (_, v) :: rest => do skip v; skipMembers rest

end

/-- Containers are nested less deeply than this. -/
def depthLimit : Nat := 128

mutual

/-- The content of a value whose brackets, if it has any, are at a depth. -/
def content (depth : Nat) : Outline → Except Flaw Json
  | .null => return .null
  | .bool b => return .bool b
  | .number n => if n.overflows then throw .malformed else return .number n
  | .text content => content.map .text
  | .array items open? => do
    unless depth < depthLimit do throw .malformed
    let items ← contentItems (depth + 1) items
    match open? with
    | some why => throw why.content
    | none => return .array items
  | .object members open? => do
    unless depth < depthLimit do throw .malformed
    let members ← contentMembers (depth + 1) members
    match open? with
    | some why => throw why.content
    | none => return .object members
  | .broken why => throw why.content

def contentItems (depth : Nat) : List Outline → Except Flaw (List Json)
  | [] => return []
  | v :: rest => do
    let v ← content depth v
    return v :: (← contentItems depth rest)

def contentMembers (depth : Nat) :
    List (Except Flaw String × Outline) → Except Flaw (List (String × Json))
  | [] => return []
  | (name, v) :: rest => do
    let name ← name
    let v ← content depth v
    return (name, v) :: (← contentMembers depth rest)

end

mutual

def ofJson : Json → Outline
  | .null => .null
  | .bool b => .bool b
  | .number n => .number n
  | .text s => .text (.ok s)
  | .array items => .array (ofItems items) none
  | .object members => .object (ofMembers members) none

def ofItems : List Json → List Outline
  | [] => []
  | v :: rest => ofJson v :: ofItems rest

def ofMembers : List (String × Json) → List (Except Flaw String × Outline)
  | [] => []
  | (name, v) :: rest => (.ok name, ofJson v) :: ofMembers rest

end

end Outline

/-- The value that a text is, if nothing else follows it. -/
def parse (s : String) : Except Flaw Json := do
  let document := Document.ofString s
  let value ← document.value.content 1
  if document.trailing then throw .malformed
  return value

end PathSlice.Json
