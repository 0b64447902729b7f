import PathSlice.Json.Basic

/-! The written forms of JSON values: on one line without blanks, and spread over lines with an
indentation of two blanks per level. -/
namespace PathSlice.Json

/-- The four digits of an escaped control character. -/
private def hex4 (n : Nat) : String :=
  let ds := Nat.toDigits 16 n
  String.ofList (List.replicate (4 - ds.length) '0' ++ ds)

def escape (c : Char) : String :=
  match c with
  | '"' => "\\\""
  | '\\' => "\\\\"
  | '\n' => "\\n"
  | '\r' => "\\r"
  | '\t' => "\\t"
  | '\x08' => "\\b"
  | '\x0c' => "\\f"
  | _ => if c.toNat < 0x20 then "\\u" ++ hex4 c.toNat else c.toString

def string (s : String) : String :=
  "\"" ++ String.join (s.toList.map escape) ++ "\""

mutual

def compact : Json → String
  | .null => "null"
  | .bool b => if b then "true" else "false"
  | .number n => n.render
  | .text s => string s
  | .array items => "[" ++ String.intercalate "," (compactItems items) ++ "]"
  | .object members => "\x7b" ++ String.intercalate "," (compactMembers members) ++ "\x7d"

def compactItems : List Json → List String
  | [] => []
  | j :: rest => compact j :: compactItems rest

def compactMembers : List (String × Json) → List String
  | [] => []
  | (name, j) :: rest => (string name ++ ":" ++ compact j) :: compactMembers rest

end

/-- A line break and the indentation of a level. -/
private def newline (level : Nat) : String :=
  "\n" ++ String.join (List.replicate level "  ")

/-- Parts of a container on lines of their own, one level deeper than its brackets. -/
private def spread (left right : String) (level : Nat) (parts : List String) : String :=
  if parts.isEmpty then left ++ right
  else
    left ++ newline (level + 1) ++ String.intercalate ("," ++ newline (level + 1)) parts
      ++ newline level ++ right

mutual

/-- The value over several lines, as it stands at a level of nesting. -/
def prettyAt (level : Nat) : Json → String
  | .null => "null"
  | .bool b => if b then "true" else "false"
  | .number n => n.render
  | .text s => string s
  | .array items => spread "[" "]" level (prettyItems (level + 1) items)
  | .object members => spread "\x7b" "\x7d" level (prettyMembers (level + 1) members)

def prettyItems (level : Nat) : List Json → List String
  | [] => []
  | j :: rest => prettyAt level j :: prettyItems level rest

def prettyMembers (level : Nat) : List (String × Json) → List String
  | [] => []
  | (name, j) :: rest => (string name ++ ": " ++ prettyAt level j) :: prettyMembers level rest

end

def pretty (j : Json) : String := prettyAt 0 j

end PathSlice.Json
