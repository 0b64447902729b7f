import PathSlice.Text.Invisible

/-! Quoted strings: a string between double quotes in which quotes, backslashes and characters that
do not show are written as escapes. -/
namespace PathSlice.Text

/-- The digits of a code point in base sixteen, without leading zeros. -/
def hexDigits (n : Nat) : String :=
  String.ofList (Nat.toDigits 16 n)

def escapeChar (c : Char) : String :=
  match c with
  | '\x00' => "\\0"
  | '\t' => "\\t"
  | '\n' => "\\n"
  | '\r' => "\\r"
  | '"' => "\\\""
  | '\\' => "\\\\"
  | _ => if isInvisible c then "\\u\x7b" ++ hexDigits c.toNat ++ "\x7d" else c.toString

/-- The string between quotes, with escapes. -/
def quoted (s : String) : String :=
  "\"" ++ String.join (s.toList.map escapeChar) ++ "\""

/-- Puts a backslash before every quote and backslash, as a label of a drawing needs it. -/
def backslashed (s : String) : String :=
  String.join <| s.toList.map fun c =>
    if c = '"' || c = '\\' then "\\" ++ c.toString else c.toString

end PathSlice.Text
