/-! Indentation and joining of printed lines. -/
namespace PathSlice.Text

/-- Every level of nesting is indented by eight blanks. -/
def indent (depth : Nat) : String :=
  String.join (List.replicate depth "        ")

/-- Every line ends with a line break. -/
def lines (ls : List String) : String :=
  String.join (ls.map (· ++ "\n"))

end PathSlice.Text
