import PathSlice.Text.Blank

/-! Splitting a line into words, with quotes and backslashes as a shell has them, by an automaton
that reads one character at a time. -/
namespace PathSlice.CommandLine

inductive Place where
  /-- Between words. -/
  | between
  /-- In a word, outside quotes. -/
  | word
  /-- Behind a backslash outside quotes. -/
  | escape
  | single
  | double
  /-- Behind a backslash in double quotes. -/
  | doubleEscape

/-- The words found and the current word, both last first. -/
structure Splitter where
  place : Place := .between
  words : List String := []
  current : List Char := []

namespace Splitter

def push (s : Splitter) (place : Place) (c : Char) : Splitter :=
  { s with place := place, current := c :: s.current }

def finish (s : Splitter) : Splitter :=
  ⟨.between, String.ofList s.current.reverse :: s.words, []⟩

def outside (s : Splitter) (c : Char) : Splitter :=
  match c with
  | '\'' => { s with place := .single }
  | '"' => { s with place := .double }
  | '\\' => { s with place := .escape }
  | _ => s.push .word c

/-- Characters that a backslash protects inside double quotes; before others it stands for itself.
-/
def isProtected (c : Char) : Bool :=
  c = '$' || c = '`' || c = '"' || c = '\\'

/-- Reads one character. A backslash protects no line break: outside quotes it stands for itself
there, and double quotes that hold it count as not closed. -/
def step (s : Splitter) (c : Char) : Option Splitter :=
  match s.place with
  | .between => some (if Text.isBlank c then s else s.outside c)
  | .word => some (if Text.isBlank c then s.finish else s.outside c)
  | .escape => some (if c = '\n' then (s.push .word '\\').finish else s.push .word c)
  | .single => some (if c = '\'' then { s with place := .word } else s.push .single c)
  | .double =>
    some (if c = '"' then { s with place := .word }
      else if c = '\\' then { s with place := .doubleEscape }
      else s.push .double c)
  | .doubleEscape =>
    if c = '\n' then none
    else if isProtected c then some (s.push .double c)
    else some ((s.push .double '\\').push .double c)

end Splitter

/-- The words of a line, or none if a quote is not closed. -/
def splitWords (line : String) : Option (List String) := do
  let s ← line.toList.foldlM Splitter.step {}
  match s.place with
  | .between => return s.words.reverse
  | .word => return s.finish.words.reverse
  | .escape => return (s.push .word '\\').finish.words.reverse
  | .single | .double | .doubleEscape => none

end PathSlice.CommandLine
