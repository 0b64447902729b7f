import PathSlice.Program.Declaration
import PathSlice.Term.Basic

/-! A trace: the values of a program, and what happened along a path, in order. -/
namespace PathSlice

inductive Event where
  | execute (instruction : String) (terms : List Term) (erroneous : Bool)
  | phi (instruction : String) (incoming : Nat) (term : Term) (erroneous : Bool)
  | access (instruction : String) (terms : List Term) (checked erroneous : Bool)
  /-- Go on in a new frame over the current one. -/
  | fork
  /-- Give the current frame up and go on in a new one in its place. -/
  | backtrack
  | bindCall (site : String) (terms : List Term)
  | bindReturn (site ret : String) (term : Term)
  | shadow (source target : SymArray)
  /-- What must be core, what must not, and how many core locations there must be. -/
  | expect (core notCore : List String) (coreLocations : Option Nat)

structure Trace where
  /-- Options for this trace, as they are written on a command line. -/
  flags : Option String
  declarations : List Declaration
  events : List Event

end PathSlice
