/-! What is known by hand about functions that are called but not explored: how many terms a call
must come with, and how its result depends on its arguments. -/
namespace PathSlice

inductive External where
  | calloc | ctypeBLoc | ctypeBLocArgs | errnoLocation | fchmodat | fchownat | fflush
  | fstreamIsOpen | getenv | geteuid | getpagesize | gettimeofday | ioctl | istreamSeekg
  | istreamTellg | kleeGetValue | malloc | operatorNew | operatorNewArray | powl | printf | puts
  | realloc | strcmp | strncmp | syscall | vprintf
  deriving DecidableEq

/-- How many terms a call may come with: one for the result and one for each argument. -/
inductive Arity where
  | any
  | atLeast (n : Nat)
  | exactly (n : Nat)
  deriving DecidableEq

inductive CallRule where
  /-- The result depends on nothing. -/
  | fresh
  /-- The result is the address of new memory. -/
  | allocation
  /-- The result depends on the first `n` arguments. -/
  | fromFirst (n : Nat)
  /-- The result depends on every argument that a term is given for. -/
  | fromAll
  deriving DecidableEq

namespace Arity

def accepts : Arity → Nat → Bool
  | .any, _ => true
  | .atLeast n, k => n ≤ k
  | .exactly n, k => k = n

end Arity

namespace External

def names : List (String × External) :=
  [("__ctype_b_loc", .ctypeBLoc),
   ("__ctype_b_locargs", .ctypeBLocArgs),
   ("__errno_location", .errnoLocation),
   ("_Znam", .operatorNewArray),
   ("_Znwm", .operatorNew),
   ("_ZNSi5seekgElSt12_Ios_Seekdir", .istreamSeekg),
   ("_ZNSi5tellgEv", .istreamTellg),
   ("_ZNSt13basic_fstreamIcSt11char_traitsIcEE7is_openEv", .fstreamIsOpen),
   ("calloc", .calloc),
   ("fchmodat", .fchmodat),
   ("fchownat", .fchownat),
   ("fflush", .fflush),
   ("getenv", .getenv),
   ("geteuid", .geteuid),
   ("getpagesize", .getpagesize),
   ("gettimeofday", .gettimeofday),
   ("ioctl", .ioctl),
   ("malloc", .malloc),
   ("powl", .powl),
   ("printf", .printf),
   ("puts", .puts),
   ("realloc", .realloc),
   ("strcmp", .strcmp),
   ("strncmp", .strncmp),
   ("syscall", .syscall),
   ("vprintf", .vprintf)]

/-- All functions whose names start like this one have the same summary. -/
def valueFamily : String := "klee_get_value"

def ofName? (name : String) : Option External :=
  match names.lookup name with
  | some e => some e
  | none => if name.startsWith valueFamily then some .kleeGetValue else none

def arity : External → Arity
  | .fflush | .operatorNew | .operatorNewArray | .puts | .strcmp | .strncmp => .atLeast 1
  | .calloc | .ctypeBLoc | .ctypeBLocArgs | .errnoLocation | .geteuid | .getpagesize | .malloc
  | .realloc => .exactly 1
  | .fstreamIsOpen | .getenv | .istreamTellg | .kleeGetValue => .exactly 2
  | .gettimeofday | .powl | .vprintf => .exactly 3
  | .ioctl | .istreamSeekg => .exactly 4
  | .fchmodat => .exactly 5
  | .fchownat => .exactly 6
  | .printf | .syscall => .atLeast 2

def rule : External → CallRule
  | .ctypeBLoc | .ctypeBLocArgs | .errnoLocation | .fflush | .geteuid | .getpagesize | .ioctl
  | .operatorNew | .operatorNewArray | .puts | .strcmp | .strncmp => .fresh
  | .calloc | .getenv | .malloc => .allocation
  | .fstreamIsOpen | .istreamTellg | .kleeGetValue | .realloc => .fromFirst 1
  | .fchmodat | .fchownat | .gettimeofday | .powl | .vprintf => .fromFirst 2
  | .istreamSeekg => .fromFirst 3
  | .printf | .syscall => .fromAll

/-- The rule for a call of the named function with a number of terms, if its summary applies. -/
def ruleFor? (name : String) (terms : Nat) : Option CallRule :=
  match ofName? name with
  | some e => if e.arity.accepts terms then some e.rule else none
  | none => none

def label : External → String
  | .calloc => "Calloc"
  | .ctypeBLoc => "CtypeBLoc"
  | .ctypeBLocArgs => "CtypeBLocArgs"
  | .errnoLocation => "ErrnoLocation"
  | .fchmodat => "Fchmodat"
  | .fchownat => "Fchownat"
  | .fflush => "Fflush"
  | .fstreamIsOpen => "FstreamIsOpen"
  | .getenv => "Getenv"
  | .geteuid => "Geteuid"
  | .getpagesize => "Getpagesize"
  | .gettimeofday => "Gettimeofday"
  | .ioctl => "Ioctl"
  | .istreamSeekg => "IstreamSeekg"
  | .istreamTellg => "IstreamTellg"
  | .kleeGetValue => "KleeGetValue"
  | .malloc => "Malloc"
  | .operatorNew => "OperatorNew"
  | .operatorNewArray => "OperatorNewArray"
  | .powl => "Powl"
  | .printf => "Printf"
  | .puts => "Puts"
  | .realloc => "Realloc"
  | .strcmp => "Strcmp"
  | .strncmp => "Strncmp"
  | .syscall => "Syscall"
  | .vprintf => "Vprintf"

end External

def Arity.render : Arity → String
  | .any => "Any"
  | .atLeast n => "AtLeast(" ++ toString n ++ ")"
  | .exactly n => "Exactly(" ++ toString n ++ ")"

def CallRule.render : CallRule → String
  | .fresh => "FreshResult"
  | .allocation => "Allocation"
  | .fromFirst n => "FlowFromOperands(" ++ toString n ++ ")"
  | .fromAll => "FlowFromAllOperands"

end PathSlice
