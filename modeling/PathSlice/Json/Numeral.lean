/-! Numbers as they are written in a JSON text, and which of them are too large for double
precision.

A number is brought to double precision in three steps that each round to the nearest: its leading
digits, the power of ten that scales them, and their product. A number close to the largest one may
therefore be too large by the steps though it is not by itself, and the other way round. -/
namespace PathSlice

structure Numeral where
  negative : Bool := false
  whole : Nat
  fraction : Option (List Char) := none
  exponent : Option Int := none

namespace Numeral

/-- The number written without sign, fraction and exponent, if it is so written. -/
def natural? (n : Numeral) : Option Nat :=
  match n with
  | ⟨false, whole, none, none⟩ => some whole
  | _ => none

def render (n : Numeral) : String :=
  (if n.negative then "-" else "") ++ toString n.whole
    ++ (match n.fraction with | some ds => "." ++ String.ofList ds | none => "")
    ++ (match n.exponent with | some e => "e" ++ toString e | none => "")

/-- The multiple of `unit` nearest to `n`; halfway between two of them, the even one. -/
def nearest (unit n : Nat) : Nat :=
  if 2 * (n % unit) < unit ∨ (2 * (n % unit) = unit ∧ n / unit % 2 = 0) then unit * (n / unit)
  else unit * (n / unit + 1)

/-- Rounds to 53 significant bits, those of double precision. -/
def toDouble (n : Nat) : Nat :=
  nearest (Nat.pow 2 (n.log2 + 1 - 53)) n

/-- Double precision rounds everything from here on to infinity: it is halfway between the largest
finite number and the next power of two. -/
def overflowBound : Nat := Nat.pow 2 1024 - Nat.pow 2 970

/-- Appends digits to a number as long as it stays below `2 ^ 64`. The second part is the digits
that are left. -/
def absorb (n : Nat) : List Char → Nat × List Char
  | [] => (n, [])
  | c :: cs =>
    if 10 * n + (c.toNat - '0'.toNat) < Nat.pow 2 64 then absorb (10 * n + (c.toNat - '0'.toNat)) cs
    else (n, c :: cs)

/-- The leading digits and the power of ten that scales them. Whole digits that are left scale the
number up; digits of the fraction scale it down if they are kept and count for nothing if not. -/
def scaled (n : Numeral) : Nat × Int :=
  let fraction := n.fraction.getD []
  let (whole, dropped) := absorb 0 (Nat.toDigits 10 n.whole)
  let (significand, rest) := absorb whole fraction
  (significand, dropped.length - (fraction.length - rest.length) + n.exponent.getD 0)

/-- True if the number is too large for double precision. No power of ten above 308 is in reach;
a number that is scaled down is always small enough. -/
def overflows (n : Numeral) : Bool :=
  let (significand, power) := n.scaled
  if significand = 0 ∨ power < 0 then false
  else if 308 < power then true
  else overflowBound ≤ toDouble significand * toDouble (Nat.pow 10 power.toNat)

end Numeral

end PathSlice
