import ReliableStream.Decimal

/-!
Binary floating point numbers of 64 bits as exact fractions, and their text: the decimal with the
fewest places that reads back as the number, written without exponent.
-/

namespace ReliableStream.Binary64

/-- The magnitude of a finite number is `significand * 2 ^ exponent / 2 ^ 1074`. -/
structure Magnitude where
  significand : Nat
  exponent : Nat
  deriving DecidableEq, Repr

def magnitude (bits : UInt64) : Magnitude :=
  let fraction := bits.toNat % (1 <<< 52)
  let exponent := (bits.toNat >>> 52) % (1 <<< 11)
  if exponent = 0 then ⟨fraction, 0⟩ else ⟨(1 <<< 52) + fraction, exponent - 1⟩

def isNegative (bits : UInt64) : Bool := bits ≥ 0x8000000000000000

namespace Magnitude

def denominator : Nat := 1 <<< 1076

def numerator (m : Magnitude) : Nat := (4 * m.significand) <<< m.exponent

def upper (m : Magnitude) : Nat := m.numerator + (2 <<< m.exponent)

/-- Halfway to the next number below, which is nearer than the one above if the significand is the
least one of its exponent. -/
def lower (m : Magnitude) : Nat :=
  if m.significand = 1 <<< 52 ∧ 0 < m.exponent then m.numerator - (1 <<< m.exponent)
  else m.numerator - (2 <<< m.exponent)

/-- The decimal `d / 10 ^ places` reads back as the number. The bounds do if the significand is
even. -/
def readsBack (m : Magnitude) (places d : Nat) : Bool :=
  let x := d * denominator
  let low := m.lower * Nat.pow 10 places
  let high := m.upper * Nat.pow 10 places
  if m.significand % 2 = 0 then low ≤ x && x ≤ high else low < x && x < high

/-- The decimal with this many places that reads back as the number and is nearest to it, the
greater one of two, if there is one. -/
def nearest? (m : Magnitude) (places : Nat) : Option Nat :=
  let n := m.numerator * Nat.pow 10 places
  let below := n / denominator
  let above := below + 1
  let aboveIsNearer := above * denominator - n ≤ n - below * denominator
  match m.readsBack places below, m.readsBack places above with
  | true, true => some (if aboveIsNearer then above else below)
  | true, false => some below
  | false, true => some above
  | false, false => none

def shortestFrom (m : Magnitude) (places : Nat) : Nat → Nat × Nat
  | 0 => (m.numerator * Nat.pow 10 places / denominator, places)
  | more + 1 =>
    match m.nearest? places with
    | some d => (d, places)
    | none => m.shortestFrom (places + 1) more

/-- The shortest decimal that reads back as the number: its digits and their places. With 1076
places every number is exact. -/
def shortest (m : Magnitude) : Nat × Nat := m.shortestFrom 0 1076

end Magnitude

def withPoint (d places : Nat) : List Char :=
  if places = 0 then Decimal.digits d
  else
    let digits := Decimal.digits d
    let padded := List.replicate (places + 1 - digits.length) '0' ++ digits
    padded.take (padded.length - places) ++ '.' :: padded.drop (padded.length - places)

def text (bits : UInt64) : String :=
  let (d, places) := (magnitude bits).shortest
  String.ofList ((if isNegative bits then ['-'] else []) ++ withPoint d places)

end ReliableStream.Binary64
