import ReliableStream.Binary64

namespace ReliableStream

structure Probability where
  value : Float
  /-- In the order of their bits, the numbers up to 1 come first; -0 counts as 0. -/
  unit : value.toBits ≤ (1.0 : Float).toBits ∨ value.toBits = (-0.0 : Float).toBits

namespace Probability

def ofFloat? (x : Float) : Option Probability :=
  if h : x.toBits ≤ (1.0 : Float).toBits ∨ x.toBits = (-0.0 : Float).toBits then some ⟨x, h⟩
  else none

def zero : Probability := ⟨0.0, by decide⟩

def one : Probability := ⟨1.0, by decide⟩

end Probability

inductive Fate where
  | pass
  | hold
  | lose
  deriving DecidableEq, Repr, Inhabited

/-- How likely a frame is to pass, and one that does not pass to be held back. -/
structure Odds where
  pass : Probability
  hold : Probability

/-- A random number of 53 bits, taken as a fraction of `2 ^ 53`. -/
abbrev Draw := Fin (1 <<< 53)

def Draw.below (d : Draw) (p : Probability) : Bool :=
  let m := Binary64.magnitude p.value.toBits
  d.val <<< 1021 < m.significand <<< m.exponent

namespace Odds

def ofFloats? (pass hold : Float) : Option Odds :=
  match Probability.ofFloat? pass, Probability.ofFloat? hold with
  | some pass, some hold => some ⟨pass, hold⟩
  | _, _ => none

def fate (o : Odds) (first second : Draw) : Fate :=
  if first.below o.pass then .pass else if second.below o.hold then .hold else .lose

def probability (o : Odds) : Fate → Float
  | .pass => o.pass.value
  | .hold => (1.0 - o.pass.value) * o.hold.value
  | .lose => (1.0 - o.pass.value) * (1.0 - o.hold.value)

def line (label : String) (x : Float) : String :=
  "p(" ++ label ++ ") = " ++ Binary64.text x.toBits ++ "\n"

def describe (o : Odds) : String :=
  line "transmission" o.pass.value ++ line "queue" o.hold.value ++
    line "success" (o.probability .pass) ++ line "delay" (o.probability .hold) ++
    line "drop" (o.probability .lose)

end Odds

end ReliableStream
