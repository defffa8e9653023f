namespace ReliableStream.Decimal

inductive Fault where
  | empty
  | invalidDigit
  | tooLarge
  deriving DecidableEq, Repr

def Fault.message : Fault → String
  | .empty => "cannot parse integer from empty string"
  | .invalidDigit => "invalid digit found in string"
  | .tooLarge => "number too large to fit in target type"

def digits (n : Nat) : List Char := Nat.toDigits 10 n

def text (n : Nat) : String := String.ofList (digits n)

def value? (c : Char) : Option Nat := if c.isDigit then some (c.toNat - 48) else none

/-- Reads digits after a number `n`. A character that is no digit is reported before the overflow
that it would cause. -/
def continue? (n : UInt8) : List Char → Except Fault UInt8
  | [] => .ok n
  | c :: rest =>
    match value? c with
    | none => .error .invalidDigit
    | some d =>
      if n.toNat * 10 + d < 256 then continue? (UInt8.ofNat (n.toNat * 10 + d)) rest
      else .error .tooLarge

/-- Reads a number below 256: one or more ASCII digits after an optional plus sign. -/
def byte? : List Char → Except Fault UInt8
  | [] => .error .empty
  | ['+'] => .error .invalidDigit
  | '+' :: cs => continue? 0 cs
  | cs => continue? 0 cs

end ReliableStream.Decimal
