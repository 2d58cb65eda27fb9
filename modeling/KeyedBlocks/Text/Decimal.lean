/-!
Whole numbers in decimal digits, with a plus sign before them at most, and below a limit.
-/
namespace KeyedBlocks.Decimal

inductive DecimalError
  | empty
  | badDigit
  | tooLarge
  deriving DecidableEq, Repr

def DecimalError.message : DecimalError → String
  | .empty => "cannot parse integer from empty string"
  | .badDigit => "invalid digit found in string"
  | .tooLarge => "number too large to fit in target type"

def digitValue (c : Char) : Nat := c.toNat - 48

def ofDigits (digits : List Char) : Nat :=
  digits.foldl (fun n c => 10 * n + digitValue c) 0

/-- The digits of a text. A plus sign alone is not passed over. -/
def digitsOf : List Char → List Char
  | ['+'] => ['+']
  | '+' :: digits => digits
  | digits => digits

/-- Read on with the digits of a number that is `n` so far. The first character that is no digit, or
with which the number reaches the limit, decides. -/
def readFrom (limit : Nat) : Nat → List Char → Except DecimalError Nat
  | n, [] => .ok n
  | n, c :: rest =>
      if !c.isDigit then .error .badDigit
      else if 10 * n + digitValue c < limit then readFrom limit (10 * n + digitValue c) rest
      else .error .tooLarge

def natBelow (limit : Nat) (text : String) : Except DecimalError Nat :=
  match digitsOf text.toList with
  | [] => .error .empty
  | digits => readFrom limit 0 digits

end KeyedBlocks.Decimal
