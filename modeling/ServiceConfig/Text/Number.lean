/-! # Whole numbers in decimal

A number is an optional sign and at least one digit; only signed types admit the minus. The value is
exact however many digits there are, and has to lie in the range of its type.
-/

namespace ServiceConfig.Text

structure IntegerType where
  signed : Bool
  bits : Nat
  deriving DecidableEq, Repr

namespace IntegerType

/-- The bits that are left for the size of a number. -/
def sizeBits (type : IntegerType) : Nat := if type.signed then type.bits - 1 else type.bits

def least (type : IntegerType) : Int := if type.signed then -Int.pow 2 type.sizeBits else 0
def greatest (type : IntegerType) : Int := Int.pow 2 type.sizeBits - 1

def contains (type : IntegerType) (number : Int) : Bool :=
  type.least ≤ number && number ≤ type.greatest

end IntegerType

def digit? (char : Char) : Option Nat :=
  if '0' ≤ char ∧ char ≤ '9' then some (char.toNat - 48) else none

/-- The number that digits stand for after the number `before`. -/
def digitsFrom? (before : Nat) : List Char → Option Nat
  | [] => some before
  | char :: rest => (digit? char).bind fun value => digitsFrom? (before * 10 + value) rest

def magnitude? (chars : List Char) : Option Nat :=
  if chars.isEmpty then none else digitsFrom? 0 chars

def integer? (signed : Bool) (chars : List Char) : Option Int :=
  match chars with
  | '+' :: digits => (magnitude? digits).map Int.ofNat
  | '-' :: digits => if signed then (magnitude? digits).map fun size => -Int.ofNat size else none
  | digits => (magnitude? digits).map Int.ofNat

/-- The number of a type that a text stands for. -/
def readInteger? (type : IntegerType) (text : String) : Option Int :=
  (integer? type.signed text.toList).filter type.contains

end ServiceConfig.Text
