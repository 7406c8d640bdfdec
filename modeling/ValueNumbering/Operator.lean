/-!
# Operators

The binary and unary operators. Each has a number, which hashes read, and a text.
-/

namespace ValueNumbering

/-- The operators with two operands. -/
inductive BinaryOp
  | add | sub | mul | div | rem | bitAnd | bitOr | bitXor | shl | shr
  | eq | notEq | lt | ltEq | gt | gtEq
deriving DecidableEq, Repr

namespace BinaryOp

/-- All binary operators in the order of their numbers. -/
def all : List BinaryOp :=
  [add, sub, mul, div, rem, bitAnd, bitOr, bitXor, shl, shr, eq, notEq, lt, ltEq, gt, gtEq]

/-- The number of an operator. -/
def number : BinaryOp → UInt64
  | add => 0 | sub => 1 | mul => 2 | div => 3 | rem => 4 | bitAnd => 5 | bitOr => 6 | bitXor => 7
  | shl => 8 | shr => 9 | eq => 10 | notEq => 11 | lt => 12 | ltEq => 13 | gt => 14 | gtEq => 15

/-- The text of an operator. -/
def text : BinaryOp → String
  | add => "Add" | sub => "Sub" | mul => "Mul" | div => "Div" | rem => "Rem"
  | bitAnd => "BitAnd" | bitOr => "BitOr" | bitXor => "BitXor" | shl => "Shl" | shr => "Shr"
  | eq => "Eq" | notEq => "NotEq" | lt => "Lt" | ltEq => "LtEq" | gt => "Gt" | gtEq => "GtEq"

/-- The operator with a given text. -/
def ofText? (s : String) : Option BinaryOp := all.find? (·.text = s)

/-- Whether the operator fails for some operands: a divisor may be zero. -/
def mayTrap (b : BinaryOp) : Bool := b = div || b = rem

end BinaryOp

/-- The operators with one operand. -/
inductive UnaryOp
  | neg | not | bitNot
deriving DecidableEq, Repr

namespace UnaryOp

/-- All unary operators in the order of their numbers. -/
def all : List UnaryOp := [neg, not, bitNot]

/-- The number of an operator. -/
def number : UnaryOp → UInt64
  | neg => 0 | not => 1 | bitNot => 2

/-- The text of an operator. -/
def text : UnaryOp → String
  | neg => "Neg" | not => "Not" | bitNot => "BitNot"

/-- The operator with a given text. -/
def ofText? (s : String) : Option UnaryOp := all.find? (·.text = s)

end UnaryOp

end ValueNumbering
