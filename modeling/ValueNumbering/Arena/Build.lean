import ValueNumbering.Arena.Push

/-!
# Building expressions

One function for each sort of node. Each is a push with the type and the flags that belong to the
sort.
-/

namespace ValueNumbering.Arena

variable (a : Arena)

/-- An integer literal. -/
def int (value : Int64) : Except Fault NodeId × Arena :=
  a.push (.lit (.int value)) .int [] .empty

/-- A literal truth value. -/
def bool (value : Bool) : Except Fault NodeId × Arena :=
  a.push (.lit (.bool value)) .bool [] .empty

/-- A floating-point literal, given by its bits. -/
def float (bits : UInt64) : Except Fault NodeId × Arena :=
  a.push (.lit (.float bits)) .float [] .empty

/-- A use of a variable at one of its versions. -/
def var (name : Symbol) (version : UInt32) (ty : Ty) : Except Fault NodeId × Arena :=
  a.push (.var name version) ty [] .empty

/-- A declaration. -/
def decl (name : Symbol) (ty : Ty) : Except Fault NodeId × Arena :=
  a.push (.decl name) ty [] .empty

/-- A binary operator and its operands. Operators that may fail are flagged. -/
def binary (op : BinaryOp) (left right : NodeId) (ty : Ty) : Except Fault NodeId × Arena :=
  a.push (.binary op) ty [left, right] (if op.mayTrap then .mayTrap else .empty)

/-- A unary operator and its operand. -/
def unary (op : UnaryOp) (operand : NodeId) (ty : Ty) : Except Fault NodeId × Arena :=
  a.push (.unary op) ty [operand] .empty

/-- A conversion to another type. -/
def convert (operand : NodeId) (ty : Ty) : Except Fault NodeId × Arena :=
  a.push .convert ty [operand] .empty

/-- A read of the memory at an address. -/
def load (address : NodeId) (ty : Ty) : Except Fault NodeId × Arena :=
  a.push .load ty [address] .empty

/-- A call that does nothing but produce its result. -/
def call (callee : Symbol) (args : List NodeId) (ty : Ty) : Except Fault NodeId × Arena :=
  a.push (.call callee) ty args .empty

/-- A call that does more than produce its result. -/
def effectfulCall (callee : Symbol) (args : List NodeId) (ty : Ty) : Except Fault NodeId × Arena :=
  a.push (.call callee) ty args .sideEffects

/-- An assignment to a variable. -/
def assign (target value : NodeId) : Except Fault NodeId × Arena :=
  a.push .assign .void [target, value] .empty

/-- A write to the memory at an address. -/
def store (address value : NodeId) : Except Fault NodeId × Arena :=
  a.push .store .void [address, value] .sideEffects

/-- A label. -/
def label (name : Symbol) : Except Fault NodeId × Arena :=
  a.push (.label name) .void [] .empty

end ValueNumbering.Arena
