import ValueNumbering.Literal
import ValueNumbering.NodeKind
import ValueNumbering.Operator

/-!
# Operations

The operation of a node is everything about it except its operands, its result type and its flags.
What a leaf carries (a literal, a variable with its version, a name) is part of the operation, so
two leaves agree exactly when their operations do.

* `Op.kind` sorts operations by the part that their nodes play;
* `Op.arity?` is the number of operands that an operation takes, if it is fixed;
* `Op.words` is what a hash of the operation reads.
-/

namespace ValueNumbering

/-- The operation of a node. -/
inductive Op
  | lit (value : Literal)
  /-- A variable at one of its versions. -/
  | var (name : Symbol) (version : UInt32)
  | decl (name : Symbol)
  | binary (op : BinaryOp)
  | unary (op : UnaryOp)
  | convert
  | load
  | call (callee : Symbol)
  | assign
  | store
  | label (name : Symbol)
deriving DecidableEq, Repr

namespace Op

/-- The kind of the nodes with this operation. -/
def kind : Op → NodeKind
  | lit _ => .constant
  | var _ _ => .variableRef
  | decl _ => .declaration
  | binary _ | unary _ | convert | load | call _ => .expression
  | assign | store => .statement
  | label _ => .other

/-- The number of operands that the operation takes; a call takes any number. -/
def arity? : Op → Option Nat
  | lit _ | var _ _ | decl _ | label _ => some 0
  | unary _ | convert | load => some 1
  | binary _ | assign | store => some 2
  | call _ => none

/-- The text of an operation. -/
def text : Op → String
  | lit l => l.text
  | var n v => s!"Var \x7b name: {n.text}, version: {v} \x7d"
  | decl n => s!"Decl({n.text})"
  | binary b => s!"Binary({b.text})"
  | unary u => s!"Unary({u.text})"
  | convert => "Convert"
  | load => "Load"
  | call n => s!"Call({n.text})"
  | assign => "Assign"
  | store => "Store"
  | label n => s!"Label({n.text})"

/-- The words that a hash of the operation reads: the number of its sort, then what it carries. -/
def words : Op → List UInt64
  | lit l => [l.sort, l.word]
  | var n v => [3, n.raw.toUInt64, v.toUInt64]
  | decl n => [4, n.raw.toUInt64]
  | binary b => [5, b.number]
  | unary u => [6, u.number]
  | convert => [7]
  | load => [8]
  | call n => [9, n.raw.toUInt64]
  | assign => [10]
  | store => [11]
  | label n => [12, n.raw.toUInt64]

theorem kind_eq_constant_iff {op : Op} : op.kind = .constant ↔ ∃ l, op = lit l := by
  cases op <;> simp [kind]

end Op

end ValueNumbering
