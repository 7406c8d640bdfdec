import ValueNumbering.Op
import ValueNumbering.Value

/-!
# Faults

Every way in which a request can be refused, with the text under which it is reported.
-/

namespace ValueNumbering

/-- Why a request was refused. -/
inductive Fault
  /-- An operation was given another number of operands than it takes. -/
  | wrongArity (op : Op) (expected actual : Nat)
  /-- An operand of a new node is not in the arena. -/
  | operandNotAllocated
  /-- The arena has no number left for another node. -/
  | tooManyNodes (count : Nat)
  /-- The operand pool has no position left. -/
  | tooManyPoolEntries (count : Nat)
  /-- A node was given more operands than a span can hold. -/
  | tooManyOperands (count : Nat)
  /-- A node that the arena does not have was asked for. -/
  | noSuchNode (size : Nat) (node : NodeId)
  /-- A statement was given where a value is needed. -/
  | statementHashed (node : NodeId)
  /-- A constant was to be given a value other than itself. -/
  | constantRebound (node : NodeId) (value : Value)
  /-- A node of a kind without values was to carry one. -/
  | notBindable (node : NodeId) (kind : NodeKind)
  /-- A handle was used that the session has not allocated. -/
  | unknownHandle (id : Handle)
  /-- The session has no number left for another value. -/
  | handlesExhausted
  /-- The end of a span is beyond every pool position. -/
  | spanOverflow
deriving DecidableEq, Repr

namespace Fault

/-- The report of a fault. -/
def message : Fault → String
  | wrongArity op expected actual =>
    s!"{op.text} takes Some({expected}) operands, got {actual}"
  | operandNotAllocated => "operands must be allocated before their user"
  | tooManyNodes count => s!"too many expressions: {count} exceeds u32::MAX"
  | tooManyPoolEntries count => s!"too many operand list entries: {count} exceeds u32::MAX"
  | tooManyOperands count => s!"operand list too long: {count} exceeds u16::MAX"
  | noSuchNode size node =>
    s!"index out of bounds: the len is {size} but the index is {node.raw}"
  | statementHashed node =>
    s!"value numbering hashes expressions, not statements: {node.text}"
  | constantRebound node value =>
    "assertion `left == right` failed: constants are their own value; "
      ++ s!"cannot bind {node.text} to {value.text}\n  left: {value.sortedText}"
      ++ s!"\n right: {(Value.const node).sortedText}"
  | notBindable node kind =>
    s!"internal error: entered unreachable code: {node.text} ({kind.text}) "
      ++ "cannot carry a value handle"
  | unknownHandle id => s!"{id.text} was not allocated by this session"
  | handlesExhausted =>
    s!"value numbering session exhausted its value ids ({identLimit} allocated)"
  | spanOverflow => "attempt to add with overflow"

end Fault

end ValueNumbering
