/-!
# Flags

Eight bits of remarks on a node. Two of them have a meaning; the others are kept as they are given.
-/

namespace ValueNumbering

/-- The flags of a node. -/
structure Flags where
  /-- The bits, whether they have a meaning or not. -/
  bits : UInt8
deriving DecidableEq, Repr

namespace Flags

/-- No flag is set. -/
def empty : Flags := ⟨0⟩

/-- Evaluating the node may fail. -/
def mayTrap : Flags := ⟨1⟩

/-- Evaluating the node does more than produce a value. -/
def sideEffects : Flags := ⟨2⟩

/-- The flags with a meaning, and their names, in the order in which texts list them. -/
def named : List (Flags × String) := [(mayTrap, "MAY_TRAP"), (sideEffects, "SIDE_EFFECTS")]

/-- All bits with a meaning. -/
def meaningful : UInt8 := 3

/-- Whether all the flags of the second set are in the first. -/
def contains (f g : Flags) : Bool := f.bits &&& g.bits = g.bits

/-- Whether no flag is set. -/
def isEmpty (f : Flags) : Bool := f = empty

/-- The flags with a meaning only. -/
def truncate (f : Flags) : Flags := ⟨f.bits &&& meaningful⟩

/-- Whether each bit that is set has a meaning. -/
def isKnown (f : Flags) : Bool := f.truncate = f

/-- The text of flags: the names of those that are set, then the bits without a meaning as one
hexadecimal number. -/
def text (f : Flags) : String :=
  let names := (named.filter (f.contains ·.1)).map (·.2)
  let rest := f.bits &&& ~~~meaningful
  let hex := "0x" ++ String.ofList (Nat.toDigits 16 rest.toNat)
  let parts := if rest = 0 && !names.isEmpty then names else names ++ [hex]
  "ExprFlags(" ++ " | ".intercalate parts ++ ")"

end Flags

end ValueNumbering
