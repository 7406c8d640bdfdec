import ValueNumbering.Ident

/-!
# Literals

A literal is told apart from all others by two words: the number of its sort and what it carries
(`Literal.eq_of_words`). Both its hash and its place in an ordered map depend on these words only.
-/

namespace ValueNumbering

/-- A literal. A floating-point number is held by its bits, so that zeros of either sign and all
the codes for "not a number" are told apart. -/
inductive Literal
  | int (value : Int64)
  | bool (value : Bool)
  | float (bits : UInt64)
deriving DecidableEq, Repr

namespace Literal

/-- The number of the literal's sort. -/
def sort : Literal → UInt64
  | int _ => 0
  | bool _ => 1
  | float _ => 2

/-- The word that the literal carries. -/
def word : Literal → UInt64
  | int v => v.toUInt64
  | bool b => b.toUInt64
  | float w => w

/-- The text of a literal. -/
def text : Literal → String
  | int v => s!"Int({v.toInt})"
  | bool true => "Bool(true)"
  | bool false => "Bool(false)"
  | float w => s!"Float({w})"

theorem eq_of_words {l m : Literal} (hs : l.sort = m.sort) (hw : l.word = m.word) : l = m := by
  cases l <;> cases m <;> simp_all [sort, word]
  case int.int => exact Int64.toBitVec_inj.1 (congrArg UInt64.toBitVec hw)
  case bool.bool b c => revert hw; cases b <;> cases c <;> decide

/-- Literals are ordered by sort, then by word. -/
instance : Ord Literal := ⟨compareLex (compareOn sort) (compareOn word)⟩

instance : Std.TransOrd Literal :=
  inferInstanceAs (Std.TransCmp (compareLex (compareOn sort) (compareOn word)))

instance : Std.LawfulEqOrd Literal where
  compare_self := Std.ReflCmp.compare_self
  eq_of_compare h := by
    have ⟨hs, hw⟩ := compareLex_eq_eq.1 h
    exact eq_of_words (Std.LawfulEqOrd.eq_of_compare hs) (Std.LawfulEqOrd.eq_of_compare hw)

end Literal

end ValueNumbering
