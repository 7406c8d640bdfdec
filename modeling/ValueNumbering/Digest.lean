/-!
# Digests

A digest condenses a list of 64-bit words into one. Each word is added to the state, and the state
is multiplied by an odd number; the last step brings the high bits, which depend on most of the
words, to the low end.
-/

namespace ValueNumbering.Digest

/-- The multiplier. -/
def multiplier : UInt64 := 0xf1357aea2e62a9c5

/-- Reads one word. -/
def absorb (state word : UInt64) : UInt64 := (state + word) * multiplier

/-- Turns the state to the left by 26 bits. -/
def finish (state : UInt64) : UInt64 := state <<< 26 ||| state >>> 38

/-- The digest of a list of words. -/
def ofWords (words : List UInt64) : UInt64 := finish (words.foldl absorb 0)

end ValueNumbering.Digest
