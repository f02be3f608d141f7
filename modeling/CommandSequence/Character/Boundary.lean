import CommandSequence.Character.Basic

/-!
# Sets of characters by their boundaries

A property of characters is stored as the code points at which it changes, in increasing order: it
begins to hold at the first of them, ceases at the second, and so on.
-/

namespace CommandSequence.Character

/-- Whether a code point has the property with these changes: an odd number of them is passed. -/
def withinChanges (changes : List Nat) (code : Nat) : Bool :=
  (changes.takeWhile (· ≤ code)).length % 2 == 1

end CommandSequence.Character
