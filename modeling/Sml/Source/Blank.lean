/-!
# White space

The characters that may stand in the gap of a string literal: those with the
Unicode property `White_Space`.  Between tokens fewer characters count as
blanks.
-/

namespace Sml

/-- The code points with the property `White_Space`, as closed ranges. -/
def whiteSpaceRanges : List (Nat × Nat) :=
  [(0x09, 0x0d), (0x20, 0x20), (0x85, 0x85), (0xa0, 0xa0), (0x1680, 0x1680),
    (0x2000, 0x200a), (0x2028, 0x2029), (0x202f, 0x202f), (0x205f, 0x205f),
    (0x3000, 0x3000)]

def isWhiteSpace (c : Char) : Bool :=
  whiteSpaceRanges.any fun range =>
    range.1 ≤ c.toNat && c.toNat ≤ range.2

end Sml
