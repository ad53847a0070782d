/-
White space: the characters a rule may put between its items, a line
may have at its ends, and a scanned text may have between its tokens.
-/
import Munch.Text.Ranges

namespace Munch

/-- The ranges of the Unicode property White_Space. -/
def blankRanges : Ranges := [
  (0x9, 0xd), (0x20, 0x20), (0x85, 0x85), (0xa0, 0xa0), (0x1680, 0x1680),
  (0x2000, 0x200a), (0x2028, 0x2029), (0x202f, 0x202f), (0x205f, 0x205f),
  (0x3000, 0x3000) ]

/-- The walk through the white space may stop early. -/
theorem blankRanges_sorted : blankRanges.sortedFrom 0 = true := by
  decide +kernel

/-- Whether a character is white space. -/
def isBlank (c : Char) : Bool := blankRanges.has c.toNat

end Munch
