/-!
# Blank characters

The characters of the Unicode property `White_Space`, and the texts with blank
ends removed. Keys, angle literals, point literals and dotted references are all
read after trimming.
-/

namespace Drafting
namespace Text

/-- The characters of the Unicode property `White_Space`: twenty-five code points,
written as ranges. -/
def isBlank (c : Char) : Bool :=
  let n := c.toNat
  (0x9 ≤ n && n ≤ 0xD) || n == 0x20 || n == 0x85 || n == 0xA0 || n == 0x1680 ||
    (0x2000 ≤ n && n ≤ 0x200A) || n == 0x2028 || n == 0x2029 || n == 0x202F ||
    n == 0x205F || n == 0x3000

/-- The list without the longest blank run at each end. -/
def trim (cs : List Char) : List Char :=
  ((cs.dropWhile isBlank).reverse.dropWhile isBlank).reverse

end Text
end Drafting
