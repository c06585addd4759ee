/-!
## Blank text

The white space of the Unicode character database, and texts made of nothing else.

* `isBlank`: one white-space character.
* `allBlank`: a text in which nothing can be seen, such as an empty one.
* `dropBlanks`: what follows the white space at the front of a text.
-/

namespace MetricHistory.Text

/-- The characters with the Unicode property `White_Space`: the tabs and line breaks, the spaces of
every width, and the line and paragraph separators.  A zero-width space is not one of them. -/
def isBlank (c : Char) : Bool :=
  let n := c.toNat
  (0x09 ≤ n && n ≤ 0x0D) || n == 0x20 || n == 0x85 || n == 0xA0 || n == 0x1680 ||
    (0x2000 ≤ n && n ≤ 0x200A) || n == 0x2028 || n == 0x2029 || n == 0x202F || n == 0x205F ||
    n == 0x3000

/-- Whether a text shows nothing. -/
def allBlank (s : String) : Bool :=
  s.toList.all isBlank

/-- The text after the white space at its front. -/
def dropBlanks (text : List Char) : List Char :=
  text.dropWhile isBlank

end MetricHistory.Text
