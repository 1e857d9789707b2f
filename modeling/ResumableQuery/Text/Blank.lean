/-!
# White space

The characters that carry the white-space property: the controls from tab to carriage return and
the next-line control, the ordinary, no-break and ogham spaces, the typographic spaces, the line and
paragraph separators, the mathematical and the ideographic space.
-/

namespace ResumableQuery.Text

/-- Whether a character is white space. -/
def isBlank (c : Char) : Bool :=
  let n := c.toNat
  (0x09 ≤ n && n ≤ 0x0D) || n == 0x20 || n == 0x85 || n == 0xA0 || n == 0x1680 ||
    (0x2000 ≤ n && n ≤ 0x200A) || n == 0x2028 || n == 0x2029 || n == 0x202F || n == 0x205F ||
    n == 0x3000

end ResumableQuery.Text
