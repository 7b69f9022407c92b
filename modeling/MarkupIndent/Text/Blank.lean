/-!
# Blank characters

A blank is a character of the Unicode class of white space, widened by the four separators
U+001C to U+001F. Everything that skips, trims or splits at white space uses this one class.

* `isBlank`: the class.
* `trim`: a text without the blanks at its two ends; `trimRight` and `trimLeft` are the halves.
-/

namespace MarkupIndent.Text

/-- The white space characters of Unicode and the four information separators. -/
def isBlank (c : Char) : Bool :=
  let n := c.toNat
  (0x09 ≤ n && n ≤ 0x0d) || (0x1c ≤ n && n ≤ 0x20) || n == 0x85 || n == 0xa0 || n == 0x1680 ||
  (0x2000 ≤ n && n ≤ 0x200a) || n == 0x2028 || n == 0x2029 || n == 0x202f || n == 0x205f ||
  n == 0x3000

/-- The text from its first character that is not blank. -/
def trimLeft (text : List Char) : List Char :=
  text.dropWhile isBlank

/-- The text up to its last character that is not blank. -/
def trimRight (text : List Char) : List Char :=
  (text.reverse.dropWhile isBlank).reverse

/-- The text without the blanks at both ends. -/
def trim (text : List Char) : List Char :=
  trimRight (trimLeft text)

theorem isBlank_newline : isBlank '\n' = true := rfl

theorem isBlank_space : isBlank ' ' = true := rfl

theorem isBlank_tab : isBlank '\t' = true := rfl

end MarkupIndent.Text
