/-! White space, as Unicode's property White_Space has it.

The class is wider than the blanks of `Char.isWhitespace`: a name of ideographic spaces counts as
blank, and so does a line separator at the end of a statement. -/
namespace Schemata.Text

def isBlank (c : Char) : Bool :=
  let n := c.toNat
  (9 ≤ n && n ≤ 13) || n == 0x20 || n == 0x85 || n == 0xA0 || n == 0x1680 ||
    (0x2000 ≤ n && n ≤ 0x200A) || n == 0x2028 || n == 0x2029 || n == 0x202F || n == 0x205F ||
    n == 0x3000

/-- The characters without the blanks at either end. -/
def trimChars (cs : List Char) : List Char :=
  ((cs.dropWhile isBlank).reverse.dropWhile isBlank).reverse

def trim (s : String) : String := String.ofList (trimChars s.toList)

/-- Whether nothing but white space is in the text. -/
def isBlankText (s : String) : Bool := s.toList.all isBlank

end Schemata.Text
