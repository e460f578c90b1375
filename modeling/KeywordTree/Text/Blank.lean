/-! Blank characters, and texts without the blanks around or between their parts. -/
namespace KeywordTree.Text

/-- The characters with the Unicode property White_Space. -/
def isBlank (c : Char) : Bool :=
  let code := c.toNat
  (9 ≤ code && code ≤ 13) || code == 0x20 || code == 0x85 || code == 0xA0 || code == 0x1680 ||
    (0x2000 ≤ code && code ≤ 0x200A) || code == 0x2028 || code == 0x2029 || code == 0x202F ||
    code == 0x205F || code == 0x3000

def trim (text : List Char) : List Char :=
  ((text.dropWhile isBlank).reverse.dropWhile isBlank).reverse

/-- The longest parts without blanks, in order. -/
def tokens (text : List Char) : List (List Char) :=
  (text.splitOnP isBlank).filter fun token => !token.isEmpty

end KeywordTree.Text
