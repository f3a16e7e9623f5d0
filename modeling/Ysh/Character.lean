/-!
# Character Classes

The classes of characters on which the lexical rules of YSH turn. Names and
digits are ASCII by the language's own definition, so those classes are small
ranges. Blank characters are not: the rules that end a word and that trim a
pattern both follow the Unicode property `White_Space`, so the table here is
that property and not the ASCII blanks alone.

## Main definitions

* `Character.isBlank`: The Unicode property `White_Space`.
* `Character.isNameStart`, `Character.isNamePart`: The characters of a name.
* `Character.isHexDigit`, `Character.isOctalDigit`, `Character.isBinaryDigit`:
  The digits of the prefixed radices.
* `Character.isWordSpecial`: The characters that end a bare run of a word.
-/

namespace Ysh

namespace Character

/-- The Unicode property `White_Space`: twenty-five characters in ten ranges. -/
def isBlank (c : Char) : Bool :=
  let n := c.toNat
  (9 ≤ n && n ≤ 13) || n == 0x20 || n == 0x85 || n == 0xA0 || n == 0x1680 ||
    (0x2000 ≤ n && n ≤ 0x200A) || n == 0x2028 || n == 0x2029 || n == 0x202F ||
    n == 0x205F || n == 0x3000

/-- A name starts with an ASCII letter or an underscore. -/
def isNameStart (c : Char) : Bool :=
  c.isAlpha || c == '_'

/-- A name goes on with ASCII letters, digits and underscores. -/
def isNamePart (c : Char) : Bool :=
  c.isAlphanum || c == '_'

/-- The digits of radix sixteen, in either case. -/
def isHexDigit (c : Char) : Bool :=
  c.isDigit || ('a' ≤ c && c ≤ 'f') || ('A' ≤ c && c ≤ 'F')

/-- The digits of radix eight. -/
def isOctalDigit (c : Char) : Bool :=
  '0' ≤ c && c ≤ '7'

/-- The digits of radix two. -/
def isBinaryDigit (c : Char) : Bool :=
  c == '0' || c == '1'

/-- The characters that end a bare run of a shell word: quotes, brackets,
    operators, the backslash, and every blank. -/
def isWordSpecial (c : Char) : Bool :=
  ['\'', '"', '<', '>', '{', '}', '[', ']', '(', ')', '`', '$', '|', '&', ';',
    '\\'].contains c || isBlank c

end Character

end Ysh
