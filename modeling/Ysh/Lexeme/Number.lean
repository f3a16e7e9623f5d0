import Ysh.Lexeme.Basic

/-!
# Numbers and Character Literals

The two lexemes of an expression whose form is more than a run of characters of
one class.

A number is a decimal with an optional fraction and exponent, or digits of
another radix after `0x`, `0o` or `0b`. Underscores may stand among the digits.
A dot belongs to the number only when a digit follows, so that `1..<5` stays a
range, and an `e` only when digits follow, so that `1e` is a number with a letter
stuck to it. Letters stuck to a number spoil the whole run.

A character literal is a backslash and what it escapes.

## Main definitions

* `Lexeme.number`: The number at the front of a text that starts with a digit.
* `Lexeme.character`: The character literal at the front of a text.
-/

namespace Ysh

namespace Lexeme

/-- The length of a run of digits of a class, underscores among them. -/
def digitsLength (isDigit : Char → Bool) (cs : List Char) : Nat :=
  runLength (fun c => isDigit c || c == '_') cs

/-- The digits of the radix that the letter after `0` announces. -/
def radixDigits? (letter : Char) : Option (Char → Bool) :=
  if letter = 'x' ∨ letter = 'X' then some Character.isHexDigit
  else if letter = 'o' ∨ letter = 'O' then some Character.isOctalDigit
  else if letter = 'b' ∨ letter = 'B' then some Character.isBinaryDigit
  else none

/-- The length of a fraction: a dot that a digit follows, and the digits. -/
def fractionLength : List Char → Nat
  | '.' :: c :: cs => if c.isDigit then 1 + digitsLength Char.isDigit (c :: cs) else 0
  | _ => 0

/-- The length of the digits of an exponent. They start with a digit proper. -/
def exponentDigitsLength : List Char → Nat
  | [] => 0
  | c :: cs => if c.isDigit then digitsLength Char.isDigit (c :: cs) else 0

/-- The length of a sign, which need not be there. -/
def signLength : List Char → Nat
  | [] => 0
  | c :: _ => if c = '+' ∨ c = '-' then 1 else 0

/-- The length of an exponent: the letter, an optional sign and digits. Without
    digits there is no exponent. -/
def exponentLength : List Char → Nat
  | [] => 0
  | letter :: cs =>
      if letter = 'e' ∨ letter = 'E' then
        let digits := exponentDigitsLength (cs.drop (signLength cs))
        if digits = 0 then 0 else 1 + signLength cs + digits
      else 0

/-- The length of a decimal number. -/
def decimalLength (cs : List Char) : Nat :=
  let whole := digitsLength Char.isDigit cs
  let fraction := fractionLength (cs.drop whole)
  let exponent := exponentLength (cs.drop (whole + fraction))
  whole + fraction + exponent

/-- The length of the number at the front, before any letter stuck to it, and
    whether it has digits where it needs them. -/
def numeralLength (cs : List Char) : Nat × Bool :=
  match cs with
  | '0' :: letter :: rest =>
      match radixDigits? letter with
      | some isDigit =>
          let digits := digitsLength isDigit rest
          (2 + digits, digits != 0)
      | none => (decimalLength cs, true)
  | _ => (decimalLength cs, true)

/-- The number at the front of a text that starts with a digit. -/
def number (cs : List Char) : Lexeme :=
  let (length, hasDigits) := numeralLength cs
  let stuck := runLength Character.isNamePart (cs.drop length)
  if hasDigits && stuck == 0 then .token .number length
  else .fault .malformedNumber (length + stuck)

/-- The length of a run of hexadecimal digits, of which only the first `most`
    count. -/
def hexLength (most : Nat) (cs : List Char) : Nat :=
  runLength Character.isHexDigit (cs.take most)

/-- The character literal at the front of a text that starts with a backslash:
    `\u` with braced digits, `\x` with up to two digits, or a backslash and any
    character but a blank. -/
def character : List Char → Lexeme
  | _ :: 'u' :: '{' :: cs =>
      let digits := runLength Character.isHexDigit cs
      if (cs.drop digits).head? = some '}' then .token .character (4 + digits)
      else .fault .invalidEscape (3 + digits)
  | _ :: 'x' :: cs => .token .character (2 + hexLength 2 cs)
  | _ :: c :: _ => if Character.isBlank c then .fault .invalidEscape 1 else .token .character 2
  | _ => .fault .invalidEscape 1

end Lexeme

end Ysh
