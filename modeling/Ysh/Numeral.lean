import Ysh.Operator
import Ysh.Span

/-!
# Numerals

A number literal keeps its digits as they were written, since a program that
prints the tree must be able to print `0xff_ff` again. Radix and kind are read
off that text. The integer it stands for is a question asked of it, and the
answer is none for a float and for an integer that 64 bits cannot hold.

## Main definitions

* `Numeral`: Digits as written, with their radix.
* `Numeral.ofText`: The numeral that a token spells.
* `Numeral.value?`: The integer of a numeral, if it fits in 64 bits.
-/

namespace Ysh

/-- A number literal. -/
structure Numeral where
  /-- The digits as written, with the radix mark and the underscores. -/
  raw : String
  radix : Radix
  isFloat : Bool
  span : Span
deriving DecidableEq, Repr, Inhabited

namespace Numeral

/-- The radix that the letter after a leading zero announces. -/
def radixOf : List Char → Radix
  | '0' :: letter :: _ =>
      if letter = 'x' ∨ letter = 'X' then .hex
      else if letter = 'o' ∨ letter = 'O' then .octal
      else if letter = 'b' ∨ letter = 'B' then .binary
      else .decimal
  | _ => .decimal

/-- The numeral that a number token spells. A decimal with a dot or an exponent
    is a float. -/
def ofText (raw : String) (span : Span) : Numeral :=
  let radix := radixOf raw.toList
  let isFloat := radix == .decimal && raw.toList.any fun c => c == '.' || c == 'e' || c == 'E'
  { raw, radix, isFloat, span }

/-- The value of a digit in a base of at most sixteen. -/
def digitValue? (base : Nat) (c : Char) : Option Nat :=
  let value :=
    if c.isDigit then some (c.toNat - '0'.toNat)
    else if 'a' ≤ c ∧ c ≤ 'f' then some (c.toNat - 'a'.toNat + 10)
    else if 'A' ≤ c ∧ c ≤ 'F' then some (c.toNat - 'A'.toNat + 10)
    else none
  value.filter (· < base)

/-- The positional value of digits behind those that make `value`. -/
def digitsValueFrom? (base : Nat) (value : Nat) : List Char → Option Nat
  | [] => some value
  | c :: cs => do digitsValueFrom? base (value * base + (← digitValue? base c)) cs

/-- The positional value of one or more digits. -/
def digitsValue? (base : Nat) (cs : List Char) : Option Nat :=
  if cs.isEmpty then none else digitsValueFrom? base 0 cs

/-- The integers that a signed word of 64 bits holds. -/
def fitsWord (n : Int) : Bool :=
  Int64.minValue.toInt ≤ n && n ≤ Int64.maxValue.toInt

/-- The integer that the digits spell after at most one sign, if it fits. -/
def integer? (base : Nat) (cs : List Char) : Option Int :=
  let value : Option Int := match cs with
    | '-' :: digits => (digitsValue? base digits).map fun n => -(n : Int)
    | '+' :: digits => (digitsValue? base digits).map Int.ofNat
    | digits => (digitsValue? base digits).map Int.ofNat
  value.filter fitsWord

/-- The integer that the numeral stands for: its digits without underscores and
    without the two bytes of the radix mark. A float has none, nor has an integer
    too large for 64 bits. -/
def value? (n : Numeral) : Option Int :=
  if n.isFloat then none
  else
    let digits := n.raw.toList.filter (· != '_')
    match n.radix with
    | .decimal => integer? 10 digits
    | radix => do
        let (_, digits) ← splitAtByte? 2 digits
        integer? radix.base digits

end Numeral

end Ysh
