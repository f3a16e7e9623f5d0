/-!
# JSON Text

The JSON that a tree and its diagnostics are dumped as. Only writing is needed.
Objects have their keys in order and the layout is fixed, two blanks a level, so
that equal values have equal texts and a dump can be compared line by line.

## Main definitions

* `Json`: A JSON value. Its numbers are integers.
* `Json.record`: An object with its fields in the order of their names.
* `Json.tagged`: An object of one field, which says what its value is.
* `Json.quote`: A text as a string literal.
* `Json.pretty`: The laid out text of a value.
-/

namespace Ysh

/-- A JSON value whose numbers are integers. -/
inductive Json where
  | null
  | bool (value : Bool)
  | number (value : Nat)
  | string (value : String)
  | array (items : List Json)
  | object (fields : List (String × Json))
deriving Inhabited

namespace Json

/-- An object with its fields in the order of their names. -/
def record (fields : List (String × Json)) : Json :=
  .object (fields.mergeSort fun a b => a.1 ≤ b.1)

/-- An object of one field, which says what its value is. -/
def tagged (tag : String) (value : Json) : Json :=
  .object [(tag, value)]

/-- The array with one more item in front. A value that is no array stays. -/
def cons (item : Json) : Json → Json
  | array items => array (item :: items)
  | value => value

/-- The value, or `null` for none. -/
def ofOption (value : Option Json) : Json :=
  value.getD .null

/-- The hexadecimal digit of a value below sixteen. -/
def hexDigit (n : Nat) : Char :=
  if n < 10 then Char.ofNat ('0'.toNat + n) else Char.ofNat ('a'.toNat + (n - 10))

/-- A character inside a string literal. Only quotes, backslashes and control
    characters are escaped, the latter by name where they have one. -/
def escape (c : Char) : List Char :=
  if c = '"' then ['\\', '"']
  else if c = '\\' then ['\\', '\\']
  else if c = '\n' then ['\\', 'n']
  else if c = '\r' then ['\\', 'r']
  else if c = '\t' then ['\\', 't']
  else if c.toNat = 8 then ['\\', 'b']
  else if c.toNat = 12 then ['\\', 'f']
  else if c.toNat < 32 then
    ['\\', 'u', '0', '0', hexDigit (c.toNat / 16), hexDigit (c.toNat % 16)]
  else [c]

/-- The text as a string literal. -/
def quote (text : String) : String :=
  "\"" ++ String.ofList (text.toList.flatMap escape) ++ "\""

/-- A line break and the indentation of the next line. -/
def lineBreak (indent : Nat) : String :=
  "\n" ++ String.ofList (List.replicate (2 * indent) ' ')

mutual

/-- The laid out text of a value whose line is indented by `indent`. -/
def write (indent : Nat) : Json → String
  | null => "null"
  | bool value => if value then "true" else "false"
  | number value => toString value
  | string value => quote value
  | array [] => "[]"
  | array (item :: items) =>
      "[" ++ lineBreak (indent + 1) ++ write (indent + 1) item ++ writeItems (indent + 1) items
        ++ lineBreak indent ++ "]"
  | object [] => "\x7b\x7d"
  | object ((name, value) :: fields) =>
      "\x7b" ++ lineBreak (indent + 1) ++ quote name ++ ": " ++ write (indent + 1) value
        ++ writeFields (indent + 1) fields ++ lineBreak indent ++ "\x7d"

/-- The text of the items behind the first one. -/
def writeItems (indent : Nat) : List Json → String
  | [] => ""
  | item :: items => "," ++ lineBreak indent ++ write indent item ++ writeItems indent items

/-- The text of the fields behind the first one. -/
def writeFields (indent : Nat) : List (String × Json) → String
  | [] => ""
  | (name, value) :: fields =>
      "," ++ lineBreak indent ++ quote name ++ ": " ++ write indent value
        ++ writeFields indent fields

end

/-- The laid out text of a value. -/
def pretty (value : Json) : String :=
  value.write 0

end Json

end Ysh
