import Ysh.Token.Stream

/-!
# String Bodies

What stands between the quotes of a string literal, read one piece at a time:
runs of text, escapes, and the openers of expansions. The grammar parses an
expansion itself and then comes back for the next piece, so a piece is all that
is read here.

The five styles differ in what ends a run of text.

* Single-quoted and raw bodies are text up to the closing quote.
* Double-quoted bodies have five escapes and the expansions of `$`. A backslash
  in front of anything else is text, and so is a `$` that opens nothing. The
  first character of a run is text whatever it is: it is there because it
  started neither an escape nor an expansion, or because it follows such a `$`.
* Unicode and byte bodies have escapes alone, and every backslash must start
  one. A bad escape is kept as text after it has been complained about.

## Main definitions

* `Quoted.Piece`: One piece of a body.
* `Quoted.Form`: What the characters at the front of a body are.
* `Quoted.form`: The rule of a style.
* `Cursor.piece`: The next piece with its span.
-/

namespace Ysh

namespace Quoted

/-- What the characters at the front of a body are. -/
inductive Form where
  | text
  | escape
  /-- An escape that the style does not have. -/
  | badEscape
  /-- A `\y` without its two digits. -/
  | badByteEscape
  | expansion (opener : Opener)
  | close
deriving DecidableEq, Repr

/-- The characters that a backslash escapes between double quotes. -/
def doubleQuotedEscapes : List Char :=
  ['\\', '$', '"', 'n', '\n']

/-- The characters that a backslash escapes alone in a unicode or byte body. -/
def simpleEscapes : List Char :=
  ['\\', '\'', '"', '/', 'b', 'f', 'n', 'r', 't']

/-- The text starts with an escape of a double-quoted body. -/
def startsEscape : List Char → Bool
  | '\\' :: c :: _ => doubleQuotedEscapes.contains c
  | _ => false

/-- The length of the text in front of the closing delimiter and of the first
    place where `ends` holds. -/
def textLength (close : List Char) (ends : List Char → Bool) : List Char → Nat
  | [] => 0
  | c :: cs =>
      if close.isPrefixOf (c :: cs) || ends (c :: cs) then 0 else textLength close ends cs + 1

/-- A run of double-quoted text ends in front of a `$` and of an escape. -/
def endsDoubleQuoted (cs : List Char) : Bool :=
  cs.head? == some '$' || startsEscape cs

/-- The length of a run of double-quoted text. Its first character is text even
    if it is the backslash of an escape, as it may be behind a lone `$`. -/
def doubleQuotedLength (close : List Char) : List Char → Nat
  | [] => 0
  | c :: cs =>
      if close.isPrefixOf (c :: cs) || c == '$' then 0
      else textLength close endsDoubleQuoted cs + 1

/-- The front of a double-quoted body. -/
def doubleQuotedForm (close : List Char) (cs : List Char) : Form × Nat :=
  if startsEscape cs then (.escape, 2)
  else if cs.head? = some '$' then
    match Lexeme.dollar? cs with
    | some (opener, length) => (.expansion opener, length)
    | none => (.text, 1 + doubleQuotedLength close (cs.drop 1))
  else (.text, doubleQuotedLength close cs)

/-- An escape that is good only with all of its digits. -/
def escapeForm (good : Bool) (length : Nat) (bad : Form) : Form × Nat :=
  (if good then .escape else bad, length)

/-- The escape behind a `\u`: four digits, or up to six in braces. -/
def unicodeForm : List Char → Form × Nat
  | '{' :: cs =>
      let digits := Lexeme.hexLength 6 cs
      if 0 < digits ∧ (cs.drop digits).head? = some '}' then (.escape, 4 + digits)
      else (.badEscape, 3 + digits)
  | cs =>
      let digits := Lexeme.hexLength 4 cs
      escapeForm (digits == 4) (2 + digits) .badEscape

/-- The escape at the front of a unicode or byte body, from its backslash: one
    of the simple ones, `\x` with two digits, `\u` with four or with up to six
    in braces, and in a byte body `\y` with two. -/
def backslashForm (style : StringStyle) : List Char → Form × Nat
  | _ :: c :: cs =>
      if simpleEscapes.contains c then (.escape, 2)
      else if c = 'x' then
        let digits := Lexeme.hexLength 2 cs
        escapeForm (digits == 2) (2 + digits) .badEscape
      else if c = 'u' then unicodeForm cs
      else if c = 'y' ∧ style = .byte then
        let digits := Lexeme.hexLength 2 cs
        escapeForm (digits == 2) (2 + digits) .badByteEscape
      else (.badEscape, 2)
  -- A backslash with nothing behind it is text.
  | cs => (.text, cs.length)

/-- The text starts with a backslash. -/
def startsBackslash (cs : List Char) : Bool :=
  cs.head? == some '\\'

/-- What the characters at the front of a body are, and how many of them. The
    body is not at its end. -/
def form (style : StringStyle) (triple : Bool) (cs : List Char) : Form × Nat :=
  let close := style.delimiter triple
  if close.isPrefixOf cs then (.close, close.length)
  else
    match style with
    | .singleQuoted | .raw => (.text, textLength close (fun _ => false) cs)
    | .doubleQuoted => doubleQuotedForm close cs
    | .unicode | .byte =>
        if startsBackslash cs then backslashForm style cs
        else (.text, textLength close startsBackslash cs)

/-- One piece of a body. -/
inductive Piece where
  | text (value : String) (span : Span)
  | escape (raw : String) (span : Span)
  /-- A bad escape, kept as text, and what is wrong with it. -/
  | badEscape (error : LexicalError) (raw : String) (span : Span)
  /-- The opener of an expansion, whose rest the grammar reads. -/
  | expansion (opener : Opener) (token : Token)
  | close (span : Span)
deriving Repr

end Quoted

/-- The next piece of a string body, and the place behind it. At the end of
    input the literal whose opener is at `opening` is unterminated. -/
def Cursor.piece (style : StringStyle) (triple : Bool) (opening : Span) (c : Cursor) :
    Except LexicalError Quoted.Piece × Cursor :=
  if c.rest.isEmpty then (.error (.unterminatedString style triple opening), c)
  else
    let (form, length) := Quoted.form style triple c.rest
    let text := c.textOf length
    let span := c.spanOf length
    let piece : Quoted.Piece := match form with
      | .text => .text text span
      | .escape => .escape text span
      | .badEscape => .badEscape (.invalidEscape text span) text span
      | .badByteEscape => .badEscape (.invalidByteEscape text span) text span
      | .expansion opener =>
          .expansion opener { kind := .opener opener, text, span, immediate := true }
      | .close => .close span
    (.ok piece, c.advance length)

end Ysh
