import Ysh.Token.Stream

/-!
# The Reader of the Grammar

What the productions of the grammar are written in. A reader has a place in the
source and a list of diagnostics, which it changes, and a context, which it only
passes on: how deep it is, whether it is inside brackets, which closing tokens
the statement lists around it wait for, and which definition it is in. Because
the context is handed down and never written, whatever a production does to it
ends with the production, however that ends.

There are two kinds of reader. A `Scan` always has a result; a `Parse` may fail
with a syntax error. Failing does not undo anything, so the place where a reader
failed is where recovery starts.

Looking at the next token reads nothing. Errors in the text in front of a token
are reported when the token is consumed, and so once only.

## Main definitions

* `Limits`: The bounds under which a source is parsed.
* `Context`, `State`, `Scan`, `Parse`: The two kinds of reader.
* `Scan.peek`, `Scan.advance`: The next token, seen and consumed.
* `Scan.report`: Adds a diagnostic while there is room for one.
* `Scan.ahead`: Reads and then forgets having read.
* `Parse.expect`, `Parse.expectClosing`: A token that has to come next.
* `Parse.nested`, `Parse.bracketed`: Reads one level deeper, if there is one.
* `loop`, `collect`: Rounds that each read something.
-/

namespace Ysh

/-- The bounds under which a source is parsed. -/
structure Limits where
  /-- The bytes that a source may have: ten mebibytes. -/
  inputSize : Nat := 10485760
  /-- How deep constructs may be nested. -/
  depth : Nat := 64
  /-- How many diagnostics are kept. Further ones are dropped. -/
  diagnostics : Nat := 1000
deriving DecidableEq, Repr, Inhabited

/-- The two kinds of definition. -/
inductive Definition where
  | func | proc
deriving DecidableEq, Repr, Inhabited

/-- What a reader passes on to the readers it calls. -/
structure Context where
  limits : Limits
  /-- The levels of nesting around the reader. -/
  depth : Nat := 0
  /-- An expression bracket is open, so newlines mean nothing. -/
  inBrackets : Bool := false
  /-- The closing tokens that the statement lists around the reader wait for. -/
  closers : List Token.Kind := []
  /-- The definition whose body the reader is in. -/
  definition : Option Definition := none
deriving Repr

/-- What a reader changes. -/
structure State where
  /-- The place behind the last token that was consumed. -/
  cursor : Cursor
  diagnostics : List Diagnostic
deriving Repr

/-- A reader that always has a result. -/
abbrev Scan := ReaderT Context (StateM State)

/-- A reader that may fail with a syntax error. -/
abbrev Parse := ExceptT SyntaxError Scan

namespace Scan

/-- The next token in a mode, with the errors in front of it. Newlines are passed
    over in the expressions inside brackets. -/
def lookahead (mode : Mode) : Scan Cursor.Lookahead := do
  let context ← read
  return (← get).cursor.lookahead mode (mode == .expression && context.inBrackets)

/-- The next token in a mode. -/
def peek (mode : Mode) : Scan Token := do
  return (← lookahead mode).token

/-- The kind of the next token in a mode. -/
def peekKind (mode : Mode) : Scan Token.Kind := do
  return (← peek mode).kind

/-- The next token is a command word with exactly this text. -/
def peekWord (text : String) : Scan Bool := do
  return (← peek .command).isWord text

/-- Adds a diagnostic, unless there are as many as the limit allows. -/
def report (d : Diagnostic) : Scan Unit := do
  let limit := (← read).limits.diagnostics
  modify fun s =>
    if s.diagnostics.length < limit then { s with diagnostics := s.diagnostics ++ [d] } else s

/-- Consumes the next token in a mode, and reports the errors in front of it. -/
def advance (mode : Mode) : Scan Token := do
  let next ← lookahead mode
  next.errors.forM fun error => report (.lexical error)
  modify fun s => { s with cursor := next.after }
  return next.token

/-- The offset behind the last token that was consumed. -/
def position : Scan Nat := do
  return (← get).cursor.offset

/-- Reads at the very place behind the last token, without tokens. -/
def raw {α : Type} (read : Cursor → α × Cursor) : Scan α := do
  let s ← get
  let (result, cursor) := read s.cursor
  set { s with cursor }
  return result

/-- Reads, and then forgets having read: the result is all that remains. -/
def ahead {α : Type} (scan : Scan α) : Scan α := do
  let s ← get
  let result ← scan
  set s
  return result

/-- Reads with newlines meaning what they mean to statements. -/
def unbracketed {α : Type} (scan : Scan α) : Scan α :=
  withReader (fun context => { context with inBrackets := false }) scan

end Scan

export Scan (peek peekKind peekWord report advance position raw ahead unbracketed)

namespace Parse

/-- Fails because the next token is not what was expected. -/
def unexpected {α : Type} (mode : Mode) (expected : Expectation) : Parse α := do
  throw (.unexpectedToken (← peek mode) expected)

/-- Consumes a token of a kind, which messages describe as `expected`. -/
def expectAs (mode : Mode) (kind : Token.Kind) (expected : Expectation) : Parse Token := do
  if (← peekKind mode) = kind then advance mode
  else unexpected mode expected

/-- Consumes a token of a kind. -/
def expect (mode : Mode) (kind : Token.Kind) : Parse Token :=
  expectAs mode kind (.token kind)

/-- What is wrong when the input ends in front of a closing token: the construct
    that `opening` opened is unclosed. -/
def unclosed (closer : Token.Kind) (opening : Span) : SyntaxError :=
  match closer with
  | .rightBrace => .unclosedBlock opening
  | .rightBracket => .unclosedBracket opening
  | _ => .unclosedParenthesis opening

/-- Consumes the token that closes what `opening` opened. -/
def expectClosing (mode : Mode) (closer : Token.Kind) (opening : Span) : Parse Token := do
  let token ← peek mode
  if token.kind = closer then advance mode
  else if token.kind = .endOfInput then throw (unclosed closer opening)
  else throw (.unexpectedToken token (.token closer))

/-- Reads one level deeper, and fails if there is no level left. -/
def nested {α : Type} (parse : Parse α) : Parse α := do
  let context ← read
  if context.limits.depth ≤ context.depth then
    throw (.nestingTooDeep context.limits.depth (.emptyAt (← position)))
  else withReader (fun context => { context with depth := context.depth + 1 }) parse

/-- Reads one level deeper, inside an expression bracket. -/
def bracketed {α : Type} (parse : Parse α) : Parse α :=
  nested (withReader (fun context => { context with inBrackets := true }) parse)

/-- The result of a reader or its error, so that the caller can go on. -/
def attempt {α : Type} (parse : Parse α) : Scan (Except SyntaxError α) :=
  parse.run

end Parse

export Parse (unexpected expectAs expect expectClosing nested bracketed attempt)

/-! ## Rounds -/

/-- How a round of a loop ends, and what it hands on. -/
inductive Round (σ : Type) where
  | stop (s : σ)
  | again (s : σ)

variable {m : Type → Type} [Monad m] {σ : Type}

/-- Rounds until one of them stops, at most one more than the clock has
    characters. -/
def rounds (step : σ → m (Round σ)) : (clock : List Char) → σ → m σ
  | [], s => do
      match ← step s with
      | .stop s | .again s => return s
  | _ :: clock, s => do
      match ← step s with
      | .stop s => return s
      | .again s => rounds step clock s

/-- Rounds until one of them stops. Every round that does not stop must consume
    a character, so the characters that remain are clock enough. -/
def loop [MonadStateOf State m] (step : σ → m (Round σ)) (start : σ) : m σ := do
  rounds step (← getThe State).cursor.rest start

/-- The next item of a list, added to the items in front of it. -/
def collectRound {α : Type} (item : m (Option α)) (items : Array α) : m (Round (Array α)) := do
  match ← item with
  | some a => return .again (items.push a)
  | none => return .stop items

/-- The items that a reader gives one after the other, until it gives none. -/
def collect {α : Type} [MonadStateOf State m] (item : m (Option α)) : m (List α) := do
  return (← loop (collectRound item) #[]).toList

/-- Consumes the next token, if its kind is in a class. -/
def Scan.skipRound (mode : Mode) (skips : Token.Kind → Bool) (_ : Unit) :
    Scan (Round Unit) := do
  if skips (← peekKind mode) then
    let _ ← advance mode
    return .again ()
  else return .stop ()

/-- Consumes tokens while their kind is in a class. -/
def Scan.skipWhile (mode : Mode) (skips : Token.Kind → Bool) : Scan Unit :=
  loop (skipRound mode skips) ()

/-- Consumes newlines. -/
def Scan.skipNewlines : Scan Unit :=
  skipWhile .command (· == .newline)

/-- Consumes newlines and semicolons. -/
def Scan.skipSeparators : Scan Unit :=
  skipWhile .command fun kind => kind == .newline || kind == .semicolon

/-- The next item of a list with commas, unless the list ends here. -/
def Parse.commaRound {α : Type} (ends : Token.Kind → Bool) (item : Parse α) (items : Array α) :
    Parse (Round (Array α)) := do
  if ends (← peekKind .expression) then return .stop items
  let items := items.push (← item)
  if (← peekKind .expression) = .comma then
    let _ ← advance .expression
    return .again items
  else return .stop items

/-- Items with commas between them, up to a token at which they end. A comma may
    follow the last one. -/
def Parse.commaSeparated {α : Type} (ends : Token.Kind → Bool) (item : Parse α) :
    Parse (List α) := do
  return (← loop (commaRound ends item) #[]).toList

export Scan (skipNewlines skipSeparators)

export Parse (commaRound commaSeparated)

end Ysh
