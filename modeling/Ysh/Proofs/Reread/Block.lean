import Ysh.Proofs.Reread.Source

/-!
# Reading Printed Blocks

Statements stand on lines of their own in a program and in a block, and behind
semicolons in a substitution. What stands behind a statement is therefore a line break
with the next statement or a brace behind it, a semicolon with a blank, or a
parenthesis. The line behind a line break counts: an `if` looks past line breaks for
another branch of its own, and no statement starts with the keyword of one.

## Main definitions

* `BeginsStatement`, `EndsStatement`: What stands in front of and behind a statement.
* `RereadsStatement`: A statement is read again.
* `ClosesList`: What goes between the statements of a list, and what behind them.
* `RereadsBlock`: A block is read again, whatever stands behind it.
* `Grammar.KeepsStatements`: The statements that a grammar reads are read again.

## Theorems

* `attains_statementList`: Statements in a row.
* `rereads_block`, `rereads_substitution`: Statements in brackets.
* `Grammar.keeps_statementList`, `Grammar.keepsExpansions_body`: One turn keeps statements
  and expansions if the last one did.
-/

namespace Ysh

open Grammar

variable {d : Option Definition} {n : Nat} {ctx : Context} {s : State}

/-! ## What stands behind a statement -/

/-- A piece of a word stands in front, which is no keyword of a further branch. -/
def BeginsStatement (whole : List Char) : Prop :=
  ∃ x kind r, whole = x ++ r ∧ Lexed .command x kind r ∧ kind.isWordPiece = true ∧
    (kind = .word → x ≠ "elif".toList ∧ x ≠ "else".toList)

theorem BeginsStatement.startsPiece {whole : List Char} (h : BeginsStatement whole) :
    StartsPiece whole := by
  rcases h with ⟨x, kind, r, htext, hlexed, hpiece, -⟩
  exact ⟨x, kind, r, htext, hlexed, hpiece⟩

/-- Behind the text a statement ends. -/
def EndsStatement (rest : List Char) : Prop :=
  (∃ k whole, rest = '\n' :: (blanks k ++ whole) ∧
    (whole = [] ∨ (∃ r, whole = '}' :: r) ∨ BeginsStatement whole)) ∨
    (∃ r, rest = ';' :: ' ' :: r) ∨ ∃ r, rest = ')' :: r

/-- A statement is read again. -/
structure RereadsStatement (d : Option Definition) (e : Statement) : Prop where
  begins : ∀ indent rest, EndsStatement rest → BeginsStatement (e.chars indent "" ++ rest)
  reads : ∀ n ctx s indent rest, Room d n { ctx with depth := ctx.depth + 1 } s →
    ctx.inBrackets = false → EndsStatement rest → s.Shows (e.chars indent "") rest →
      Attains (turns n).statement ctx s fun a t => a.erase = e.erase ∧ t.cursor.rest = rest

theorem RereadsStatement.nonempty {e : Statement} (h : RereadsStatement d e) (indent : Nat) :
    0 < (e.chars indent "").length := by
  refine List.length_pos_iff.2 fun hnil => ?_
  have hbegins := (h.begins indent [')'] (.inr (.inr ⟨[], rfl⟩))).startsPiece
  rw [hnil] at hbegins
  exact hbegins.head?_ne (by decide : ')' ∈ nonWordStarts) rfl

theorem ahead_newline (rest : List Char) : Ahead .command ('\n' :: rest) ['\n'] .newline rest :=
  ⟨0, rfl, rfl, rfl⟩

theorem ahead_semicolon (rest : List Char) :
    Ahead .command (';' :: ' ' :: rest) [';'] .semicolon (' ' :: rest) :=
  ⟨0, rfl, rfl, rfl⟩

theorem ahead_rightParen (rest : List Char) : Ahead .command (')' :: rest) [')'] .rightParen rest :=
  ⟨0, rfl, rfl, rfl⟩

theorem ahead_rightBrace (rest : List Char) : Ahead .command ('}' :: rest) ['}'] .rightBrace rest :=
  ⟨0, rfl, rfl, rfl⟩

theorem ahead_endOfInput : Ahead .command [] [] .endOfInput [] :=
  ⟨0, rfl, rfl, rfl⟩

theorem BeginsStatement.ahead {whole : List Char} (h : BeginsStatement whole) :
    ∃ x kind r, Ahead .command whole x kind r ∧ kind.isWordPiece = true := by
  rcases h with ⟨x, kind, r, rfl, hlexed, hpiece, -⟩
  exact ⟨x, kind, r, hlexed.ahead, hpiece⟩

/-! ## Statements with their ends -/

/-- A token that stands at a state is the next one of a command. -/
theorem Ahead.stands {whole x r : List Char} {kind : Token.Kind} (h : Ahead .command whole x kind r)
    (hs : s.cursor.rest = whole) : Stands .command ctx s x kind r :=
  ⟨hs ▸ h, nofun⟩

/-- A line break at most is passed over in front of a token that is not. -/
theorem attains_skipWhile {skips : Token.Kind → Bool} {whole x r : List Char} {kind : Token.Kind}
    (hskips : skips .newline = true) (hwhole : Ahead .command whole x kind r)
    (hkind : skips kind = false) (hs : s.cursor.rest = whole ∨ s.cursor.rest = '\n' :: whole) :
    Attains (Scan.skipWhile .command skips) ctx s fun _ t => t.cursor.rest = whole := by
  have hstop : ∀ {t : State}, t.cursor.rest = whole →
      Attains (Scan.skipRound .command skips ()) ctx t fun r u => ∃ c, r = .stop c ∧
        u.cursor.rest = whole := by
    intro t ht
    refine attains_look (hwhole.stands ht).peekKind ?_
    rw [if_neg (Bool.eq_false_iff.1 hkind)]
    exact attains_pure ⟨(), rfl, ht⟩
  rcases hs with hs | hs
  · exact (Runs.refl () s).attains_loop (hstop hs)
  · have hline : Stands .command ctx s ['\n'] .newline whole := (ahead_newline whole).stands hs
    have hround : Attains (Scan.skipRound .command skips ()) ctx s fun r t =>
        r = .again () ∧ t.cursor.rest = whole := by
      refine attains_look hline.peekKind ?_
      rw [if_pos hskips]
      exact attains_seq hline.advance fun token t ht => attains_pure ⟨rfl, ht.2.1⟩
    rcases hround with ⟨_, t, hround, hquiet, rfl, ht⟩
    refine (Runs.head hround hquiet ?_ (.refl _ t)).attains_loop (hstop ht)
    rw [ht, hs]
    exact Nat.lt_succ_self _

/-- Where a statement has ended with its terminator. -/
def Terminates (rest : List Char) (t : State) : Prop :=
  (∃ c, rest = c :: t.cursor.rest ∧ c ≠ ')') ∨ ((∃ r, rest = ')' :: r) ∧ t.cursor.rest = rest)

/-- A statement is read again with its terminator. -/
theorem RereadsStatement.terminated {e : Statement} (h : RereadsStatement d e) {indent : Nat}
    {rest : List Char} (hroom : Room d n { ctx with depth := ctx.depth + 1 } s)
    (hout : ctx.inBrackets = false) (hrest : EndsStatement rest)
    (hs : s.Shows (e.chars indent "") rest) :
    Attains (turns n).terminatedStatement ctx s fun a t =>
      a.erase = e.erase ∧ Terminates rest t := by
  refine attains_seq (h.reads n ctx s indent rest hroom hout hrest hs) fun a t ha => ?_
  refine attains_look (a := t.next .command ctx) rfl ?_
  have hconsume : ∀ {x r kind} (c : Char), rest = c :: r → c ≠ ')' → kind.isTerminator = true →
      Stands .command ctx t x kind r →
        Attains (if (t.next .command ctx).kind.isTerminator = true then do
            let _ ← advance .command
            return a
          else if [.rightBrace, .rightParen, .endOfInput].contains (t.next .command ctx).kind
            then return a
          else throw (.missingTerminator (t.next .command ctx)) : Parse Statement) ctx t
          fun a t => a.erase = e.erase ∧ Terminates rest t := by
    intro x r kind c hc hne hkind hstands
    rw [hstands.next.1, if_pos hkind]
    exact attains_seq hstands.advance fun token u hu =>
      attains_pure ⟨ha.1, .inl ⟨c, by rw [hu.2.1, hc], hne⟩⟩
  rcases hrest with ⟨k, whole, rfl, -⟩ | ⟨r, rfl⟩ | ⟨r, rfl⟩
  · exact hconsume _ rfl (by decide) rfl ((ahead_newline _).stands ha.2)
  · exact hconsume _ rfl (by decide) rfl ((ahead_semicolon r).stands ha.2)
  · have hparen : Stands .command ctx t [')'] .rightParen r := (ahead_rightParen r).stands ha.2
    rw [hparen.next.1]
    exact attains_pure ⟨ha.1, .inr ⟨⟨r, rfl⟩, ha.2⟩⟩

/-! ## Lists of statements -/

/-- What goes between the statements of a list, what stands behind the last one, the
    token that the list waits for, and the text from that token on. -/
inductive ClosesList : (between closing : List Char) → Option Token.Kind → List Char → Prop
  | program : ClosesList ['\n'] ['\n'] none []
  | block (k k' : Nat) (r : List Char) : ClosesList ('\n' :: blanks k)
      ('\n' :: (blanks k' ++ '}' :: r)) (some .rightBrace) ('}' :: r)
  | substitution (r : List Char) : ClosesList [';', ' '] (')' :: r) (some .rightParen) (')' :: r)

/-- The text of a list from a statement on, or where there is none the text that closes
    the list. -/
def listed (between closing close : List Char) (indent : Nat) : List Statement → List Char
  | [] => close
  | stmts => List.intercalate between (stmts.map (·.chars indent "")) ++ closing

/-- The text behind a statement of a list. -/
def behind (between closing close : List Char) (indent : Nat) : List Statement → List Char
  | [] => closing
  | stmts => between ++ listed between closing close indent stmts

theorem listed_cons (between closing close : List Char) (indent : Nat) (e : Statement)
    (stmts : List Statement) : listed between closing close indent (e :: stmts)
      = e.chars indent "" ++ behind between closing close indent stmts := by
  cases stmts with
  | nil => simp [listed, behind]
  | cons b stmts => simp [listed, behind, List.intercalate_cons_cons]

section

variable {between closing close : List Char} {closer : Option Token.Kind} {indent : Nat}
  (hlist : ClosesList between closing closer close)
include hlist

theorem ClosesList.ahead : ∃ x kind r, Ahead .command close x kind r ∧
    (kind = .endOfInput ∨ some kind = closer) ∧ kind ≠ .newline ∧ kind ≠ .semicolon := by
  cases hlist with
  | program => exact ⟨_, _, _, ahead_endOfInput, .inl rfl, by decide, by decide⟩
  | block k k' r => exact ⟨_, _, _, ahead_rightBrace r, .inr rfl, by decide, by decide⟩
  | substitution r => exact ⟨_, _, _, ahead_rightParen r, .inr rfl, by decide, by decide⟩

/-- Behind a statement of a list there is a separator, or else the list is closed. -/
theorem ClosesList.behind_eq (indent : Nat) (stmts : List Statement) :
    (∃ k, behind between closing close indent stmts
      = '\n' :: (blanks k ++ listed between closing close indent stmts)) ∨
    behind between closing close indent stmts
      = ';' :: ' ' :: listed between closing close indent stmts ∨
    ((∃ r, close = ')' :: r) ∧ stmts = [] ∧ closing = close) := by
  cases hlist with
  | program =>
      cases stmts with
      | nil => exact .inl ⟨0, rfl⟩
      | cons e stmts => exact .inl ⟨0, rfl⟩
  | block k k' r =>
      cases stmts with
      | nil => exact .inl ⟨k', rfl⟩
      | cons e stmts => exact .inl ⟨k, rfl⟩
  | substitution r =>
      cases stmts with
      | nil => exact .inr (.inr ⟨⟨r, rfl⟩, rfl, rfl⟩)
      | cons e stmts => exact .inr (.inl rfl)

/-- What stands behind a statement of a list ends it. -/
theorem ClosesList.endsStatement {stmts : List Statement}
    (hstmts : ∀ e ∈ stmts, RereadsStatement d e) :
    EndsStatement (behind between closing close indent stmts) := by
  induction stmts with
  | nil =>
      cases hlist with
      | program => exact .inl ⟨0, [], rfl, .inl rfl⟩
      | block k k' r => exact .inl ⟨k', _, rfl, .inr (.inl ⟨r, rfl⟩)⟩
      | substitution r => exact .inr (.inr ⟨r, rfl⟩)
  | cons e stmts ih =>
      have hbegins : BeginsStatement (listed between closing close indent (e :: stmts)) := by
        rw [listed_cons]
        exact (hstmts e List.mem_cons_self).begins indent _
          (ih fun e' he' => hstmts e' (List.mem_cons_of_mem _ he'))
      rcases hlist.behind_eq indent (e :: stmts) with ⟨k, heq⟩ | heq | ⟨-, heq, -⟩
      · exact .inl ⟨k, _, heq, .inr (.inr hbegins)⟩
      · exact .inr (.inl ⟨_, heq⟩)
      · cases heq

end

/-- Where the statements of a list go on, behind a line break at most and blanks. -/
def Resuming (between closing close : List Char) (indent : Nat) (todo : List Statement)
    (t : State) : Prop :=
  ∃ k, t.cursor.rest = blanks k ++ listed between closing close indent todo ∨
    t.cursor.rest = '\n' :: (blanks k ++ listed between closing close indent todo)

section

variable {between closing close : List Char} {closer : Option Token.Kind} {indent : Nat}
  (hlist : ClosesList between closing closer close)
include hlist

/-- Behind a statement and its terminator the list goes on. -/
theorem ClosesList.resuming {todo : List Statement} {t : State}
    (ht : Terminates (behind between closing close indent todo) t) :
    Resuming between closing close indent todo t ∧
      t.cursor.rest.length ≤ (behind between closing close indent todo).length := by
  rcases ht with ⟨c, htext, hc⟩ | ⟨⟨r, htext⟩, ht⟩
  · refine ⟨?_, by rw [htext]; exact Nat.le_succ _⟩
    rcases hlist.behind_eq indent todo with ⟨k, heq⟩ | heq | ⟨⟨r, rfl⟩, rfl, rfl⟩
    · rw [htext] at heq
      exact ⟨k, .inl (List.cons.inj heq).2⟩
    · rw [htext] at heq
      exact ⟨1, .inl (List.cons.inj heq).2⟩
    · exact absurd (List.cons.inj htext).1.symm hc
  · refine ⟨?_, Nat.le_of_eq (congrArg _ ht)⟩
    rcases hlist.behind_eq indent todo with ⟨k, heq⟩ | heq | ⟨-, rfl, rfl⟩
    · rw [htext] at heq
      cases heq
    · rw [htext] at heq
      cases heq
    · exact ⟨0, .inl ht⟩

/-- One statement of a list is read again, with the separator behind it. -/
theorem attains_listedStatement {e : Statement} {todo : List Statement}
    (hstmts : ∀ b ∈ e :: todo, RereadsStatement d b)
    (hroom : Room d n { ctx with depth := ctx.depth + 1 } s) (hout : ctx.inBrackets = false)
    (hs : Resuming between closing close indent (e :: todo) s) :
    Attains ((turns n).listedStatement closer) ctx s fun r t =>
      (∃ a, r = some a ∧ a.erase = e.erase) ∧ Resuming between closing close indent todo t ∧
        t.cursor.rest.length < s.cursor.rest.length := by
  have he := hstmts e List.mem_cons_self
  have hends : EndsStatement (behind between closing close indent todo) :=
    hlist.endsStatement fun b hb => hstmts b (List.mem_cons_of_mem _ hb)
  rcases hs with ⟨k, hs⟩
  rw [listed_cons] at hs
  rcases (he.begins indent _ hends).ahead with ⟨x, kind, r, hahead, hpiece⟩
  have hahead := hahead.blanks k
  have hne : ∀ {other : Token.Kind}, other.isWordPiece = false → kind ≠ other := by
    rintro other hother rfl
    rw [hpiece] at hother
    cases hother
  have hskips : (kind == .newline || kind == .semicolon) = false := by
    rw [Bool.or_eq_false_iff, beq_eq_false_iff_ne, beq_eq_false_iff_ne]
    exact ⟨hne rfl, hne rfl⟩
  have hopen : ¬ (kind = .endOfInput ∨ some kind = closer) := by
    rintro (hkind | hkind)
    · exact hne rfl hkind
    · cases hlist with
      | program => cases hkind
      | block => exact hne rfl (Option.some.inj hkind)
      | substitution => exact hne rfl (Option.some.inj hkind)
  have hstray : ¬ (kind = .rightBrace ∨ kind = .rightParen) := by
    rintro (hkind | hkind) <;> exact hne rfl hkind
  refine attains_seq (attains_skipWhile rfl hahead hskips hs) fun _ t ht => ?_
  have hle : t.cursor.rest.length ≤ s.cursor.rest.length := by
    rw [ht]
    rcases hs with hs | hs
    · exact Nat.le_of_eq (congrArg List.length hs.symm)
    · exact Nat.le_trans (Nat.le_succ _) (Nat.le_of_eq (congrArg List.length hs.symm))
  refine attains_look (hahead.stands ht).peekKind ?_
  rw [if_neg hopen, if_neg hstray]
  have hread : Attains (turns n).statementOrError ctx t fun a u =>
      a.erase = e.erase ∧ Terminates (behind between closing close indent todo) u := by
    refine attains_look (a := t.next .command ctx) rfl ?_
    refine attains_seq (attains_attempt (he.terminated (hroom.shorter hle) hout hends ⟨k, ht⟩)) ?_
    rintro _ u ⟨a, rfl, ha⟩
    exact attains_pure ha
  refine attains_seq hread fun a u ha => ?_
  have hresuming := hlist.resuming ha.2
  refine attains_pure ⟨⟨a, rfl, ha.1⟩, hresuming.1, Nat.lt_of_lt_of_le ?_ hle⟩
  have hpos := he.nonempty indent
  have hless := hresuming.2
  rw [ht]
  simp only [List.length_append]
  omega

/-- The statements of a list are read again, up to the token that closes the list. -/
theorem attains_statementList {stmts : List Statement}
    (hstmts : ∀ e ∈ stmts, RereadsStatement d e)
    (hroom : Room d n { ctx with depth := ctx.depth + 1 } s) (hout : ctx.inBrackets = false)
    (hs : Resuming between closing close indent stmts s) :
    Attains ((turns n).statementList closer) ctx s fun as t =>
      as.map Tree.erase = stmts.map Tree.erase ∧ t.Shows [] close := by
  have hlist' : Attains (collect ((turns n).listedStatement closer))
      { ctx with closers := closer.toList ++ ctx.closers } s fun as t =>
        as.map Tree.erase = stmts.map Tree.erase ∧ t.Shows [] close := by
    refine attains_collect Tree.erase (Resuming between closing close indent) hs ?_ ?_
    · intro e todo t hsuffix ht hle
      refine attains_listedStatement hlist (fun b hb => hstmts b (hsuffix.subset hb)) ?_ hout ht
      exact ⟨(hroom.shorter hle).turns, (hroom.shorter hle).levels, hroom.definition⟩
    · rintro t ⟨k, ht⟩ -
      rcases hlist.ahead with ⟨x, kind, r, hahead, hends, hline, hsemicolon⟩
      have hahead := hahead.blanks k
      have hskips : (kind == .newline || kind == .semicolon) = false := by
        rw [Bool.or_eq_false_iff, beq_eq_false_iff_ne, beq_eq_false_iff_ne]
        exact ⟨hline, hsemicolon⟩
      refine attains_seq (attains_skipWhile rfl hahead hskips ht) fun _ u hu => ?_
      refine attains_look (hahead.stands hu).peekKind ?_
      rw [if_pos hends]
      exact attains_pure ⟨rfl, fun as has => ⟨has, ⟨k, hu⟩⟩⟩
  exact hlist'

/-- Statements are read again by the grammar, one turn and one level below. -/
theorem attains_statements {stmts : List Statement}
    (hstmts : ∀ e ∈ stmts, RereadsStatement d e) (hroom : RoomBelow d n ctx s)
    (hout : ctx.inBrackets = false) (hs : Resuming between closing close indent stmts s) :
    Attains ((turns n).statements closer) ctx s fun as t =>
      as.map Tree.erase = stmts.map Tree.erase ∧ t.Shows [] close := by
  rcases hroom with ⟨n, rfl, hroom⟩
  exact attains_statementList hlist hstmts hroom hout hs

end

/-- Statements in brackets are read again behind the opening one. -/
theorem attains_body {between closing close : List Char} {closer : Token.Kind} {indent : Nat}
    {stmts : List Statement} (hlist : ClosesList between closing (some closer) close)
    (hstmts : ∀ e ∈ stmts, RereadsStatement d e)
    (hroom : ctx.depth < ctx.limits.depth ∧
      RoomBelow d n { ctx with depth := ctx.depth + 1, inBrackets := false } s)
    (hs : Resuming between closing close indent stmts s) :
    Attains ((turns n).body closer) ctx s fun as t =>
      as.map Tree.erase = stmts.map Tree.erase ∧ t.Shows [] close :=
  attains_nested hroom.1 (attains_statements hlist hstmts hroom.2 rfl hs)

/-! ## Statements in brackets -/

/-- A block is read again, whatever stands behind it. -/
def RereadsBlock (d : Option Definition) (b : Block) : Prop :=
  Rereads d (·.block) (b.chars · "") (fun _ _ => True) (·.erase = b.erase)

theorem Tree.toList_lineBreak (indent : Nat) :
    (lineBreak indent).toList = '\n' :: blanks (2 * indent) := by
  unfold lineBreak
  simp

/-- A block starts with its brace. -/
theorem Tree.chars_block_head (b : Block) (indent : Nat) :
    ∃ inner, b.chars indent "" = '{' :: inner := by
  cases b with
  | block statements span =>
      refine ⟨(preceded (lineBreak (indent + 1)) statements.isEmpty
        (statements.write (indent + 1) (lineBreak (indent + 1))) ++ lineBreak indent
          ++ "\x7d").toList, ?_⟩
      change ("\x7b" ++ preceded (lineBreak (indent + 1)) statements.isEmpty
        (statements.write (indent + 1) (lineBreak (indent + 1))) ++ lineBreak indent
          ++ "\x7d").toList = _
      simp only [String.toList_append]
      rfl

/-- A block of statements is printed with each statement on a line of its own. -/
theorem Tree.chars_block {e : Statement} {stmts : List Statement} {span : Span} (indent : Nat)
    (rest : List Char) :
    (block (ofList (e :: stmts)) span).chars indent "" ++ rest
      = '{' :: '\n' :: (blanks (2 * (indent + 1)) ++ listed ('\n' :: blanks (2 * (indent + 1)))
          ('\n' :: (blanks (2 * indent) ++ '}' :: rest)) ('}' :: rest) (indent + 1)
            (e :: stmts)) := by
  have hlist : ((ofList (e :: stmts)).write (indent + 1) (lineBreak (indent + 1))).toList
      = List.intercalate (lineBreak (indent + 1)).toList
        ((e :: stmts).map (·.chars (indent + 1) "")) :=
    chars_ofList (by simp) (by simp) (e :: stmts) (indent + 1) (lineBreak (indent + 1))
  change ("\x7b" ++ (lineBreak (indent + 1) ++ (ofList (e :: stmts)).write (indent + 1)
    (lineBreak (indent + 1))) ++ lineBreak indent ++ "\x7d").toList ++ rest = _
  rw [toList_lineBreak] at hlist
  rw [String.toList_append, String.toList_append, String.toList_append, String.toList_append,
    toList_lineBreak, toList_lineBreak, hlist]
  simp [listed]

/-- The closing brace of a block is read again. -/
theorem attains_closingBraceStop {opening : Span} {rest : List Char}
    (hs : s.Shows [] ('}' :: rest)) :
    Attains (closingBraceStop opening) ctx s fun _ t => t.cursor.rest = rest := by
  rcases hs with ⟨k, hs⟩
  have hbrace : Stands .command ctx s ['}'] .rightBrace rest :=
    ((ahead_rightBrace rest).blanks k).stands hs
  refine attains_seq (attains_attempt (hbrace.expectClosing opening)) ?_
  rintro _ t ⟨token, rfl, ht⟩
  exact attains_pure ht.2

/-- Statements between braces are read again. -/
theorem rereads_block {stmts : List Statement} {span : Span} (hne : stmts ≠ [])
    (hstmts : ∀ e ∈ stmts, RereadsStatement d e) :
    RereadsBlock d (.block (.ofList stmts) span) := by
  intro n ctx s indent rest hroom _ hs
  rcases List.exists_cons_of_ne_nil hne with ⟨e, es, rfl⟩
  rcases hs with ⟨k, hs⟩
  rw [Tree.chars_block] at hs
  have hopen : Stands .command ctx s ['{'] .leftBrace _ :=
    State.Shows.stands (x := ['{']) ⟨k, hs⟩ ⟨rfl, rfl⟩ (.inr (.inl rfl))
  refine attains_seq (hopen.expectAs _) fun token t ht => ?_
  have hlt : t.cursor.rest.length < s.cursor.rest.length := by
    rw [ht.2, hs]
    simp only [List.length_append, List.length_cons]
    omega
  refine attains_seq (attains_body (.block _ _ rest) hstmts ((hroom.below hlt).2 false)
    ⟨_, .inr ht.2⟩) fun as u has => ?_
  refine attains_seq (attains_lift (attains_closingBraceStop has.2)) fun stop v hv => ?_
  have hsome : as.isEmpty = false := by
    cases as with
    | nil => cases has.1
    | cons => rfl
  dsimp only
  rw [hsome, if_neg Bool.false_ne_true]
  refine attains_pure ⟨?_, hv⟩
  rw [Tree.erase, Tree.erase, Tree.erase_ofList, Tree.erase_ofList, has.1]

/-- A substitution is read again. -/
theorem rereads_substitution {sigil : Sigil} {stmts : List Statement} {after : List Char}
    {span : Span} (hstmts : ∀ e ∈ stmts, RereadsStatement d e) :
    RereadsExpansion d (.paren sigil) [sigil.char, '('] after
      (.substitution sigil (.ofList stmts) span) := by
  refine ⟨fun indent => List.intercalate [';', ' '] (stmts.map (·.chars indent "")) ++ [')'],
    fun indent => ?_, fun indent rest hrest => ⟨opens_paren sigil _,
      fun n ctx s token hroom htoken hs => ?_⟩⟩
  · have hlist : ((Tree.ofList stmts).write indent "; ").toList
        = List.intercalate "; ".toList (stmts.map (·.chars indent "")) :=
      Tree.chars_ofList (by simp) (by simp) stmts indent "; "
    change (sigil.char.toString ++ "(" ++ (Tree.ofList stmts).write indent "; " ++ ")").toList = _
    rw [String.toList_append, String.toList_append, String.toList_append, hlist]
    simp [Char.toString]
  · rcases hroom.inner (by simp) with ⟨n, rfl, -, hbelow⟩
    have hresuming : Resuming [';', ' '] (')' :: rest) (')' :: rest) indent stmts s := by
      refine ⟨0, .inl ?_⟩
      rw [hs, List.append_assoc]
      cases stmts <;> rfl
    refine attains_seq (attains_body (.substitution rest) hstmts (hbelow false) hresuming)
      fun as t has => ?_
    have hclose : Stands .command ctx t [')'] .rightParen rest :=
      State.Shows.stands (x := [')']) has.2 ⟨rfl, rfl⟩ (.inr (.inl rfl))
    refine attains_seq (hclose.expectClosing _) fun _ u hu => ?_
    refine attains_look (a := u.cursor.offset) rfl (attains_pure ⟨?_, hu.2⟩)
    rw [Tree.erase, Tree.erase, Tree.erase_ofList, Tree.erase_ofList, has.1]

/-! ## Statements of a source -/

/-- The statements that the grammar reads are read again. -/
def Grammar.KeepsStatements (D : List Diagnostic) (g : Grammar) : Prop :=
  ∀ (closer : Option Token.Kind) {ctx : Context} {s : State}, Quiet ctx.limits D →
    ctx.inBrackets = false → Ensures D (g.statements closer) ctx s fun es _ =>
      ∀ e ∈ es, RereadsStatement ctx.definition e

namespace Grammar

section

variable {D : List Diagnostic} {g : Grammar} [g.Stepwise]

/-- A list keeps the statements that it reads one by one. -/
theorem keeps_statementList (hread : ∀ {ctx : Context} {s : State}, Quiet ctx.limits D →
    ctx.inBrackets = false → Ensures D g.statement ctx s fun e _ =>
      RereadsStatement ctx.definition e) (closer : Option Token.Kind)
    (hq : Quiet ctx.limits D) (hout : ctx.inBrackets = false) :
    Ensures D (g.statementList closer) ctx s fun es _ =>
      ∀ e ∈ es, RereadsStatement ctx.definition e := by
  have hlist : Ensures D (collect (g.listedStatement closer))
      { ctx with closers := closer.toList ++ ctx.closers } s fun es _ =>
        ∀ e ∈ es, RereadsStatement ctx.definition e := by
    generalize hinner : { ctx with closers := closer.toList ++ ctx.closers } = inner
    have hq : Quiet inner.limits D := by rwa [← hinner]
    have hout : inner.inBrackets = false := by rwa [← hinner]
    have hdefinition : inner.definition = ctx.definition := by rw [← hinner]
    refine ensures_collect fun s1 => ensures_skip fun _ s2 => ?_
    refine Scan.ensures_peekKind (ensures_ite (fun _ => ensures_none) fun _ =>
      ensures_ite (fun _ => ensures_bind (ensures_strayCloser hq)) fun _ => ?_)
    refine ensures_seq (P := fun e _ => RereadsStatement ctx.definition e) ?_ fun e s3 he =>
      ensures_pure.2 fun _ b hb => Option.some.inj hb ▸ he
    refine Scan.ensures_peek (Moving.ensures_seq (fun r => by cases r <;> infer_instance)
      (ensures_attempt (Q := fun e _ => RereadsStatement ctx.definition e) ?_) fun r s3 hr => ?_)
    · refine ensures_seq (hread hq hout) fun e s3 he => ensures_peek ?_
      rw [hdefinition] at he
      refine ensures_ite (fun _ => ensures_skip fun _ s4 => ensures_pure.2 fun _ => he) fun _ =>
        ensures_ite (fun _ => ensures_pure.2 fun _ => he) fun _ => ensures_throw
    · cases r with
      | ok e => exact ensures_pure.2 fun _ => hr e rfl
      | error e => exact ensures_blame hq rfl
  exact hlist

variable (hg : g.KeepsStatements D)
include hg

omit [g.Stepwise] in
theorem keeps_body (closer : Token.Kind) : Keeps D (g.body closer) fun d es =>
    ∀ e ∈ es, RereadsStatement d e := by
  intro ctx s hq
  have hstatements : Ensures D (g.statements (some closer))
      { ctx with depth := ctx.depth + 1, inBrackets := false } s _ := hg (some closer) hq rfl
  exact ensures_nested fun _ =>
    ensures_lift (x := unbracketed (g.statements (some closer))) hstatements

/-- A block of a source is read again. It is not empty. -/
theorem keeps_block : Keeps D g.block RereadsBlock := by
  intro ctx s hq
  refine ensures_skip fun opening s1 => ensures_seq (keeps_body hg _ _ _ hq) fun es s2 hes => ?_
  refine ensures_skip fun stop s3 => ensures_ite (fun _ => ?_) fun hne => ?_
  · exact ensures_seq (ensures_lift (ensures_report rfl)) fun _ s4 hnot => absurd hq hnot
  · exact ensures_pure.2 fun _ => rereads_block (fun hnil => hne (by rw [hnil]; rfl)) hes

end

/-- One turn keeps expansions if the last one kept everything. -/
theorem keepsExpansions_body {D : List Diagnostic} {g : Grammar} [g.Stepwise]
    (hg : g.KeepsExpressions D) (hx : g.KeepsExpansions D) (hstatements : g.KeepsStatements D)
    {opener : Opener} {token : Token} {front : Cursor} {text : List Char} (hq : Quiet ctx.limits D)
    (h : opener.Read token front text s.cursor) :
    Ensures D (g.expansionBody opener token) ctx s fun e s' =>
      RereadsExpansion ctx.definition opener text s'.cursor.rest e := by
  have hshape := h.opens.shape
  have hname : ∀ {c : Char} {name : List Char}, text = c :: name →
      String.ofList (token.text.toList.drop 1) = .ofList name := by
    rintro c name rfl
    rw [h.shown, String.toList_ofList]
    rfl
  cases opener with
  | name =>
      rcases hshape with ⟨name, rfl, hsimple⟩
      refine ensures_pure.2 fun _ => ?_
      rw [hname rfl]
      exact rereads_simple hsimple
  | splice =>
      rcases hshape with ⟨name, rfl, hsplice⟩
      refine ensures_pure.2 fun _ => ?_
      rw [hname rfl]
      exact rereads_splice hsplice
  | brace =>
      have hshape : text = ['$', '{'] := hshape
      subst hshape
      exact keeps_bracedBody hx hq
  | bracket sigil =>
      have hshape : text = [sigil.char, '['] := hshape
      subst hshape
      refine ensures_seq (keeps_enclosed hg _ _ hq) fun e s1 he => ?_
      exact ensures_position (ensures_pure.2 fun _ => rereads_indexed he.rereads)
  | paren sigil =>
      have hshape : text = [sigil.char, '('] := hshape
      subst hshape
      refine ensures_seq (keeps_body hstatements _ _ _ hq) fun es s1 hes => ?_
      refine ensures_skip fun _ s2 => ?_
      exact ensures_position (ensures_pure.2 fun _ => rereads_substitution hes)

end Grammar

end Ysh
