import Ysh.Proofs.Joined.Program
import Ysh.Proofs.Precedence
import Ysh.Proofs.Progress.Arms

/-!
# What a Depth Is Enough For

How deep brackets may go in an expression, to the level. An expression costs the level
that it is on, and a bracket one more, so each bracket costs two. Nothing else that is
read on the way to the innermost expression costs any.

`Needs` says both halves of this at once, so that a production is walked through only
once: with so many levels left the reader has its result, and with fewer it fails for
want of one. The rules are those of `Attains`, with the one reader that goes deeper
marked.

Where the reader has failed there is no telling which brackets are still to come, and
it does not matter. What is left has no quote in it, no opener and nothing at which a
statement may end, so all of it is passed over, to the end of input.

## Main definitions

* `RunsOut`: The reader fails for want of a level.
* `Needs`: The number of levels that a reader takes.
* `Bracket`, `Bracket.spell`, `Bracket.nest`: Brackets in one another, around a number.

## Theorems

* `Needs.nested`: A level deeper is a level more.
* `needs_brackets`: Each bracket takes two levels.
* `attains_skipBrackets`: What is left of brackets is passed over.
* `parse_brackets`: Brackets are read where twice their number and two levels are there,
  and otherwise one error takes their place.
-/

namespace Ysh

open Grammar

/-! ## Running out of levels -/

section

variable {α β σ : Type} {ctx : Context} {s : State} {k : Nat}

/-- The reader fails because there is no level left where it stands by then. It has
    reported nothing. -/
def RunsOut (x : Parse α) (ctx : Context) (s : State) : Prop :=
  ∃ s', outcome x ctx s =
      (.error (.nestingTooDeep ctx.limits.depth (.emptyAt s'.cursor.offset)), s') ∧
    s'.diagnostics = s.diagnostics

/-- A sequence runs out with its first reader. -/
theorem RunsOut.bind {x : Parse α} {f : α → Parse β} (h : RunsOut x ctx s) :
    RunsOut (x >>= f) ctx s := by
  rcases h with ⟨s', hx, hquiet⟩
  exact ⟨s', by rw [Reads.outcome_bind, hx], hquiet⟩

/-- A sequence runs out with its second reader. -/
theorem RunsOut.behind {x : Parse α} {f : α → Parse β} {a : α} {s1 : State}
    (hx : Yields x ctx s a s1) (hquiet : s1.diagnostics = s.diagnostics)
    (h : RunsOut (f a) ctx s1) : RunsOut (x >>= f) ctx s := by
  rcases h with ⟨s', hf, hquiet'⟩
  refine ⟨s', ?_, hquiet'.trans hquiet⟩
  rw [Reads.outcome_bind, show outcome x ctx s = (.ok a, s1) from hx]
  exact hf

/-- A loop runs out with its first round. -/
theorem RunsOut.loop {step : σ → Parse (Round σ)} {a : σ} (h : RunsOut (step a) ctx s) :
    RunsOut (loop step a) ctx s := by
  refine .behind (Reads.outcome_get ctx s) rfl ?_
  rcases s.cursor.rest with _ | ⟨c, clock⟩
  · exact h.bind
  · exact h.bind

/-- The reader takes so many levels: it has a result with the property if they are
    there, and runs out of them if not. -/
structure Needs (k : Nat) (x : Parse α) (ctx : Context) (s : State) (Q : α → State → Prop) :
    Prop where
  attains : ctx.depth + k ≤ ctx.limits.depth → Attains x ctx s Q
  runsOut : ctx.limits.depth < ctx.depth + k → RunsOut x ctx s

variable {Q : α → State → Prop}

/-- A reader that goes no deeper takes no level. -/
theorem Attains.needs {x : Parse α} (hdepth : ctx.depth ≤ ctx.limits.depth)
    (h : Attains x ctx s Q) : Needs 0 x ctx s Q :=
  ⟨fun _ => h, fun hlt => absurd hdepth (Nat.not_le_of_lt hlt)⟩

/-- A sequence whose first reader takes the levels. -/
theorem Needs.seq {x : Parse α} {f : α → Parse β} {Q' : β → State → Prop}
    (hx : Needs k x ctx s Q) (h : ∀ a s1, Q a s1 → Attains (f a) ctx s1 Q') :
    Needs k (x >>= f) ctx s Q' :=
  ⟨fun hle => attains_seq (hx.attains hle) h, fun hlt => (hx.runsOut hlt).bind⟩

/-- A sequence whose second reader takes the levels. -/
theorem needs_seq {x : Parse α} {f : α → Parse β} {Q' : β → State → Prop}
    (hx : Attains x ctx s Q) (h : ∀ a s1, Q a s1 → Needs k (f a) ctx s1 Q') :
    Needs k (x >>= f) ctx s Q' := by
  refine ⟨fun hle => attains_seq hx fun a s1 ha => (h a s1 ha).attains hle, fun hlt => ?_⟩
  rcases hx with ⟨a, s1, hyields, hquiet, ha⟩
  exact .behind hyields hquiet ((h a s1 ha).runsOut hlt)

/-- A sequence whose first reader only looks. -/
theorem needs_look {x : Parse α} {f : α → Parse β} {a : α} {Q' : β → State → Prop}
    (hx : Yields x ctx s a s) (h : Needs k (f a) ctx s Q') : Needs k (x >>= f) ctx s Q' :=
  ⟨fun hle => attains_look hx (h.attains hle), fun hlt => .behind hx rfl (h.runsOut hlt)⟩

/-- A level deeper is a level more. -/
theorem Needs.nested {x : Parse α} (h : ctx.depth < ctx.limits.depth →
    Needs k x { ctx with depth := ctx.depth + 1 } s Q) : Needs (k + 1) (nested x) ctx s Q where
  attains hle := by
    have hdepth : ctx.depth < ctx.limits.depth := by omega
    refine attains_nested hdepth ((h hdepth).attains ?_)
    change ctx.depth + 1 + k ≤ ctx.limits.depth
    omega
  runsOut hlt := by
    refine .behind (a := ctx) rfl rfl ?_
    by_cases hdepth : ctx.limits.depth ≤ ctx.depth
    · rw [if_pos hdepth]
      exact ⟨s, rfl, rfl⟩
    · rw [if_neg hdepth]
      refine (h (Nat.lt_of_not_le hdepth)).runsOut ?_
      change ctx.limits.depth < ctx.depth + 1 + k
      omega

theorem Needs.bracketed {x : Parse α} (h : ctx.depth < ctx.limits.depth →
    Needs k x { ctx with depth := ctx.depth + 1, inBrackets := true } s Q) :
    Needs (k + 1) (bracketed x) ctx s Q :=
  .nested fun hdepth => ⟨(h hdepth).attains, (h hdepth).runsOut⟩

/-- A loop that stops after its first round takes the levels of that round. -/
theorem Needs.loop {step : σ → Parse (Round σ)} {a : σ} {Q : σ → State → Prop}
    (h : Needs k (step a) ctx s fun r t => ∃ b, r = .stop b ∧ Q b t) :
    Needs k (loop step a) ctx s Q :=
  ⟨fun hle => Runs.attains_loop (.refl a s) (h.attains hle), fun hlt => (h.runsOut hlt).loop⟩

end

/-! ## Brackets -/

/-- The brackets of an expression: parentheses, and those of a list. -/
inductive Bracket where
  | round | square
deriving DecidableEq, Repr

namespace Bracket

def opening : Bracket → Char
  | round => '('
  | square => '['

def closing : Bracket → Char
  | round => ')'
  | square => ']'

/-- The tokens of a bracket. -/
def openingKind : Bracket → Token.Kind
  | round => .leftParen
  | square => .leftBracket

def closingKind : Bracket → Token.Kind
  | round => .rightParen
  | square => .rightBracket

/-- Brackets in one another around a `1`, the outermost first. -/
def spell (bs : List Bracket) : List Char :=
  bs.map opening ++ '1' :: bs.reverse.map closing

/-- What the brackets mean. Parentheses leave nothing behind in a tree. -/
def nest : List Bracket → Expression
  | [] => .literalExpression (.number (.ofText "1" default))
  | round :: bs => nest bs
  | square :: bs => .literalExpression (.list (.ofList [nest bs]) default)

theorem spell_cons (b : Bracket) (bs : List Bracket) :
    spell (b :: bs) = b.opening :: (spell bs ++ [b.closing]) := by
  simp [spell]

/-- The token that the text of brackets starts with. -/
def firstKind : List Bracket → Token.Kind
  | [] => .number
  | b :: _ => b.openingKind

theorem firstKind_ne (bs : List Bracket) : firstKind bs ≠ .rightBracket := by
  rcases bs with _ | ⟨_ | _, bs⟩ <;> exact nofun

theorem lexed_opening (b : Bracket) (rest : List Char) :
    Lexed .expression [b.opening] b.openingKind rest := by
  cases b <;> exact ⟨rfl, rfl⟩

theorem lexed_closing (b : Bracket) (rest : List Char) :
    Lexed .expression [b.closing] b.closingKind rest := by
  cases b <;> exact ⟨rfl, rfl⟩

theorem endsExpression_closing (b : Bracket) (ctx : Context) (rest : List Char) :
    EndsExpression ctx (b.closing :: rest) :=
  .inr (.inl ⟨b.closing, by cases b <;> decide, rest, rfl⟩)

end Bracket

section

variable {ctx : Context} {s : State} {k : Nat} {g : Grammar} {rest : List Char}

open Ysh.Bracket

theorem State.Shows.opening {b : Bracket} {bs : List Bracket}
    (hs : s.Shows (spell (b :: bs)) rest) :
    Stands .expression ctx s [b.opening] b.openingKind
      (spell bs ++ b.closing :: rest) := by
  rcases hs with ⟨n, hn⟩
  rw [spell_cons, List.cons_append, List.append_assoc] at hn
  exact State.Shows.stands ⟨n, hn⟩ (b.lexed_opening _) (.inl (by cases b <;> decide))

theorem State.Shows.firstKind {bs : List Bracket} (hs : s.Shows (spell bs) rest)
    (hrest : EndsExpression ctx rest) : (s.next .expression ctx).kind = Bracket.firstKind bs := by
  cases bs with
  | nil =>
      have hnumber : Lexed .expression ['1'] .number [] := ⟨rfl, rfl⟩
      have hstands : Stands .expression ctx s ['1'] .number rest :=
        hs.stands (hnumber.number_of_ends (EndsOperand.number (.inl hrest))) (.inl (by decide))
      exact hstands.next.1
  | cons b bs => exact hs.opening.next.1

/-- Around a primary with nothing behind it an expression takes no level but its own. -/
theorem needs_levels {P : Expression → State → Prop} {ls : List (List BinaryOperator)}
    (hunary : (s.next .expression ctx).kind.unary? = none)
    (h : Needs k g.primary ctx s fun e t => P e t ∧ t.cursor.rest = rest)
    (hrest : EndsExpression ctx rest) :
    Needs k (g.levels ls) ctx s fun e t => P e t ∧ t.cursor.rest = rest := by
  have hpostfixed : Needs k g.postfixed ctx s fun e t => P e t ∧ t.cursor.rest = rest :=
    h.seq fun e t he => Runs.attains_loop (.refl e t)
      (attains_postfixStep_stop (EndsOperand.next (.inl hrest) he.2) he)
  have hoperand : Needs k g.unary ctx s fun e t => P e t ∧ t.cursor.rest = rest := by
    refine needs_look (a := (s.next .expression ctx).kind) rfl ?_
    rw [hunary]
    exact hpostfixed
  refine ⟨fun hle => attains_levels_operand (hoperand.attains hle) fun e t he op hop => ?_,
    fun hlt => ?_⟩
  · rw [hrest.binary? he.2] at hop
    cases hop
  · -- The loosest level reads the tightest first.
    induction ls with
    | nil => exact hoperand.runsOut hlt
    | cons level tighter ih => exact ih.bind

/-- What is between parentheses takes a level more. -/
theorem needs_enclosed {P : Expression → Prop} {opening : Span}
    (h : ∀ ctx : Context, Needs k g.expression ctx s fun e t => P e ∧ t.cursor.rest = ')' :: rest) :
    Needs (k + 1) (g.enclosed .rightParen opening) ctx s fun e t => P e ∧ t.cursor.rest = rest := by
  refine .bracketed fun _ => (h _).seq fun e t he => ?_
  have hstands : Stands .expression { ctx with depth := ctx.depth + 1, inBrackets := true } t [')']
      .rightParen rest :=
    State.Shows.stands ⟨0, he.2⟩ ⟨rfl, rfl⟩ (.inl (by decide))
  exact attains_seq (hstands.expectClosing opening) fun _ u hu => attains_pure ⟨he.1, hu.2⟩

/-- A list of one element takes a level more than the element. -/
theorem needs_listBody {P : Expression → Prop} {opening : Span}
    (hstart : ∀ ctx : Context, (s.next .expression ctx).kind ≠ .rightBracket)
    (h : ∀ ctx : Context, Needs k g.expression ctx s fun e t => P e ∧ t.cursor.rest = ']' :: rest) :
    Needs (k + 1) (g.listBody opening) ctx s fun l t =>
      (∃ e span, l = .list (.ofList [e]) span ∧ P e) ∧ t.cursor.rest = rest := by
  refine .bracketed fun _ => ?_
  have hstands : ∀ {t : State}, t.cursor.rest = ']' :: rest → Stands .expression
      { ctx with depth := ctx.depth + 1, inBrackets := true } t [']'] .rightBracket rest :=
    fun ht => State.Shows.stands ⟨0, ht⟩ ⟨rfl, rfl⟩ (.inl (by decide))
  have helement : Needs k (commaSeparated (· == .rightBracket) g.expression)
      { ctx with depth := ctx.depth + 1, inBrackets := true } s
      fun es t => (∃ e, es = [e] ∧ P e) ∧ t.cursor.rest = ']' :: rest := by
    refine Needs.seq (Q := fun es t => (∃ e, es = #[e] ∧ P e) ∧ t.cursor.rest = ']' :: rest)
      (.loop ?_) fun es t hes => ?_
    · refine needs_look (x := liftM (peekKind .expression)) (a := (s.next .expression _).kind) rfl ?_
      rw [if_neg (by rw [beq_iff_eq]; exact hstart _)]
      refine (h _).seq fun e t he => attains_look (hstands he.2).peekKind ?_
      rw [if_neg (by decide)]
      exact attains_pure ⟨#[e], rfl, ⟨e, rfl, he.1⟩, he.2⟩
    · rcases hes with ⟨⟨e, rfl, he⟩, ht⟩
      exact attains_pure ⟨⟨e, rfl, he⟩, ht⟩
  refine helement.seq fun es t hes => ?_
  rcases hes with ⟨⟨e, rfl, he⟩, ht⟩
  refine attains_seq ((hstands ht).expectClosing opening) fun _ u hu => ?_
  exact attains_look (a := u.cursor.offset) rfl (attains_pure ⟨⟨e, _, rfl, he⟩, hu.2⟩)

/-- Each bracket takes two levels, and the number in the middle takes one. -/
theorem needs_brackets (bs : List Bracket) {n : Nat} (hn : bs.length ≤ n) (ctx : Context)
    (s : State) (rest : List Char) (hrest : ∀ ctx : Context, EndsExpression ctx rest)
    (hs : s.Shows (spell bs) rest) :
    Needs (2 * bs.length + 1) (turns n).expressionBody ctx s fun e t =>
      e.erase = nest bs ∧ t.cursor.rest = rest := by
  -- From the outermost bracket inwards: a turn of the grammar for each, and for what is inside
  -- it the same in a context of its own.
  induction bs generalizing n ctx s rest with
  | nil =>
      refine .nested fun hdepth => needs_levels ?_ (Attains.needs hdepth ?_) (hrest _)
      · rw [hs.firstKind (hrest _)]
        rfl
      · have hone : (Operand.number "1").IsValid := ⟨rfl, rfl⟩
        refine (attains_primary_operand hone (.inl (hrest _)) hs).2.mono fun e t he => ?_
        rcases he with ⟨span, rfl, ht⟩
        exact ⟨rfl, ht⟩
  | cons b bs ih =>
      rcases n with _ | n
      · exact absurd hn (Nat.not_succ_le_zero _)
      have hstands : ∀ {ctx : Context}, Stands .expression ctx s [b.opening] b.openingKind
          (spell bs ++ b.closing :: rest) := hs.opening
      have hinner : ∀ (t : State) (ctx : Context), t.cursor.rest = spell bs ++ b.closing :: rest →
          Needs (2 * bs.length + 1) (turns (n + 1)).expression ctx t fun e u =>
            e.erase = nest bs ∧ u.cursor.rest = b.closing :: rest := fun t ctx ht =>
        ih (Nat.le_of_succ_le_succ hn) ctx t _ (fun ctx => b.endsExpression_closing ctx rest)
          (.of_eq ht)
      refine Needs.nested (k := 2 * bs.length + 1 + 1) fun _ => needs_levels ?_ ?_ (hrest _)
      · rw [hs.firstKind (hrest _)]
        cases b <;> rfl
      · refine needs_look (a := s.next .expression _) rfl ?_
        dsimp only
        rw [hstands.next.1]
        cases b with
        | round =>
            refine needs_seq hstands.advance fun token t ht => ?_
            exact needs_enclosed fun ctx => hinner t ctx ht.2.1
        | square =>
            refine needs_seq hstands.advance fun token t ht => ?_
            refine (needs_listBody (fun ctx => ?_) fun ctx => hinner t ctx ht.2.1).seq
              fun l u hl => attains_pure ?_
            · rw [State.Shows.firstKind (.of_eq ht.2.1) (endsExpression_closing .square ctx rest)]
              exact firstKind_ne bs
            · rcases hl with ⟨⟨e, span, rfl, he⟩, hu⟩
              refine ⟨?_, hu⟩
              rw [Bracket.nest, ← he]
              rfl

/-! ## Declarations -/

/-- The source of a variable that has brackets for its value. -/
def Bracket.source (bs : List Bracket) : String :=
  "var x = " ++ .ofList (spell bs)

theorem Bracket.toList_source (bs : List Bracket) :
    (source bs).toList = "var x = ".toList ++ spell bs := by
  simp [source]

theorem Bracket.length_le_source (bs : List Bracket) : bs.length ≤ (source bs).toList.length := by
  have hspell : bs.length ≤ (spell bs).length := by
    simp [spell]
  rw [toList_source, List.length_append]
  exact Nat.le_add_left_of_le hspell

/-- The variable with that value. -/
def Bracket.declaration (bs : List Bracket) : Statement :=
  .declaration ⟨"x", default⟩ (nest bs) default

theorem attains_variable (ctx : Context) (hs : s.cursor.rest = "var x = ".toList ++ rest) :
    (s.next .command ctx).kind = .word ∧ (s.next .command ctx).text = "var" ∧
      Attains (advance .command) ctx s fun _ t => t.cursor.rest = " x = ".toList ++ rest := by
  have hstands : Stands .command ctx s ['v', 'a', 'r'] .word (" x = ".toList ++ rest) :=
    State.Shows.stands ⟨0, hs⟩ ⟨rfl, rfl⟩ (.inl (by decide))
  exact ⟨hstands.next.1, hstands.next.2.1, hstands.advance.mono fun _ _ ht => ht.2.1⟩

theorem needs_nameAndValue {P : Expression → Prop} (hs : s.cursor.rest = " x = ".toList ++ rest)
    (h : ∀ t : State, t.cursor.rest = ' ' :: rest →
      Needs k g.expression ctx t fun e u => P e ∧ u.cursor.rest = []) :
    Needs k g.nameAndValue ctx s fun p u => p.1.name = "x" ∧ P p.2 ∧ u.cursor.rest = [] := by
  have hname : s.Shows ['x'] (" = ".toList ++ rest) := ⟨1, hs⟩
  have hends : EndsAtom (" = ".toList ++ rest) := by
    intro c hc
    cases hc
    decide
  refine needs_seq (attains_bindingName hname ⟨rfl, rfl, rfl⟩ hends) fun name t ht => ?_
  have hequals : Stands .expression ctx t ['='] (.assignment .assign) (' ' :: rest) :=
    State.Shows.stands ⟨1, ht.2⟩ ⟨rfl, rfl⟩ (.inl (by decide))
  refine needs_seq (hequals.expectAs _) fun _ u hu => ?_
  exact (h u hu.2).seq fun e v he => attains_pure ⟨ht.1, he⟩

theorem State.next_command_end (h : s.cursor.rest = []) :
    (s.next .command ctx).kind = .endOfInput := by
  have hstands : Stands .command ctx s [] .endOfInput [] :=
    State.Shows.stands ⟨0, h⟩ ⟨rfl, rfl⟩ (.inl (by decide))
  exact hstands.next.1

/-- The declaration takes a level more than its value. -/
theorem needs_declaration (ctx : Context) (bs : List Bracket) {n : Nat} (hn : bs.length ≤ n)
    (hs : s.cursor.rest = (source bs).toList) :
    Needs (2 * bs.length + 2) (turns (n + 1)).terminatedStatement ctx s fun t u =>
      t.erase = declaration bs ∧ u.cursor.rest = [] := by
  have helement : ∀ ctx : Context, Needs (2 * bs.length + 1) (turns (n + 1)).pipelineElement ctx s
      fun t u => t.erase = declaration bs ∧ u.cursor.rest = [] := by
    intro ctx
    rw [toList_source] at hs
    rcases attains_variable ctx hs with ⟨hkind, htext, hkeyword⟩
    refine needs_look (a := s.next .command ctx) rfl ?_
    rw [if_pos hkind, wordStatement, htext]
    refine needs_seq hkeyword fun keyword t ht => ?_
    refine (needs_nameAndValue (P := fun e => e.erase = nest bs) ht fun u hu => ?_).seq
      fun p u hp => attains_pure ⟨?_, hp.2.2⟩
    · exact needs_brackets bs hn ctx u [] (fun _ => .inl rfl) ⟨1, by rw [hu, List.append_nil]; rfl⟩
    · rcases p with ⟨name, value⟩
      rw [Tree.erase, hp.2.1, Identifier.erase, hp.1]
      rfl
  have hstatement : Needs (2 * bs.length + 2) (turns (n + 1)).statement ctx s
      fun t u => t.erase = declaration bs ∧ u.cursor.rest = [] := by
    refine Needs.nested (k := 2 * bs.length + 1) fun _ => (helement _).seq fun t u ht => ?_
    -- Nothing is piped at the end of input.
    refine Runs.attains_loop (.refl t u) ?_
    refine attains_look (a := (u.next .command _).kind) rfl ?_
    rw [if_neg fun h => by rw [State.next_command_end ht.2] at h; cases h.1]
    exact attains_pure ⟨t, rfl, ht⟩
  refine hstatement.seq fun t u ht => ?_
  refine attains_look (a := u.next .command ctx) rfl ?_
  rw [State.next_command_end ht.2]
  exact attains_pure ht

end

/-! ## What is left of a declaration -/

/-- The characters of which such declarations are made. -/
def Bracket.characters : List Char :=
  ['v', 'a', 'r', ' ', 'x', '=', '1', '(', ')', '[', ']']

/-- A rest of such a declaration, or of what else is made of these characters. -/
def Bracket.Remains (cs : List Char) : Prop :=
  ∀ c ∈ cs, c ∈ characters

/-- The tokens of a command in what remains. No statement ends at them, and nothing else
    begins. -/
def Token.Kind.isPassed (kind : Token.Kind) : Bool :=
  [word, leftParen, rightParen, leftBracket, rightBracket].contains kind

namespace Bracket

/-- What holds of the characters in a list is found out by trying these, and not all that
    there are. -/
theorem forall_of_all {cs : List Char} {P : Char → Prop} [DecidablePred P]
    (h : cs.all (fun c => decide (P c)) = true) : ∀ c ∈ cs, P c :=
  fun c hc => of_decide_eq_true (List.all_eq_true.1 h c hc)

theorem source_remains (bs : List Bracket) : Remains (source bs).toList := by
  intro c hc
  rw [toList_source] at hc
  rcases List.mem_append.1 hc with hc | hc
  · have hkeyword : ∀ c ∈ "var x = ".toList, c ∈ characters := forall_of_all (by decide)
    exact hkeyword c hc
  · rcases List.mem_append.1 hc with hc | hc
    · rcases List.mem_map.1 hc with ⟨b, -, rfl⟩
      cases b <;> decide
    · rcases List.mem_cons.1 hc with rfl | hc
      · decide
      · rcases List.mem_map.1 hc with ⟨b, -, rfl⟩
        cases b <;> decide

theorem isRun_of_plain {x : List Char}
    (h : ∀ c ∈ x, c ≠ '\\' ∧ Character.isWordSpecial c = false) : Lexeme.isRun x = true := by
  fun_induction Lexeme.isRun x with
  | case1 => rfl
  | case2 => exact absurd rfl (h '\\' (by simp)).1
  | case3 => exact absurd rfl (h '\\' (by simp)).1
  | case4 c cs _ _ ih =>
      rw [(h c (by simp)).2, ih fun d hd => h d (by simp [hd])]
      rfl

/-- Of these characters a blank or a bracket ends a word, and all others are word text. -/
theorem lexed_word {c : Char} {cs : List Char} (h : Remains (c :: cs)) (hblank : c ≠ ' ')
    (hbracket : c ∉ Lexeme.operatorStarts) :
    Lexed .command (c :: cs.takeWhile (!Character.isWordSpecial ·)) .word
      (cs.dropWhile (!Character.isWordSpecial ·)) := by
  have hplain : ∀ d ∈ characters,
      ∀ x ∈ ['"', '\'', '@', '^', '\\', '$', '\n', '\t', '\r', '#'], d ≠ x := by
    have hnot : ∀ d ∈ characters,
        d ∉ ['"', '\'', '@', '^', '\\', '$', '\n', '\t', '\r', '#'] := forall_of_all (by decide)
    rintro d hd x hx rfl
    exact hnot d hd hx
  have hword : ∀ d ∈ characters, d ≠ ' ' → d ∉ Lexeme.operatorStarts →
      Character.isWordSpecial d = false := forall_of_all (by decide)
  have hcs : ∀ d ∈ cs, d ∈ characters := fun d hd => h d (List.mem_cons_of_mem c hd)
  have hc := hplain c (h c List.mem_cons_self)
  have hback : c ≠ '\\' := hc _ (by decide)
  have hsplit : cs.takeWhile (!Character.isWordSpecial ·)
      ++ cs.dropWhile (!Character.isWordSpecial ·) = cs := List.takeWhile_append_dropWhile
  have hrun : Lexeme.isRun (c :: cs.takeWhile (!Character.isWordSpecial ·)) = true := by
    refine isRun_of_plain fun d hd => ?_
    rcases List.mem_cons.1 hd with rfl | hd
    · exact ⟨hback, hword d (h d List.mem_cons_self) hblank hbracket⟩
    · have hall := List.all_eq_true.1 List.all_takeWhile d hd
      exact ⟨hplain d (hcs d ((List.takeWhile_prefix _).subset hd)) _ (by decide),
        by simpa using hall⟩
  -- What is left behind the word starts with a character that ends words, or not at all.
  have hends : Lexeme.wordLength (cs.dropWhile (!Character.isWordSpecial ·)) = 0 := by
    rcases hrest : cs.dropWhile (!Character.isWordSpecial ·) with _ | ⟨d, rest⟩
    · rfl
    · have hd : d ∈ cs :=
        (List.dropWhile_suffix _).subset (by rw [hrest]; exact List.mem_cons_self)
      have hback' : d ≠ '\\' := hplain d (hcs d hd) _ (by decide)
      have hspecial := Eggex.head?_dropWhile (congrArg List.head? hrest)
      rw [Lexeme.wordLength]
      · exact if_pos (by simpa using hspecial)
      · exact fun heq _ => absurd heq hback'
      · exact fun _ _ heq _ => absurd heq hback'
  refine ⟨?_, Lexeme.ofMode_command_word.2 ⟨hc _ (by decide), hbracket, ?_, ?_⟩⟩
  · exact Lexeme.extrasLength_eq_zero.2 ⟨⟨hblank, hc _ (by decide), hc _ (by decide),
      hc _ (by decide)⟩, fun heq => absurd heq hback⟩
  · refine Lexeme.quote?_eq_none.2 ⟨hc _ (by decide), hc _ (by decide), fun hhead => ?_⟩
    rw [hsplit] at hhead
    exact absurd rfl (hplain _ (hcs _ (List.mem_of_head? hhead)) _ (by decide))
  · rw [if_neg (hc _ (by decide))]
    have hat : c ≠ '@' := hc _ (by decide)
    have hcaret : c ≠ '^' := hc _ (by decide)
    exact ⟨Lexeme.sigil?_eq_none.2 fun d _ => ⟨fun hsigil => absurd hsigil (by simp [hat, hcaret]),
      fun hsigil => absurd hsigil hat⟩, hrun, hends⟩

/-- A word or a bracket comes next, or the end, and what is behind it is a rest again. -/
theorem Remains.ahead {cs : List Char} (h : Remains cs) :
    ∃ text kind rest, Ahead .command cs text kind rest ∧ Remains rest ∧
      (kind = .endOfInput ∨ kind.isPassed = true) := by
  induction cs with
  | nil =>
      have hend : Lexed .command [] .endOfInput [] := ⟨rfl, rfl⟩
      exact ⟨[], .endOfInput, [], hend.ahead, h, .inl rfl⟩
  | cons c cs ih =>
      have hcs : Remains cs := fun d hd => h d (List.mem_cons_of_mem c hd)
      have hc : c ∈ characters := h c List.mem_cons_self
      by_cases hblank : c = ' '
      · rcases ih hcs with ⟨text, kind, rest, hahead, hrest⟩
        exact ⟨text, kind, rest, hblank ▸ hahead.blank, hrest⟩
      by_cases hbracket : c ∈ Lexeme.operatorStarts
      · have hkind : ∃ kind : Token.Kind, kind.isPassed = true ∧ Lexed .command [c] kind cs := by
          have hfour : ∀ c ∈ characters, c ∈ Lexeme.operatorStarts →
              c = '(' ∨ c = ')' ∨ c = '[' ∨ c = ']' := forall_of_all (by decide)
          rcases hfour c hc hbracket with rfl | rfl | rfl | rfl
          · exact ⟨.leftParen, rfl, rfl, rfl⟩
          · exact ⟨.rightParen, rfl, rfl, rfl⟩
          · exact ⟨.leftBracket, rfl, lexed_leftBracket cs⟩
          · exact ⟨.rightBracket, rfl, lexed_rightBracket cs⟩
        rcases hkind with ⟨kind, hkind, hlexed⟩
        exact ⟨[c], kind, cs, hlexed.ahead, hcs, .inr hkind⟩
      · have hword := lexed_word h hblank hbracket
        have hsplit : cs.takeWhile (!Character.isWordSpecial ·)
            ++ cs.dropWhile (!Character.isWordSpecial ·) = cs := List.takeWhile_append_dropWhile
        have hahead := hword.ahead
        rw [List.cons_append, hsplit] at hahead
        exact ⟨_, .word, _, hahead, fun d hd => hcs d ((List.dropWhile_suffix _).subset hd),
          .inr rfl⟩

end Bracket

section

variable {ctx : Context} {s : State} {g : Grammar}

open Ysh.Bracket

/-- In a remaining text a word or a bracket stands next, or the end. -/
theorem Bracket.Remains.stands (h : Remains s.cursor.rest) (ctx : Context) :
    ∃ text kind rest, Stands .command ctx s text kind rest ∧ Remains rest ∧
      (kind = .endOfInput ∨ kind.isPassed = true) := by
  rcases h.ahead with ⟨text, kind, rest, hahead, hrest, hkind⟩
  exact ⟨text, kind, rest, ⟨hahead, fun hmode => by cases hmode⟩, hrest, hkind⟩

theorem Token.Kind.isPassed_cases {kind : Token.Kind} (h : kind.isPassed = true) :
    kind = .word ∨ kind = .leftParen ∨ kind = .rightParen ∨ kind = .leftBracket ∨
      kind = .rightBracket := by
  simpa [Token.Kind.isPassed] using h

theorem Stands.atEnd {text rest : List Char} (h : Stands .command ctx s text .endOfInput rest) :
    s.AtEnd ctx := by
  rcases h.lookahead with ⟨token, after, hnext, hkind, -⟩
  refine ⟨h.next.1, ?_⟩
  change (s.cursor.lookahead .command _).errors = []
  rw [hnext]

/-- Where no list waits for a parenthesis, what remains is passed over. How many brackets
    are open does not matter, for there is nothing at which a statement may end. -/
theorem attains_skipBrackets (h : Remains s.cursor.rest) (depth : Nat) :
    Attains (loop (g.skipStatementRound []) depth) ctx s fun _ t => t.AtEnd ctx := by
  refine attains_loop (I := fun _ t => Remains t.cursor.rest) h fun depth t ht => ?_
  rcases ht.stands ctx with ⟨text, kind, rest, hstands, hrest, hkind⟩
  refine attains_look (a := t.next .command ctx) rfl ?_
  dsimp only
  rw [hstands.next.1]
  rcases hkind with rfl | hkind
  · rw [if_pos (.inl rfl)]
    exact attains_pure hstands.atEnd
  · -- None of these ends a statement, and no list waits for a parenthesis.
    have hstays : ¬(kind = .endOfInput ∨ depth = 0 ∧ (kind.isTerminator = true ∨
        (kind = .rightBrace ∨ kind = .rightParen) ∧ [].contains kind = true)) := by
      rcases Token.Kind.isPassed_cases hkind with rfl | rfl | rfl | rfl | rfl
      all_goals simp [Token.Kind.isTerminator]
    rw [if_neg hstays]
    refine attains_seq hstands.advance fun token u hu => ?_
    have hremains : Remains u.cursor.rest := hu.2.1 ▸ hrest
    have hless : u.cursor.rest.length < t.cursor.rest.length := by
      have hle := hstands.ahead.length_le
      have hpos : 0 < text.length := by
        refine hstands.ahead.lexed.advances.resolve_right fun hend => ?_
        rw [hend] at hkind
        cases hkind
      rw [hu.2.1]
      omega
    rcases Token.Kind.isPassed_cases hkind with rfl | rfl | rfl | rfl | rfl
    all_goals exact attains_pure ⟨hremains, hless⟩

theorem attains_recoverBrackets {limits : Limits} (h : Remains s.cursor.rest) :
    Attains g.recover { limits } s fun _ t => t.AtEnd { limits } := by
  have hskip : Attains g.skipStatement { limits } s fun _ t => t.AtEnd { limits } := by
    refine attains_look (a := ({ limits } : Context)) rfl ?_
    exact attains_seq (attains_skipBrackets h 0) fun _ t ht => attains_pure ht
  refine attains_seq hskip fun _ t ht => attains_look (a := t.cursor.offset) rfl ?_
  refine attains_look (a := (t.next .command { limits }).kind) rfl ?_
  rw [ht.kind]
  exact attains_pure ht

theorem yields_report {d : Diagnostic} (hroom : s.diagnostics.length < ctx.limits.diagnostics) :
    Yields (report d) ctx s () { s with diagnostics := s.diagnostics ++ [d] } := by
  change ((.ok (), if s.diagnostics.length < ctx.limits.diagnostics then
    { s with diagnostics := s.diagnostics ++ [d] } else s) : Except SyntaxError Unit × State) = _
  rw [if_pos hroom]

/-- A statement that runs out of levels in what remains of brackets is one error, and takes
    all that is there. -/
theorem yields_error {limits : Limits} {s : State} [g.Stepwise] (hs : Remains s.cursor.rest)
    (hroom : s.diagnostics.length < limits.diagnostics)
    (h : RunsOut g.terminatedStatement { limits } s) :
    ∃ place span s', Yields g.statementOrError { limits } s
        (.error (SyntaxError.nestingTooDeep limits.depth place).message span) s' ∧
      s'.diagnostics = s.diagnostics ++ [.syntactic (.nestingTooDeep limits.depth place)] ∧
      s'.AtEnd { limits } := by
  rcases h with ⟨t, herror, hquiet⟩
  -- The reader has failed somewhere further on, so what is left has the same characters.
  have hmoves := Ysh.Moving.moves (x := g.terminatedStatement) { limits } s
  rw [herror] at hmoves
  rcases hmoves.forward with ⟨n, hn⟩
  have hremains : Remains t.cursor.rest := fun c hc => by
    rw [hn] at hc
    exact hs c (List.mem_of_mem_drop hc)
  let error : SyntaxError := .nestingTooDeep limits.depth (.emptyAt t.cursor.offset)
  let told : State := { t with diagnostics := t.diagnostics ++ [.syntactic error] }
  have hreport : Yields (report (.syntactic error)) { limits } t () told :=
    yields_report (by rw [hquiet]; exact hroom)
  have hrecovers : Attains g.recover { limits } told fun _ t => t.AtEnd { limits } :=
    attains_recoverBrackets hremains
  rcases hrecovers with ⟨stop, s', hrecover, hquiet', hend⟩
  refine ⟨.emptyAt t.cursor.offset, _, s', Scan.yields_peek.2 (yields_bind.2 ⟨.error error, t,
    yields_attempt_error herror, yields_bind.2 ⟨(), told, hreport,
      yields_bind.2 ⟨stop, s', hrecover, rfl⟩⟩⟩), ?_, hend⟩
  rw [hquiet', ← hquiet]

theorem yields_skipSeparators (h : (s.next .command ctx).kind ≠ .newline ∧
    (s.next .command ctx).kind ≠ .semicolon) : Yields skipSeparators ctx s () s := by
  have hends : Progresses (Scan.skipRound .command fun kind =>
      kind == .newline || kind == .semicolon) ctx :=
    progresses_of_gains fun _ _ => gains_skipRound rfl _
  refine hends.yields_stop (skipRound_stop ?_)
  simp [h.1, h.2]

/-- A program of one statement. -/
theorem yields_program_single {t : Statement} {s' : State} [g.Stepwise]
    (hstart : (s.next .command ctx).kind = .word) (h : Yields g.statementOrError ctx s t s')
    (hend : s'.AtEnd ctx) :
    ∃ s'', Yields g.program ctx s [t] s'' ∧ s''.diagnostics = s'.diagnostics := by
  have hitem : Yields (g.listedStatement none) ctx s (some t) s' := by
    refine yields_bind.2 ⟨(), s, yields_skipSeparators (by simp [hstart]), ?_⟩
    refine Scan.yields_peekKind.2 ?_
    rw [hstart]
    exact yields_bind.2 ⟨t, s', h, rfl⟩
  have hnone : Yields (g.listedStatement none) ctx s' none s' := by
    refine yields_bind.2 ⟨(), s', yields_skipSeparators (by simp [hend.kind]), ?_⟩
    refine Scan.yields_peekKind.2 ?_
    rw [hend.kind]
    rfl
  have hround : ∀ ctx', Yields (g.listedStatement none) ctx' s (some t) s' →
      Yields (collectRound (g.listedStatement none) #[]) ctx' s (.again #[t]) s' :=
    fun ctx' h => yields_bind.2 ⟨some t, s', h, rfl⟩
  have hlist : Yields (g.statementList none) ctx s [t] s' :=
    yields_statementList_iff.2 ⟨1, .again (hround _ hitem)
      (.stop (yields_bind.2 ⟨none, s', hnone, rfl⟩))⟩
  exact ⟨_, yields_bind.2 ⟨[t], s', hlist, yields_bind.2 ⟨_, _, hend.clear.yields_advance, rfl⟩⟩,
    rfl⟩

/-- A source that is read as a program is parsed as that program. -/
theorem parse_of_yields {limits : Limits} {source : String} {ts : List Statement} {s : State}
    (hsize : source.utf8ByteSize ≤ limits.inputSize)
    (h : Yields (Grammar.forState (.ofSource source)).program { limits } (.ofSource source) ts s) :
    parse limits source = .ofStatements source ts s.diagnostics := by
  have hstatements : (readProgram limits (.ofSource source)).1 = ts :=
    Except.ok.inj (congrArg Prod.fst h)
  have hstate : (readProgram limits (.ofSource source)).2 = s := congrArg Prod.snd h
  have hread : readProgram limits (.ofSource source) = (ts, s) := Prod.ext hstatements hstate
  unfold parse
  rw [if_neg (Nat.not_lt_of_le hsize), finish, hread]

/-- Brackets are read where twice their number and two levels are there, and otherwise one
    error takes the place of the whole declaration. -/
theorem parse_brackets (limits : Limits) (bs : List Bracket)
    (hroom : 1 ≤ limits.diagnostics)
    (hsize : (source bs).utf8ByteSize ≤ limits.inputSize) :
    (2 * bs.length + 2 ≤ limits.depth →
      (parse limits (source bs)).diagnostics = [] ∧
        (parse limits (source bs)).program.statements.erase = .ofList [declaration bs]) ∧
    (limits.depth < 2 * bs.length + 2 → ∃ place span,
      (parse limits (source bs)).diagnostics
          = [.syntactic (.nestingTooDeep limits.depth place)] ∧
        (parse limits (source bs)).program.statements
          = .ofList [.error (SyntaxError.nestingTooDeep limits.depth place).message span]) := by
  -- The state is kept apart from the source, which is not to be unfolded.
  obtain ⟨s, hstart⟩ : ∃ s, s = State.ofSource (source bs) := ⟨_, rfl⟩
  have hs : s.cursor.rest = (source bs).toList := by
    rw [hstart]
    rfl
  have hlength : bs.length ≤ 2 * (source bs).toList.length + 2 := by
    have hle := length_le_source bs
    omega
  have hturns : Grammar.forState s = turns (2 * (source bs).toList.length + 2 + 1) := by
    rw [← hs]
    rfl
  generalize 2 * (source bs).toList.length + 2 = n at hlength hturns
  have hneeds := needs_declaration { limits } bs hlength hs
  have hword := (attains_variable { limits } (hs.trans (toList_source bs))).1
  have hparse : ∀ {t : Statement} {s' : State},
      Yields (turns (n + 1)).statementOrError { limits } s t s' → s'.AtEnd { limits } →
      parse limits (source bs) = .ofStatements (source bs) [t] s'.diagnostics := by
    intro t s' ht hend
    rcases yields_program_single hword ht hend with ⟨s'', hprogram, hquiet⟩
    rw [← hturns, hstart] at hprogram
    rw [parse_of_yields hsize hprogram, hquiet]
  have hquiet : s.diagnostics = [] := by
    rw [hstart]
    rfl
  refine ⟨fun hle => ?_, fun hlt => ?_⟩
  · -- With so many levels the declaration is read up to the end of input.
    rcases hneeds.attains ((Nat.zero_add _).symm ▸ hle) with ⟨t, s', ht, hquiet', htree, hrest⟩
    have hstatement : Yields (turns (n + 1)).statementOrError { limits } s t s' :=
      Scan.yields_peek.2 (yields_bind.2 ⟨.ok t, s', yields_attempt.2 ht, rfl⟩)
    have hend : Stands .command { limits } s' [] .endOfInput [] :=
      State.Shows.stands ⟨0, hrest⟩ ⟨rfl, rfl⟩ (.inl (by decide))
    rw [hparse hstatement hend.atEnd]
    refine ⟨hquiet'.trans hquiet, ?_⟩
    rw [← htree]
    rfl
  · -- With fewer it fails, and recovery takes what is left.
    rcases yields_error (by rw [hs]; exact source_remains bs) (by rw [hquiet]; exact hroom)
      (hneeds.runsOut ((Nat.zero_add _).symm ▸ hlt)) with
      ⟨place, span, s', hstatement, htold, hend⟩
    rw [hparse hstatement hend]
    rw [hquiet] at htold
    exact ⟨place, span, htold, rfl⟩

/-- A bracket in a bracket in a bracket is read on the eighth level, and not above it. -/
theorem parse_brackets_of_three :
    1 ≤ ({} : Limits).diagnostics ∧ (source [.square, .round, .square]).utf8ByteSize
        ≤ ({} : Limits).inputSize ∧
      source [.square, .round, .square] = "var x = [([1])]" ∧
      ((parse { depth := 8 } "var x = [([1])]").diagnostics = [] ∧
        (parse { depth := 8 } "var x = [([1])]").program.statements.erase
          = .ofList [declaration [.square, .round, .square]]) ∧
      ∃ place span, (parse { depth := 7 } "var x = [([1])]").diagnostics
          = [.syntactic (.nestingTooDeep 7 place)] ∧
        (parse { depth := 7 } "var x = [([1])]").program.statements
          = .ofList [.error (SyntaxError.nestingTooDeep 7 place).message span] := by
  have hsource : source [.square, .round, .square] = "var x = [([1])]" := by decide
  have hsize : (source [.square, .round, .square]).utf8ByteSize ≤ ({} : Limits).inputSize := by
    decide
  have hread := (parse_brackets { depth := 8 } [.square, .round, .square] (by decide) hsize).1
    (by decide)
  have hfails := (parse_brackets { depth := 7 } [.square, .round, .square] (by decide) hsize).2
    (by decide)
  rw [hsource] at hread hfails
  exact ⟨by decide, hsize, hsource, hread, hfails⟩

end

end Ysh
