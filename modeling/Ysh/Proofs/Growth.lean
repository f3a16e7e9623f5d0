import Ysh.Proofs.Grown
import Ysh.Proofs.Layout.Begins
import Ysh.Proofs.Parts
import Ysh.Proofs.Secured

/-!
# Growth

Every production grows trees of the kind that `Grown` describes, if the three
readers of its grammar do. The levels that a tree has to spare are those that its
reader may still open, so a production that opens a bracket hands down one fewer,
and its grammar makes do with that.

## Main definitions

* `Context.Grows`, `Context.GrowsInside`: A tree that may be grown in a context,
  or inside a bracket there.
* `Grows`, `GrowsEach`, `GrowsAny`: A reader grows trees, lists or options.
* `Grammar.Growing`: The three readers of a grammar grow trees.

## Theorems

* `Grammar.grows_statementList`, `Grammar.grows_expressionBody`,
  `Grammar.grows_expansionBody`: The three readers over a grammar.
* `Grammar.growing_turns`: The readers of YSH grow trees.
* `grows_readProgram`, `grown_parse`: The statements of a program are grown.
-/

namespace Ysh

/-- A tree that may be grown in a context, from the source of the parse and with
    errors only if it is not quiet in the end. -/
def Context.Grows (R : Reading) (ctx : Context) {c : Category} (t : Tree c) : Prop :=
  Grown ⟨R.source, ¬ Quiet ctx.limits R.diagnostics⟩ ctx.room ctx.definition t

/-- A tree that may be grown inside a bracket, which costs a level. -/
def Context.GrowsInside (R : Reading) (ctx : Context) {c : Category} (t : Tree c) : Prop :=
  0 < ctx.room ∧ Grown ⟨R.source, ¬ Quiet ctx.limits R.diagnostics⟩ (ctx.room - 1) ctx.definition t

theorem Context.GrowsInside.grows {R : Reading} {ctx : Context} {c : Category}
    {t : Tree c} (h : ctx.GrowsInside R t) : ctx.Grows R t :=
  h.2.mono (Nat.sub_le _ _)

section

variable {m : Type → Type} [Monad m] [MonadStateOf State m] [Reads m] {c : Category}

/-- The trees that a reader grows may be grown where it stands. -/
def Grows (R : Reading) (x : m (Tree c)) : Prop :=
  ∀ ctx s, Secures R x ctx s fun t _ => ctx.Grows R t

/-- A reader of lists grows each of their trees. -/
def GrowsEach (R : Reading) (x : m (List (Tree c))) : Prop :=
  ∀ ctx s, Secures R x ctx s fun ts _ => ∀ t ∈ ts, ctx.Grows R t

/-- A reader of options grows the tree, if there is any. -/
def GrowsAny (R : Reading) (x : m (Option (Tree c))) : Prop :=
  ∀ ctx s, Secures R x ctx s fun o _ => ∀ t, o = some t → ctx.Grows R t

variable {R : Reading}

theorem growsEach_collect {x : m (Option (Tree c))} [Moving x] (h : GrowsAny R x) :
    GrowsEach R (collect x) :=
  fun ctx _ => secures_collect fun s => h ctx s

end

theorem growsEach_commaSeparated {R : Reading} {c : Category}
    {ends : Token.Kind → Bool} {item : Parse (Tree c)} [Stepwise item] (h : Grows R item) :
    GrowsEach R (commaSeparated ends item) := by
  intro ctx s
  refine secures_seq (secures_loop (I := fun ts : Array (Tree c) =>
    ∀ t ∈ ts.toList, ctx.Grows R t) (by simp) fun ts s1 hts => ?_) fun ts s1 hts =>
      secures_pure fun _ => hts
  refine secures_skip fun kind s2 => ?_
  refine secures_ite (fun _ => secures_pure fun _ => hts) fun _ => ?_
  refine secures_seq (h ctx s2) fun t s3 ht => ?_
  have hpush : ∀ u ∈ (ts.push t).toList, ctx.Grows R u := by
    intro u hu
    rw [Array.toList_push, List.mem_append, List.mem_singleton] at hu
    rcases hu with hu | rfl
    · exact hts u hu
    · exact ht
  refine secures_skip fun next s4 => secures_ite (fun _ => ?_) fun _ => ?_
  · exact secures_skip fun _ s5 => secures_pure fun _ => hpush
  · exact secures_pure fun _ => hpush

namespace Grown

variable {soil : Soil} {n : Nat} {d : Option Definition} {c : Category}

theorem ofList {ts : List (Tree c)} (h : ∀ t ∈ ts, Grown soil n d t) :
    Grown soil n d (.ofList ts) := by
  induction ts with
  | nil => exact .nil
  | cons t ts ih => exact .cons (h t (by simp)) (ih fun u hu => h u (by simp [hu]))

theorem ofOption {o : Option (Tree c)} (h : ∀ t, o = Option.some t → Grown soil n d t) :
    Grown soil n d (.ofOption o) := by
  cases o with
  | none => exact .none
  | some t => exact .some (h t rfl)

/-- Bare text holds nothing, so pushing it grows nothing. -/
theorem pushBare (x : Char) (offset : Nat) {parts : List WordPart}
    (h : ∀ p ∈ parts, Grown soil n d p) : ∀ p ∈ Tree.pushBare x offset parts, Grown soil n d p := by
  rcases Tree.pushBare_eq x offset parts with ⟨front, run, span, rfl, -, heq⟩ | heq
  · rw [heq]
    intro p hp
    rcases List.mem_append.1 hp with hp | hp
    · exact h p (List.mem_append_left _ hp)
    · rw [List.mem_singleton.1 hp]
      exact .bare
  · rw [heq]
    intro p hp
    rcases List.mem_append.1 hp with hp | hp
    · exact h p hp
    · rw [List.mem_singleton.1 hp]
      exact .bare

theorem pushText (text : List Char) (offset : Nat) {parts : List WordPart}
    (h : ∀ p ∈ parts, Grown soil n d p) :
    ∀ p ∈ Tree.pushText parts text offset, Grown soil n d p := by
  refine Tree.pushText_induction (I := fun _ _ parts => ∀ p ∈ parts, Grown soil n d p)
    (fun x _ offset _ h => pushBare x offset h) (fun x _ offset parts h p hp => ?_) h
  rcases List.mem_append.1 hp with hp | hp
  · exact h p hp
  · rw [List.mem_singleton.1 hp]
    exact .escaped

theorem ofParts {parts : List WordPart} (h : ∀ p ∈ parts, Grown soil n d p) :
    Grown soil n d (Tree.ofParts parts) :=
  .word (ofList h)

/-- A name that stands alone is no reserved word. -/
theorem referenceName {e : Expression} {name : Identifier} (h : Grown soil n d e)
    (he : e.referenceName? = Option.some name) : isReserved name.name = false := by
  cases h with
  | reference hr =>
      cases he
      exact hr
  | _ => cases he

theorem partToArgument {part : WordPart} (h : Grown soil n d part) :
    Grown soil n d part.partToArgument := by
  have hword : ∀ span, Grown soil n d (.wordArgument (.word (.cons part .nil) span)) :=
    fun span => .wordArgument (.word (.cons h .nil))
  cases h with
  | bare =>
      unfold Tree.partToArgument
      dsimp only
      repeat' split
      · next hdigits =>
          exact .literalArgument (.number (Numeral.spelled_of_digits hdigits.1 hdigits.2 _))
      · exact .literalArgument .boolean
      · exact .literalArgument .boolean
      · exact hword _
  | escaped => exact hword _
  | stringPart hs => exact .literalArgument (.stringLiteral hs)
  | expansionPart he => exact .expansionArgument he

/-- A word is an argument as its parts are. -/
theorem toArgument {w : Word} (h : Grown soil n d w) : Grown soil n d w.toArgument := by
  cases h with
  | word hparts =>
      cases hparts with
      | nil => exact .wordArgument (.word .nil)
      | cons hpart hparts =>
          cases hparts with
          | nil => exact partToArgument hpart
          | cons hnext hparts => exact .wordArgument (.word (.cons hpart (.cons hnext hparts)))

end Grown

namespace Grammar

/-- The three readers of a grammar grow trees. -/
structure Growing (R : Reading) (g : Grammar) : Prop where
  /-- An expression is nested itself, and so has a level less to spare. -/
  inside (ctx : Context) (s : State) :
    Secures R g.expression ctx s fun e _ => ctx.GrowsInside R e
  statements (closer : Option Token.Kind) : GrowsEach R (g.statements closer)
  expansion (opener : Opener) (token : Token) : Grows R (g.expansion opener token)

variable {g : Grammar} {R : Reading}

theorem Growing.expression (hg : g.Growing R) : Grows R g.expression :=
  fun ctx s => (hg.inside ctx s).mono fun _ _ he => he.grows

theorem secures_bindingName {ctx : Context} {s : State} :
    Secures R bindingName ctx s fun name _ => isReserved name.name = false := by
  refine secures_skip fun token s1 => ?_
  refine secures_ite (fun _ => ?_) fun _ => secures_throw
  refine secures_ite (fun _ => ?_) fun hr => ?_
  · exact secures_throw_bind
  · refine secures_skip fun _ s2 => secures_pure fun _ => ?_
    exact Bool.eq_false_iff.2 hr

variable [g.Stepwise] (hg : g.Growing R)
include hg

/-! ## Words, strings and expansions -/

theorem grows_stringBody (style : StringStyle) (triple : Bool) (opening : Span) :
    Grows R (g.stringBody style triple opening) := by
  intro ctx s
  refine secures_seq (secures_loop (I := fun fragments : Array Fragment =>
    ∀ f ∈ fragments.toList, ctx.Grows R f) (by simp) fun fragments s1 hi => ?_) ?_
  · have hpush : ∀ f, ctx.Grows R f → ∀ u ∈ (fragments.push f).toList, ctx.Grows R u := by
      intro f hf u hu
      rw [Array.toList_push, List.mem_append, List.mem_singleton] at hu
      rcases hu with hu | rfl
      · exact hi u hu
      · exact hf
    have hpiece := moving_raw (Cursor.piece_after style triple opening)
    refine Moving.secures_skip (fun _ => by
        repeat' first | infer_instance | split | refine Moving.bind inferInstance fun _ => ?_)
      fun p s2 => ?_
    rcases p with e | (_ | _ | _ | ⟨opener, token⟩ | _)
    · exact secures_skip fun _ s3 => secures_pure fun _ => hi
    · exact secures_pure fun _ => hpush _ .text
    · exact secures_pure fun _ => hpush _ .escape
    · exact secures_skip fun _ s3 => secures_pure fun _ => hpush _ .text
    · refine Moving.secures_seq (fun _ => by split <;> infer_instance)
        (secures_attempt (hg.expansion opener token ctx s2)) fun r s3 hr => ?_
      cases r with
      | error e => exact secures_skip fun _ s4 => secures_pure fun _ => hi
      | ok e => exact secures_pure fun _ => hpush _ (.expansionFragment (hr e rfl))
    · exact secures_pure fun _ => hi
  · intro fragments s1 hi
    exact secures_skip fun stop s2 => secures_pure fun _ => .string (.ofList hi)

theorem grows_pushPiece (token : Token) (ctx : Context) (s : State) {parts : List WordPart}
    (h : ∀ p ∈ parts, ctx.Grows R p) :
    Secures R (g.pushPiece token parts) ctx s fun parts _ => ∀ p ∈ parts, ctx.Grows R p := by
  have happend : ∀ p, ctx.Grows R p → ∀ q ∈ parts ++ [p], ctx.Grows R q := by
    intro p hp q hq
    rcases List.mem_append.1 hq with hq | hq
    · exact h q hq
    · rw [List.mem_singleton.1 hq]
      exact hp
  unfold pushPiece
  split
  · refine secures_seq (grows_stringBody hg _ _ _ ctx s) fun t s1 ht => secures_pure fun _ => ?_
    exact happend _ (.stringPart ht)
  · refine secures_seq (hg.expansion _ token ctx s) fun e s1 he => secures_pure fun _ => ?_
    exact happend _ (.expansionPart he)
  · exact secures_pure fun _ => Grown.pushText _ _ h

theorem grows_wordParts (continuing : Bool) (ctx : Context) (s : State) {parts : List WordPart}
    (h : ∀ p ∈ parts, ctx.Grows R p) :
    Secures R (g.wordParts parts continuing) ctx s fun parts _ =>
      ∀ p ∈ parts, ctx.Grows R p := by
  refine secures_seq (secures_loop (I := fun a : List WordPart × Bool =>
    ∀ p ∈ a.1, ctx.Grows R p) h fun a s1 ha => ?_) fun a s1 ha => secures_pure fun _ => ha
  refine secures_skip fun token s2 => ?_
  refine secures_ite (fun _ => secures_pure fun _ => ha) fun _ => ?_
  refine secures_skip fun _ s3 => ?_
  exact secures_seq (grows_pushPiece hg token ctx s3 ha) fun parts s4 hp =>
    secures_pure fun _ => hp

theorem grows_word : Grows R g.word := by
  intro ctx s
  refine secures_seq (grows_wordParts hg false ctx s (by simp)) fun parts s1 hp => ?_
  refine secures_ite (fun _ => secures_unexpected) fun _ => secures_pure fun _ => ?_
  exact .ofParts hp

theorem grows_bracedDefault : GrowsAny R g.bracedDefault := by
  intro ctx s
  refine secures_skip fun marked s1 => ?_
  refine secures_ite (fun _ => ?_) fun _ => secures_none
  refine secures_skip fun start s2 => secures_skip fun closes s3 => ?_
  refine secures_ite (fun _ => secures_pure fun _ w h => ?_) fun _ => ?_
  · cases h
    exact .word .nil
  · refine secures_seq (grows_word hg ctx s3) fun w s4 hw => secures_pure fun _ u h => ?_
    cases h
    exact hw

theorem grows_bracedBody (opener : Token) : Grows R (g.bracedBody opener) := by
  intro ctx s
  refine Moving.secures_skip (fun _ => by split <;> infer_instance) fun name s1 => ?_
  rcases name with _ | ⟨name, span⟩
  · exact secures_unexpected
  · refine secures_seq (grows_bracedDefault hg ctx s1) fun default s2 hd => ?_
    refine secures_skip fun _ s3 => secures_skip fun stop s4 => secures_pure fun _ => ?_
    exact .braced (.ofOption hd)

theorem grows_enclosed (closer : Token.Kind) (opening : Span) (ctx : Context) (s : State) :
    Secures R (g.enclosed closer opening) ctx s fun e _ => ctx.GrowsInside R e := by
  refine secures_bracketed fun hd => ?_
  refine secures_seq (hg.expression _ s) fun e s1 he => ?_
  exact secures_skip fun _ s2 => secures_pure fun _ => ⟨Nat.sub_pos_of_lt hd, he⟩

theorem grows_parenthesized (ctx : Context) (s : State) :
    Secures R g.parenthesized ctx s fun e _ => ctx.GrowsInside R e :=
  secures_skip fun opening s1 => grows_enclosed hg .rightParen opening.span ctx s1

omit [g.Stepwise] in
theorem grows_body (closer : Token.Kind) (ctx : Context) (s : State) :
    Secures R (g.body closer) ctx s fun ts _ => 0 < ctx.room ∧ ∀ t ∈ ts, ctx.GrowsInside R t := by
  refine secures_nested fun hd => secures_lift ?_
  have hroom : 0 < ctx.room := Nat.sub_pos_of_lt hd
  intro hon ts s' hts hD
  have h := hg.statements (some closer)
    { ctx with depth := ctx.depth + 1, inBrackets := false } s hon ts s' hts hD
  exact ⟨hroom, fun t ht => ⟨hroom, h t ht⟩⟩

/-- An expansion over a grammar that grows trees. -/
theorem grows_expansionBody (opener : Opener) (token : Token) :
    Grows R (g.expansionBody opener token) := by
  intro ctx s
  cases opener with
  | name => exact secures_pure fun _ => .simple
  | splice => exact secures_pure fun _ => .splice
  | brace => exact grows_bracedBody hg token ctx s
  | bracket sigil =>
      refine secures_seq (grows_enclosed hg .rightBracket token.span ctx s) fun e s1 he => ?_
      exact secures_skip fun stop s2 => secures_pure fun _ => .indexed he.1 he.2
  | paren sigil =>
      refine secures_seq (grows_body hg .rightParen ctx s) fun ts s1 hts => ?_
      refine secures_skip fun _ s2 => secures_skip fun stop s3 => secures_pure fun _ => ?_
      exact .substitution hts.1 (.ofList fun t ht => (hts.2 t ht).2)

/-! ## Expressions -/

theorem grows_namedArgument : Grows R g.namedArgument := by
  intro ctx s
  refine secures_seq secures_bindingName fun name s1 hn => secures_skip fun _ s2 => ?_
  refine secures_seq (hg.expression ctx s2) fun value s3 hv => secures_pure fun _ => ?_
  exact .namedArgument hn hv

theorem growsEach_namedArguments : GrowsEach R g.namedArguments := by
  intro ctx s
  refine secures_skip fun kind s1 => secures_ite (fun _ => ?_) fun _ => ?_
  · refine secures_skip fun _ s2 => ?_
    exact growsEach_commaSeparated (grows_namedArgument hg) ctx s2
  · exact secures_pure fun _ => by simp

theorem grows_argumentList : Grows R g.argumentList := by
  intro ctx s
  refine secures_skip fun opening s1 => secures_bracketed fun hd => ?_
  refine secures_seq (growsEach_commaSeparated hg.expression _ s1) fun positional s2 hp => ?_
  refine secures_seq (growsEach_namedArguments hg _ s2) fun named s3 hn => ?_
  refine secures_skip fun _ s4 => secures_skip fun stop s5 => secures_pure fun _ => ?_
  exact .argumentList (Nat.sub_pos_of_lt hd) (.ofList hp) (.ofList hn)

theorem grows_listBody (opening : Span) : Grows R (g.listBody opening) := by
  intro ctx s
  refine secures_bracketed fun hd => ?_
  refine secures_seq (growsEach_commaSeparated hg.expression _ s) fun elements s1 he => ?_
  refine secures_skip fun _ s2 => secures_skip fun stop s3 => secures_pure fun _ => ?_
  exact .list (Nat.sub_pos_of_lt hd) (.ofList he)

theorem grows_dictKey : Grows R g.dictKey := by
  intro ctx s
  refine Moving.secures_skip (fun _ => by split <;> infer_instance) fun token s1 => ?_
  split
  · refine secures_skip fun _ s2 => ?_
    refine secures_seq (grows_stringBody hg _ _ _ ctx s2) fun t s3 ht => secures_pure fun _ => ?_
    exact .stringKey ht
  · refine secures_skip fun _ s2 => ?_
    refine secures_seq (hg.inside ctx s2) fun e s3 he => ?_
    exact secures_skip fun _ s4 => secures_pure fun _ => .expressionKey he.1 he.2
  · exact secures_skip fun name s2 => secures_pure fun _ => .nameKey

theorem grows_dictEntry : Grows R g.dictEntry := by
  intro ctx s
  refine secures_skip fun start s1 => ?_
  refine secures_seq (grows_dictKey hg ctx s1) fun key s2 hk => secures_skip fun _ s3 => ?_
  refine secures_seq (hg.expression ctx s3) fun value s4 hv => secures_pure fun _ => ?_
  exact .dictEntry hk hv

theorem grows_dictBody (opening : Span) : Grows R (g.dictBody opening) := by
  intro ctx s
  refine secures_bracketed fun hd => ?_
  refine secures_seq (growsEach_commaSeparated (grows_dictEntry hg) _ s) fun entries s1 he => ?_
  refine secures_skip fun _ s2 => secures_skip fun stop s3 => secures_pure fun _ => ?_
  exact .dict (Nat.sub_pos_of_lt hd) (.ofList he)

theorem grows_wordListBody (opening : Span) : Grows R (g.wordListBody opening) := by
  intro ctx s
  refine secures_seq (secures_loop (I := fun words : Array Word =>
    ∀ w ∈ words.toList, ctx.Grows R w) (by simp) fun words s1 hi => ?_) ?_
  · refine secures_skip fun token s2 => ?_
    refine secures_ite (fun _ => secures_skip fun _ s3 => secures_pure fun _ => hi) fun _ => ?_
    refine secures_ite (fun _ => secures_skip fun _ s3 => secures_pure fun _ => hi) fun _ => ?_
    refine secures_ite (fun _ => secures_skip fun _ s3 => secures_pure fun _ => hi) fun _ => ?_
    refine secures_ite (fun _ => ?_) fun _ => secures_unexpected
    refine secures_seq (grows_word hg ctx s2) fun w s3 hw => secures_pure fun _ => ?_
    intro u hu
    simp only [Round.value, Array.toList_push, List.mem_append, List.mem_singleton] at hu
    rcases hu with hu | rfl
    · exact hi u hu
    · exact hw
  · intro words s1 hi
    exact secures_skip fun stop s2 => secures_pure fun _ => .wordList (.ofList hi)

theorem grows_primary : Grows R g.primary := by
  intro ctx s
  refine secures_peek ?_
  have hnumber : (s.next .expression ctx).kind = .number → ∀ span,
      (Numeral.ofText (s.next .expression ctx).text span).Spelled := Numeral.spelled_of_lookahead
  generalize s.next .expression ctx = token at hnumber ⊢
  split
  · next hkind =>
      refine secures_skip fun _ s2 => secures_pure fun _ => ?_
      exact .literalExpression (.number (hnumber hkind token.span))
  · exact secures_skip fun _ s2 => secures_pure fun _ => .literalExpression .boolean
  · exact secures_skip fun _ s2 => secures_pure fun _ => .literalExpression .boolean
  · exact secures_skip fun _ s2 => secures_pure fun _ => .literalExpression .null
  · refine secures_skip fun _ s2 => ?_
    refine secures_seq (grows_stringBody hg _ _ _ ctx s2) fun t s3 ht => secures_pure fun _ => ?_
    exact .literalExpression (.stringLiteral ht)
  · exact secures_skip fun _ s2 => secures_pure fun _ => .literalExpression .character
  · refine secures_ite (fun _ => ?_) fun hr => ?_
    · exact secures_throw_bind
    · exact secures_skip fun _ s2 => secures_pure fun _ => .reference (Bool.eq_false_iff.2 hr)
  · refine secures_skip fun _ s2 => (grows_enclosed hg _ _ ctx s2).mono fun e s3 he => ?_
    exact he.grows
  · refine secures_skip fun _ s2 => ?_
    refine secures_seq (grows_listBody hg _ ctx s2) fun l s3 hl => secures_pure fun _ => ?_
    exact .literalExpression hl
  · refine secures_skip fun _ s2 => ?_
    refine secures_seq (grows_dictBody hg _ ctx s2) fun l s3 hl => secures_pure fun _ => ?_
    exact .literalExpression hl
  · refine secures_skip fun _ s2 => secures_skip fun e s3 => secures_pure fun _ => ?_
    exact .literalExpression .eggexLiteral
  · refine secures_skip fun _ s2 => ?_
    refine secures_seq (grows_wordListBody hg _ ctx s2) fun l s3 hl => secures_pure fun _ => ?_
    exact .literalExpression hl
  · refine secures_skip fun _ s2 => ?_
    refine secures_seq (hg.expansion _ token ctx s2) fun e s3 he => secures_pure fun _ => ?_
    exact .expansionExpression he
  · exact secures_throw

theorem grows_postfixStep (e : Expression) (ctx : Context) (s : State) (he : ctx.Grows R e) :
    Secures R (g.postfixStep e) ctx s fun r _ => ctx.Grows R r.value := by
  refine Moving.secures_skip (fun _ => by
      repeat' first | infer_instance | split)
    fun kind s1 => ?_
  split
  · refine secures_skip fun _ s2 => secures_skip fun name s3 => secures_skip fun next s4 => ?_
    refine secures_ite (fun _ => ?_) fun _ => secures_pure fun _ => .member he
    refine secures_seq (grows_argumentList hg ctx s4) fun a s5 ha => secures_pure fun _ => ?_
    exact .methodCall he ha
  · refine secures_skip fun _ s2 => secures_skip fun name s3 => secures_skip fun next s4 => ?_
    refine secures_ite (fun _ => secures_unexpected) fun _ => ?_
    refine secures_seq (grows_argumentList hg ctx s4) fun a s5 ha => secures_pure fun _ => ?_
    exact .methodCall he ha
  · refine secures_skip fun opening s2 => ?_
    refine secures_seq (grows_enclosed hg _ _ ctx s2) fun i s3 hi => ?_
    exact secures_skip fun stop s4 => secures_pure fun _ => .index hi.1 he hi.2
  · split
    · case h_1 name hname =>
        refine secures_seq (grows_argumentList hg ctx s1) fun a s2 ha => secures_pure fun _ => ?_
        exact .functionCall (he.referenceName hname) ha
    · exact secures_pure fun _ => he
  · exact secures_pure fun _ => he

theorem grows_postfixed : Grows R g.postfixed := by
  intro ctx s
  refine secures_seq (grows_primary hg ctx s) fun e s1 he => ?_
  exact secures_loop he fun e s he => grows_postfixStep hg e ctx s he

theorem grows_unary : Grows R g.unary := by
  intro ctx s
  refine Moving.secures_skip (fun _ => by split <;> infer_instance) fun kind s1 => ?_
  split
  · refine secures_skip fun token s2 => ?_
    refine secures_seq (grows_postfixed hg ctx s2) fun e s3 he => secures_pure fun _ => ?_
    exact .unary he
  · exact grows_postfixed hg ctx s1

theorem grows_levels (table : List (List BinaryOperator)) : Grows R (g.levels table) := by
  induction table with
  | nil => exact grows_unary hg
  | cons level tighter ih =>
      intro ctx s
      refine secures_seq (ih ctx s) fun first s1 hfirst => ?_
      refine secures_loop hfirst fun left s2 hleft =>
        Moving.secures_skip (fun _ => by split <;> infer_instance) fun kind s3 => ?_
      split
      · refine secures_ite (fun _ => ?_) fun _ => secures_pure fun _ => hleft
        refine secures_skip fun _ s4 => ?_
        exact secures_seq (ih ctx s4) fun right s5 hright => secures_pure fun _ =>
          .binary hleft hright
      · exact secures_pure fun _ => hleft

/-- An expression over a grammar that grows trees. -/
theorem grows_expressionBody (ctx : Context) (s : State) :
    Secures R g.expressionBody ctx s fun e _ => ctx.GrowsInside R e :=
  secures_nested fun hd => (grows_levels hg precedenceTable _ s).mono fun _ _ he =>
    ⟨Nat.sub_pos_of_lt hd, he⟩

/-! ## Declarations -/

theorem grows_nameAndValue (ctx : Context) (s : State) :
    Secures R g.nameAndValue ctx s fun r _ =>
      isReserved r.1.name = false ∧ ctx.Grows R r.2 := by
  refine secures_seq secures_bindingName fun name s1 hn => secures_skip fun _ s2 => ?_
  exact secures_seq (hg.expression ctx s2) fun value s3 hv => secures_pure fun _ => ⟨hn, hv⟩

theorem grows_variableDeclaration : Grows R g.variableDeclaration := by
  intro ctx s
  refine secures_skip fun keyword s1 => ?_
  refine secures_seq (grows_nameAndValue hg ctx s1) fun r s2 hr => ?_
  exact secures_pure fun _ => .declaration hr.1 hr.2

theorem grows_constantDeclaration : Grows R g.constantDeclaration := by
  intro ctx s
  refine secures_skip fun keyword s1 => ?_
  refine secures_seq (grows_nameAndValue hg ctx s1) fun r s2 hr => ?_
  exact secures_pure fun _ => .constant hr.1 hr.2

/-- The word in front of the `=` is the name, so it must be none that is reserved. -/
theorem grows_shorthandConstant (ctx : Context) (s : State)
    (hname : isReserved (s.next .command ctx).text = false) :
    Secures R g.shorthandConstant ctx s fun t _ => ctx.Grows R t := by
  refine secures_seq (secures_lift ensures_advance.secures) fun name s1 hn => ?_
  refine secures_skip fun _ s2 => ?_
  refine secures_seq (hg.expression ctx s2) fun value s3 hv => secures_pure fun _ => ?_
  subst hn
  exact .constant hname hv

omit [g.Stepwise] hg in
theorem secures_startsShorthand {ctx : Context} {s : State} :
    Secures R startsShorthand ctx s fun _ s' => s' = s := by
  have hsecond : Secures R secondToken ctx s fun _ s' => s' = s := ensures_ahead.secures
  unfold startsShorthand
  exact secures_seq hsecond fun second s1 hs => secures_pure fun _ => hs

theorem grows_accessor : GrowsAny R g.accessor := by
  intro ctx s
  refine Moving.secures_skip (fun _ => by split <;> infer_instance) fun kind s1 => ?_
  split
  · refine secures_skip fun dot s2 => secures_skip fun name s3 => secures_pure fun _ t ht => ?_
    cases ht
    exact .memberAccessor
  · refine secures_skip fun opening s2 => ?_
    refine secures_seq (grows_enclosed hg _ _ ctx s2) fun e s3 he => ?_
    refine secures_skip fun stop s4 => secures_pure fun _ t ht => ?_
    cases ht
    exact .indexAccessor he.1 he.2
  · exact secures_none

theorem grows_assignment (scope : AssignmentScope) : Grows R (g.assignment scope) := by
  intro ctx s
  refine secures_skip fun keyword s1 => ?_
  refine secures_seq secures_bindingName fun name s2 hn => ?_
  refine secures_seq (growsEach_collect (grows_accessor hg) ctx s2) fun steps s3 hs => ?_
  refine secures_skip fun op s4 => ?_
  refine secures_seq (hg.expression ctx s4) fun value s5 hv => secures_pure fun _ => ?_
  exact .assignment hn (.ofList hs) hv

/-! ## Commands -/

theorem grows_block : Grows R g.block := by
  intro ctx s
  refine secures_skip fun opening s1 => ?_
  refine secures_seq (grows_body hg .rightBrace ctx s1) fun ts s2 hts => ?_
  have hblock : ∀ span s3, Secures R (pure (.block (.ofList ts) span) : Parse Block) ctx s3
      fun b _ => ctx.Grows R b :=
    fun span s3 => secures_pure fun _ => .block hts.1 (.ofList fun t ht => (hts.2 t ht).2)
  refine secures_skip fun stop s3 => secures_ite (fun _ => ?_) fun _ => hblock _ s3
  exact secures_skip fun _ s4 => hblock _ s4

theorem grows_envBinding : GrowsAny R g.envBinding := by
  intro ctx s
  refine Moving.secures_skip (fun _ => by
      repeat' first | infer_instance | split)
    fun token s1 => secures_ite (fun _ => secures_none) fun _ => ?_
  split
  · refine secures_skip fun _ s2 => ?_
    refine secures_seq (grows_wordParts hg true ctx s2 (Grown.pushText _ _ (by simp)))
      fun parts s3 hp => secures_pure fun _ t ht => ?_
    cases ht
    refine .envBinding ?_
    split
    · exact .word .nil
    · exact .ofParts hp
  · exact secures_none

theorem grows_redirection (descriptor : Option Nat) (start : Nat) (op : RedirectionOperator) :
    Grows R (g.redirection descriptor start op) := by
  intro ctx s
  refine secures_skip fun _ s1 => secures_skip fun target s2 => ?_
  refine secures_ite (fun _ => ?_) fun _ => ?_
  · exact secures_throw_bind
  · refine secures_seq (grows_word hg ctx s2) fun w s3 hw => secures_pure fun _ => ?_
    exact .redirection hw

theorem grows_anyRedirection : GrowsAny R g.anyRedirection := by
  intro ctx s
  have hsome : ∀ descriptor start op s, Secures R
      (do return some (← g.redirection descriptor start op)) ctx s fun o _ =>
        ∀ t, o = some t → ctx.Grows R t := by
    intro descriptor start op s
    refine secures_seq (grows_redirection hg _ _ _ ctx s) fun r s1 hr => ?_
    refine secures_pure fun _ t ht => ?_
    cases ht
    exact hr
  refine Moving.secures_skip (fun _ => by split <;> infer_instance) fun token s1 => ?_
  split
  · exact hsome _ _ _ s1
  · refine Moving.secures_skip (fun _ => by
        repeat' first | infer_instance | split | refine Moving.bind inferInstance fun _ => ?_)
      fun token s2 => secures_ite (fun _ => secures_none) fun _ => ?_
    split
    · refine Moving.secures_skip (fun _ => by
          repeat' first | infer_instance | split)
        fun next s3 => ?_
      split
      · refine secures_ite (fun _ => secures_none) fun _ => secures_skip fun _ s4 => ?_
        refine secures_ite (fun _ => ?_) fun _ => hsome _ _ _ s4
        exact secures_throw_bind
      · exact secures_none
    · exact secures_none

theorem grows_argument : GrowsAny R g.argument := by
  intro ctx s
  refine Moving.secures_skip (fun _ => by
      repeat' first | infer_instance | split | refine Moving.bind inferInstance fun _ => ?_)
    fun kind s1 => ?_
  refine secures_ite (fun _ => secures_none) fun _ => ?_
  refine secures_ite (fun _ => secures_unexpected) fun _ => ?_
  refine Moving.secures_seq (fun _ => by split <;> infer_instance)
    (grows_anyRedirection hg ctx s1) fun r s2 hr => ?_
  cases r with
  | some r =>
      refine secures_pure fun _ t ht => ?_
      cases ht
      exact .redirectionArgument (hr r rfl)
  | none =>
      refine secures_seq (grows_word hg ctx s2) fun w s3 hw => secures_pure fun _ t ht => ?_
      cases ht
      exact hw.toArgument

theorem grows_callArguments : GrowsAny R g.callArguments := by
  intro ctx s
  refine secures_skip fun token s1 => ?_
  refine secures_ite (fun _ => secures_none) fun _ => ?_
  have hlist : ∀ s, Secures R (do return some (← g.argumentList)) ctx s fun o _ =>
      ∀ t, o = some t → ctx.Grows R t := by
    intro s
    refine secures_seq (grows_argumentList hg ctx s) fun a s2 ha => secures_pure fun _ t ht => ?_
    cases ht
    exact ha
  exact secures_ite (fun _ => secures_skip fun _ s2 => hlist s2) fun _ => hlist s1

theorem grows_commandName (ctx : Context) (s : State) :
    Secures R g.commandName ctx s fun name _ => ctx.Grows R name ∧
      ∀ text, name.bareText? = some text → isReserved text = false := by
  refine Moving.secures_seq (fun _ => by split <;> infer_instance)
    (grows_word hg ctx s) fun name s1 hn => ?_
  split
  · case h_1 text htext =>
      refine secures_ite (fun _ => secures_throw) fun hr => secures_pure fun _ => ⟨hn, ?_⟩
      intro text' htext'
      rw [htext] at htext'
      cases htext'
      exact Bool.eq_false_iff.2 hr
  · case h_2 htext =>
      refine secures_pure fun _ => ⟨hn, fun text h => ?_⟩
      rw [htext] at h
      cases h

theorem growsEach_envBindings (start : Nat) : GrowsEach R (g.envBindings start) := by
  intro ctx s
  refine secures_seq (growsEach_collect (grows_envBinding hg) ctx s) fun bindings s1 hb => ?_
  refine secures_skip fun kind s2 => secures_ite (fun _ => ?_) fun _ => secures_pure fun _ => hb
  exact secures_skip fun stop s3 => secures_throw

theorem grows_callBlock (allowsBlock : Bool) (ctx : Context) (s : State) :
    Secures R (g.callBlock allowsBlock) ctx s fun r _ =>
      (∀ b, r.1 = some b → ctx.Grows R b) ∧ ∀ t ∈ r.2, ctx.Grows R t := by
  refine secures_skip fun kind s1 => secures_ite (fun _ => ?_) fun _ => ?_
  · refine secures_seq (grows_block hg ctx s1) fun b s2 hb => ?_
    refine secures_seq (growsEach_collect (grows_anyRedirection hg) ctx s2) fun rs s3 hr => ?_
    refine secures_pure fun _ => ⟨fun t ht => ?_, hr⟩
    cases ht
    exact hb
  · exact secures_pure fun _ => ⟨fun t ht => (nomatch ht), by simp⟩

theorem grows_commandCall (allowsBlock : Bool) : Grows R (g.commandCall allowsBlock) := by
  intro ctx s
  refine secures_skip fun start s1 => secures_skip fun negated s2 => ?_
  refine secures_seq (growsEach_envBindings hg _ ctx s2) fun bindings s3 hb => ?_
  refine secures_seq (grows_commandName hg ctx s3) fun name s4 hn => ?_
  refine secures_seq (growsEach_collect (grows_argument hg) ctx s4) fun arguments s5 ha => ?_
  refine secures_seq (grows_callArguments hg ctx s5) fun callArguments s6 hc => ?_
  refine secures_seq (grows_callBlock hg allowsBlock ctx s6) fun r s7 hr => ?_
  refine secures_skip fun stop s8 => secures_pure fun _ => ?_
  exact .commandCall hn.2 (.ofList hb) hn.1 (.ofList ha) (.ofOption hc) (.ofOption hr.1)
    (.ofList hr.2)

/-! ## Definitions -/

theorem grows_parameter : Grows R g.parameter := by
  intro ctx s
  refine secures_seq secures_bindingName fun name s1 hn => secures_skip fun kind s2 => ?_
  refine secures_ite (fun _ => secures_skip fun _ s3 => ?_) fun _ => ?_
  · refine secures_seq (hg.expression ctx s3) fun value s4 hv => secures_pure fun _ => ?_
    exact .parameter hn (.some hv)
  · exact secures_pure fun _ => .parameter hn .none

omit hg in
theorem grows_restParameter (allowed : Bool) : Grows R (restParameter allowed) := by
  intro ctx s
  refine secures_skip fun dots s1 => secures_ite (fun _ => ?_) fun _ => ?_
  · exact secures_throw_bind
  · refine secures_seq secures_bindingName fun name s2 hn => ?_
    exact secures_skip fun _ s3 => secures_pure fun _ => .parameter hn .none

theorem grows_parameterGroup (allowsRest : Bool) : Grows R (g.parameterGroup allowsRest) := by
  intro ctx s
  refine secures_skip fun start s1 => ?_
  refine secures_seq (secures_loop (I := fun a : Array Parameter × Option Parameter =>
    (∀ p ∈ a.1.toList, ctx.Grows R p) ∧ ∀ p, a.2 = some p → ctx.Grows R p) ?_ ?_) ?_
  · exact ⟨by simp, fun p hp => nomatch hp⟩
  · intro a s2 ha
    refine secures_skip fun kind s3 => ?_
    refine secures_ite (fun _ => secures_pure fun _ => ha) fun _ => secures_ite (fun _ => ?_) ?_
    · refine secures_seq (grows_restParameter allowsRest ctx s3) fun p s4 hp => ?_
      refine secures_pure fun _ => ⟨ha.1, fun q hq => ?_⟩
      cases hq
      exact hp
    · intro _
      refine secures_seq (grows_parameter hg ctx s3) fun p s4 hp => ?_
      have hpush : ∀ q ∈ (a.1.push p).toList, ctx.Grows R q := by
        intro q hq
        rw [Array.toList_push, List.mem_append, List.mem_singleton] at hq
        rcases hq with hq | rfl
        · exact ha.1 q hq
        · exact hp
      refine secures_skip fun more s5 => ?_
      exact secures_ite (fun _ => secures_pure fun _ => ⟨hpush, ha.2⟩) fun _ =>
        secures_pure fun _ => ⟨hpush, ha.2⟩
  · intro a s2 ha
    refine secures_skip fun stop s3 => secures_pure fun _ => ?_
    exact .parameterGroup (.ofList ha.1) (.ofOption ha.2)

theorem grows_blockParameter : GrowsAny R g.blockParameter := by
  intro ctx s
  refine secures_skip fun token s1 => ?_
  refine secures_ite (fun _ => secures_none) fun _ => ?_
  refine secures_ite (fun _ => secures_throw) fun _ => ?_
  refine secures_seq (grows_parameter hg ctx s1) fun p s2 hp => secures_skip fun _ s3 => ?_
  refine secures_pure fun _ q hq => ?_
  cases hq
  exact hp

omit [g.Stepwise] hg in
theorem secures_nextTier {α : Type} {tier : Token → Parse α} [∀ token, Ysh.Stepwise (tier token)]
    {ctx : Context} {P : α → Prop} (h : ∀ token s, Secures R (tier token) ctx s fun a _ => P a)
    (s : State) : Secures R (nextTier tier) ctx s fun o _ => ∀ a, o = some a → P a := by
  refine secures_skip fun kind s1 => secures_ite (fun _ => ?_) fun _ => ?_
  · refine secures_skip fun token s2 => secures_seq (h token s2) fun a s3 ha => ?_
    refine secures_pure fun _ b hb => ?_
    cases hb
    exact ha
  · exact secures_none

theorem grows_funcTiers (opening : Span) (ctx : Context) (s : State) :
    Secures R (g.funcTiers opening) ctx s fun ps _ =>
      Grown ⟨R.source, ¬ Quiet ctx.limits R.diagnostics⟩ (ctx.room + 1) ctx.definition ps := by
  refine secures_seq (grows_parameterGroup hg true ctx s) fun positional s1 hp => ?_
  refine secures_seq (secures_nextTier (P := fun t => ctx.Grows R t) (fun separator s => ?_) s1)
    fun named s2 hn => ?_
  · refine secures_ite (fun _ => ?_) fun _ => grows_parameterGroup hg false ctx s
    exact secures_throw_bind
  · refine secures_skip fun _ s3 => secures_skip fun _ s4 => secures_skip fun stop s5 => ?_
    refine secures_pure fun _ => ?_
    exact .parameterList (Nat.succ_pos _) hp .none (.ofOption hn) .none

theorem grows_procTiers (opening : Span) (ctx : Context) (s : State) :
    Secures R (g.procTiers opening) ctx s fun ps _ =>
      Grown ⟨R.source, ¬ Quiet ctx.limits R.diagnostics⟩ (ctx.room + 1) ctx.definition ps := by
  have htier : ∀ allowsRest s, Secures R (nextTier fun _ => g.parameterGroup allowsRest) ctx s
      fun o _ => ∀ t, o = some t → ctx.Grows R t := fun allowsRest s =>
    secures_nextTier (fun _ s => grows_parameterGroup hg allowsRest ctx s) s
  refine secures_seq (grows_parameterGroup hg true ctx s) fun positional s1 hp => ?_
  refine secures_seq (htier true s1) fun typed s2 ht => ?_
  refine secures_seq (htier false s2) fun named s3 hn => ?_
  refine secures_seq (secures_nextTier (fun _ s => grows_blockParameter hg ctx s) s3)
    fun last s4 hl => ?_
  refine secures_skip fun _ s5 => secures_skip fun _ s6 => secures_skip fun stop s7 => ?_
  refine secures_pure fun _ => ?_
  refine .parameterList (Nat.succ_pos _) hp (.ofOption ht) (.ofOption hn) (.ofOption ?_)
  intro p hp
  rcases last with _ | last
  · cases hp
  · exact hl last rfl p hp

theorem grows_parameterList (kind : Definition) (opening : Span) :
    Grows R (g.parameterList kind opening) := by
  intro ctx s
  refine secures_bracketed fun hd => ?_
  have hroom : ctx.limits.depth - (ctx.depth + 1) + 1 ≤ ctx.room := by
    unfold Context.room
    omega
  cases kind with
  | func => exact (grows_funcTiers hg opening _ s).mono fun ps s1 h => h.mono hroom
  | proc => exact (grows_procTiers hg opening _ s).mono fun ps s1 h => h.mono hroom

theorem grows_definitionBody (kind : Definition) (ctx : Context) (s : State) :
    Secures R (g.definitionBody kind) ctx s fun b _ =>
      Grown ⟨R.source, ¬ Quiet ctx.limits R.diagnostics⟩ ctx.room (some kind) b :=
  grows_block hg { ctx with definition := some kind } s

theorem grows_funcDefinition : Grows R g.funcDefinition := by
  intro ctx s
  refine secures_skip fun keyword s1 => secures_seq secures_bindingName fun name s2 hn => ?_
  refine secures_skip fun opening s3 => ?_
  refine secures_seq (grows_parameterList hg .func _ ctx s3) fun parameters s4 hp => ?_
  refine secures_seq (grows_definitionBody hg .func ctx s4) fun body s5 hb => ?_
  exact secures_pure fun _ => .func hn hp hb

omit [g.Stepwise] hg in
theorem secures_procName {ctx : Context} {s : State} :
    Secures R procName ctx s fun name _ => isReserved name.name = false := by
  refine secures_skip fun token s1 => secures_ite (fun _ => ?_) fun _ => ?_
  · exact secures_throw_bind
  · refine secures_ite (fun _ => ?_) fun hr => ?_
    · exact secures_throw_bind
    · exact secures_skip fun _ s2 => secures_pure fun _ => Bool.eq_false_iff.2 hr

theorem grows_procParameters : GrowsAny R g.procParameters := by
  intro ctx s
  refine secures_skip fun kind s1 => secures_ite (fun _ => ?_) fun _ => ?_
  · refine secures_skip fun opening s2 => ?_
    refine secures_seq (grows_parameterList hg .proc _ ctx s2) fun ps s3 hp => ?_
    refine secures_pure fun _ t ht => ?_
    cases ht
    exact hp
  · exact secures_none

theorem grows_procDefinition : Grows R g.procDefinition := by
  intro ctx s
  refine secures_skip fun keyword s1 => secures_seq secures_procName fun name s2 hn => ?_
  refine secures_seq (grows_procParameters hg ctx s2) fun parameters s3 hp => ?_
  refine secures_seq (grows_definitionBody hg .proc ctx s3) fun body s4 hb => ?_
  exact secures_pure fun _ => .proc hn (.ofOption hp) hb

/-- Inside a definition, what is returned is of the kind that the definition
    returns. -/
theorem grows_returnValue (ctx : Context) (s : State) (hdef : ctx.definition.isSome) :
    Secures R g.returnValue ctx s fun o _ => ∀ t, o = some t → ctx.Grows R t := by
  refine Moving.secures_skip (fun _ => by
      repeat' first | infer_instance | split | refine Moving.bind inferInstance fun _ => ?_)
    fun kind s1 => secures_read ?_
  rcases hkind : ctx.definition with _ | _ | _
  · rw [hkind] at hdef
    cases hdef
  · refine secures_ite (fun _ => ?_) fun _ => secures_none
    refine secures_seq (grows_parenthesized hg ctx s1) fun e s2 he => ?_
    refine secures_pure fun _ t ht => ?_
    cases ht
    unfold Context.Grows
    unfold Context.GrowsInside at he
    rw [hkind] at he ⊢
    exact .returnedExpression he.1 he.2
  · refine secures_ite (fun _ => ?_) fun _ => secures_none
    refine secures_seq (grows_word hg ctx s1) fun w s2 hw => secures_pure fun _ t ht => ?_
    cases ht
    unfold Context.Grows at hw ⊢
    rw [hkind] at hw ⊢
    exact .returnedWord hw

theorem grows_returnStatement (ctx : Context) (s : State) (hdef : ctx.definition.isSome) :
    Secures R g.returnStatement ctx s fun t _ => ctx.Grows R t := by
  refine secures_skip fun keyword s1 => ?_
  refine secures_seq (grows_returnValue hg ctx s1 hdef) fun value s2 hv => ?_
  exact secures_skip fun stop s3 => secures_pure fun _ => .returned hdef (.ofOption hv)

/-! ## Loops and conditions -/

theorem grows_condition : Grows R g.condition := by
  intro ctx s
  refine secures_skip fun kind s1 => secures_ite (fun _ => ?_) fun _ => ?_
  · refine secures_seq (grows_parenthesized hg ctx s1) fun e s2 he => secures_pure fun _ => ?_
    exact .expressionCondition he.1 he.2
  · refine secures_seq (grows_commandCall hg false ctx s1) fun call s2 hc => ?_
    exact secures_pure fun _ => .commandCondition hc

theorem grows_whileLoop : Grows R g.whileLoop := by
  intro ctx s
  refine secures_skip fun keyword s1 => ?_
  refine secures_seq (grows_condition hg ctx s1) fun condition s2 hc => ?_
  exact secures_seq (grows_block hg ctx s2) fun body s3 hb => secures_pure fun _ =>
    .whileLoop hc hb

omit [g.Stepwise] hg in
theorem secures_loopNames {ctx : Context} {s : State} :
    Secures R loopNames ctx s fun names _ => ∀ name ∈ names, isReserved name.name = false := by
  refine secures_seq secures_bindingName fun first s1 hf => ?_
  refine secures_seq (secures_collect (P := fun name => isReserved name.name = false)
    fun s => ?_) fun others s2 ho => secures_pure fun _ name hname => ?_
  · refine secures_skip fun more s2 => secures_ite (fun _ => ?_) fun _ => ?_
    · refine secures_seq secures_bindingName fun name s3 hn => secures_pure fun _ a ha => ?_
      cases ha
      exact hn
    · exact secures_none
  · rcases List.mem_cons.1 hname with rfl | hname
    · exact hf
    · exact ho name hname

theorem growsAny_nextWord : GrowsAny R g.nextWord := by
  intro ctx s
  refine secures_skip fun kind s1 => secures_ite (fun _ => ?_) fun _ => ?_
  · refine secures_seq (grows_word hg ctx s1) fun w s2 hw => secures_pure fun _ t ht => ?_
    cases ht
    exact hw
  · exact secures_none

theorem grows_iterable : Grows R g.iterable := by
  intro ctx s
  refine secures_skip fun kind s1 => secures_ite (fun _ => ?_) fun _ => ?_
  · refine secures_skip fun opening s2 => secures_bracketed fun hd => ?_
    have hroom : 0 < ctx.room := Nat.sub_pos_of_lt hd
    refine secures_seq (P := fun t _ => ctx.Grows R t) ?_ fun items s3 hi =>
      secures_skip fun _ s4 => secures_pure fun _ => hi
    refine secures_seq (hg.expression _ s2) fun first s3 hf => secures_skip fun next s4 => ?_
    refine secures_ite (fun _ => secures_skip fun _ s5 => ?_) fun _ => secures_pure fun _ => ?_
    · refine secures_seq (hg.expression _ s5) fun last s6 hl => secures_pure fun _ => ?_
      exact .rangeIterable hroom hf hl
    · exact .expressionIterable hroom hf
  · refine secures_seq (growsEach_collect (growsAny_nextWord hg) ctx s1) fun words s2 hw => ?_
    refine secures_ite (fun _ => secures_unexpected) fun _ => secures_pure fun _ => ?_
    exact .wordsIterable (.ofList hw)

theorem grows_forLoop : Grows R g.forLoop := by
  intro ctx s
  refine secures_skip fun keyword s1 => secures_seq secures_loopNames fun names s2 hn => ?_
  have htail : ∀ s, Secures R (do
      let _ ← advance .command
      let items ← g.iterable
      let body ← g.block
      return .forLoop names items body (keyword.span.upTo body.span.stop) : Parse Statement) ctx s
        fun t _ => ctx.Grows R t := by
    intro s
    refine secures_skip fun _ s3 => secures_seq (grows_iterable hg ctx s3) fun items s4 hi => ?_
    exact secures_seq (grows_block hg ctx s4) fun body s5 hb => secures_pure fun _ =>
      .forLoop hn hi hb
  refine secures_skip fun isIn s3 => secures_ite (fun _ => ?_) fun _ => htail s3
  exact secures_unexpected_bind

theorem grows_branch (keyword : Token) : Grows R (g.branch keyword) := by
  intro ctx s
  refine secures_seq (grows_condition hg ctx s) fun condition s1 hc => ?_
  exact secures_seq (grows_block hg ctx s1) fun body s2 hb => secures_pure fun _ =>
    .branch hc hb

theorem growsAny_elifBranch : GrowsAny R g.elifBranch := by
  intro ctx s
  refine Moving.secures_skip (fun _ => by split <;> infer_instance) fun r s1 => ?_
  cases r with
  | none => exact secures_none
  | some keyword =>
      refine secures_seq (grows_branch hg keyword ctx s1) fun b s2 hb => ?_
      refine secures_pure fun _ t ht => ?_
      cases ht
      exact hb

theorem growsAny_elseBody : GrowsAny R g.elseBody := by
  intro ctx s
  refine Moving.secures_skip (fun _ => by split <;> infer_instance) fun r s1 => ?_
  cases r with
  | none => exact secures_none
  | some keyword =>
      refine secures_seq (grows_block hg ctx s1) fun b s2 hb => secures_pure fun _ t ht => ?_
      cases ht
      exact hb

theorem grows_conditional : Grows R g.conditional := by
  intro ctx s
  refine secures_skip fun keyword s1 => ?_
  refine secures_seq (grows_branch hg keyword ctx s1) fun first s2 hf => ?_
  refine secures_seq (growsEach_collect (growsAny_elifBranch hg) ctx s2) fun others s3 ho => ?_
  refine secures_seq (growsAny_elseBody hg ctx s3) fun otherwise s4 he => ?_
  refine secures_skip fun stop s5 => secures_pure fun _ => ?_
  exact .conditional (.cons hf (.ofList ho)) (.ofOption he)

/-! ## Case -/

theorem growsAny_furtherGlob : GrowsAny R g.furtherGlob := by
  intro ctx s
  refine secures_skip fun kind s1 => secures_ite (fun _ => secures_skip fun _ s2 => ?_) fun _ => ?_
  · refine secures_seq (grows_word hg ctx s2) fun w s3 hw => secures_pure fun _ t ht => ?_
    cases ht
    exact hw
  · exact secures_none

theorem grows_casePattern : Grows R g.casePattern := by
  intro ctx s
  refine secures_skip fun token s1 => secures_ite (fun _ => ?_) fun _ => ?_
  · refine secures_skip fun opening s2 => secures_skip fun next s3 => secures_ite (fun _ => ?_) ?_
    · exact secures_skip fun _ s4 => secures_skip fun _ s5 => secures_pure fun _ => .elsePattern
    · intro _
      refine secures_seq (grows_enclosed hg _ _ ctx s3) fun e s4 he => secures_pure fun _ => ?_
      exact .expressionPattern he.1 he.2
  · refine secures_ite (fun _ => ?_) fun _ => secures_ite (fun _ => ?_) fun _ => secures_unexpected
    · exact secures_skip fun _ s2 => secures_skip fun e s3 => secures_pure fun _ => .eggexPattern
    · refine secures_seq (grows_word hg ctx s1) fun first s2 hf => ?_
      refine secures_seq (growsEach_collect (growsAny_furtherGlob hg) ctx s2) fun others s3 ho => ?_
      exact secures_pure fun _ => .globPattern (.cons hf (.ofList ho))

theorem grows_caseArm : Grows R g.caseArm := by
  intro ctx s
  refine secures_skip fun start s1 => ?_
  refine secures_seq (grows_casePattern hg ctx s1) fun pattern s2 hp => ?_
  exact secures_seq (grows_block hg ctx s2) fun body s3 hb => secures_pure fun _ => .arm hp hb

theorem growsAny_armOrNone : GrowsAny R g.armOrNone := by
  intro ctx s
  refine Moving.secures_seq (fun _ => by split <;> infer_instance)
    (secures_attempt (grows_caseArm hg ctx s)) fun r s1 hr => ?_
  cases r with
  | ok arm =>
      refine secures_pure fun _ t ht => ?_
      cases ht
      exact hr arm rfl
  | error e =>
      exact secures_skip fun _ s2 => secures_skip fun _ s3 => secures_none

theorem growsEach_caseArms : GrowsEach R g.caseArms := by
  intro ctx s
  refine secures_seq (secures_loop (I := fun arms : Array Arm =>
    ∀ a ∈ arms.toList, ctx.Grows R a) (by simp) fun arms s1 hi => ?_) fun arms s1 hi =>
      secures_pure fun _ => hi
  refine secures_skip fun _ s2 => secures_skip fun kind s3 => ?_
  refine secures_ite (fun _ => secures_pure fun _ => hi) fun _ => ?_
  refine secures_seq (growsAny_armOrNone hg ctx s3) fun r s4 hr => secures_pure fun _ a ha => ?_
  rcases r with _ | arm
  · exact hi a (by simpa [Round.value] using ha)
  · simp only [Round.value, Option.toList_some, Array.toList_appendList, List.mem_append,
      List.mem_singleton] at ha
    rcases ha with ha | rfl
    · exact hi a ha
    · exact hr a rfl

theorem grows_caseStatement : Grows R g.caseStatement := by
  intro ctx s
  refine secures_skip fun keyword s1 => ?_
  refine secures_seq (grows_parenthesized hg ctx s1) fun subject s2 hs => ?_
  refine secures_skip fun opening s3 => ?_
  refine secures_seq (P := fun arms _ => ∀ a ∈ arms, ctx.GrowsInside R a)
    (secures_nested fun hd => ?_) fun arms s4 ha => secures_skip fun stop s5 => ?_
  · exact (growsEach_caseArms hg { ctx with depth := ctx.depth + 1 } s3).mono fun arms s4 ha a h =>
      ⟨Nat.sub_pos_of_lt hd, ha a h⟩
  · refine secures_pure fun _ => .caseOf hs.1 hs.2 (.ofList fun a h => (ha a h).2)

/-! ## Statements -/

omit hg in
/-- A call starts where its first token does. -/
theorem ensures_commandCall_start (allowsBlock : Bool) (ctx : Context) (s : State) :
    Ensures R.diagnostics (g.commandCall allowsBlock) ctx s fun call _ =>
      (s.next .command ctx).span.start = call.span.start := by
  have hspan : Ensures R.diagnostics (g.commandCall allowsBlock) ctx s fun call s' =>
      call.span = .between (s.next .command ctx).span.start s'.cursor.offset :=
    ensures_peek (ensures_skip fun _ _ => ensures_skip fun _ _ => ensures_skip fun _ _ =>
      ensures_skip fun _ _ => ensures_skip fun _ _ => ensures_skip fun _ _ =>
        ensures_position (ensures_pure.2 fun _ => rfl))
  intro call s' hyields hD
  -- The name of the command has been read, so the call ends behind its first token.
  have hpassed := begins_commandCall (g := g) allowsBlock ctx s
  rw [show outcome (g.commandCall allowsBlock) ctx s = (.ok call, s') from hyields] at hpassed
  have hstop : (s.next .command ctx).span.stop ≤ s'.cursor.offset :=
    hpassed.resolve_right fun h => h.2
  have hle := (s.next .command ctx).span.start_le_stop
  rw [hspan call s' hyields hD]
  exact (Nat.min_eq_left (Nat.le_trans hle hstop)).symm

/-- In the body of a definition no command is read where a `return` comes next. -/
theorem grows_commandStatement (ctx : Context) (s : State)
    (h : ctx.definition.isSome → (s.next .command ctx).isWord "return" = false) :
    Secures R g.commandStatement ctx s fun t _ => ctx.Grows R t := by
  refine secures_map (secures_on fun hon => ?_)
  have hcall := (grows_commandCall hg true ctx s hon).and
    (ensures_commandCall_start (R := R) true ctx s)
  exact hcall.secures.mono fun call _ hc => .command ⟨s.cursor, hon, hc.2, h⟩ hc.1

/-- A word that starts no other statement is not reserved, so it may be the name
    of a constant. -/
theorem grows_wordStatement (ctx : Context) (s : State) :
    Secures R (g.wordStatement (s.next .command ctx)) ctx s fun t _ => ctx.Grows R t := by
  generalize htoken : s.next .command ctx = token
  unfold wordStatement
  split
  · exact grows_variableDeclaration hg ctx s
  · exact grows_assignment hg .nearest ctx s
  · exact grows_assignment hg .global ctx s
  · exact grows_constantDeclaration hg ctx s
  · exact grows_funcDefinition hg ctx s
  · exact grows_procDefinition hg ctx s
  · exact grows_forLoop hg ctx s
  · exact grows_whileLoop hg ctx s
  · exact grows_conditional hg ctx s
  · exact grows_caseStatement hg ctx s
  · exact secures_throw
  · exact secures_throw
  · exact secures_throw
  · have hreserved : isReserved token.text = false := by
      simp only [isReserved, reservedWords, List.contains_eq_mem, List.mem_cons, List.not_mem_nil,
        or_false, not_or, decide_eq_false_iff_not]
      and_intros <;> assumption
    refine secures_read (secures_ite (fun hreturn => ?_) fun hreturn => ?_)
    · exact grows_returnStatement hg ctx s hreturn.2
    · have hword : ctx.definition.isSome → (s.next .command ctx).isWord "return" = false := by
        intro hsome
        have htext : token.text ≠ "return" := fun htext => hreturn ⟨htext, hsome⟩
        rw [htoken]
        simp [Token.isWord, htext]
      refine secures_ite (fun _ => ?_) fun _ => grows_commandStatement hg ctx s hword
      refine secures_seq (secures_lift secures_startsShorthand) fun starts s1 hs => ?_
      subst hs
      refine secures_ite (fun _ => ?_) fun _ => grows_commandStatement hg ctx s1 hword
      exact grows_shorthandConstant hg ctx s1 (htoken ▸ hreserved)

theorem grows_pipelineElement : Grows R g.pipelineElement := by
  intro ctx s
  refine secures_peek (secures_ite (fun _ => ?_) fun hkind => ?_)
  · exact grows_wordStatement hg ctx s
  · refine grows_commandStatement hg ctx s fun _ => ?_
    simp [Token.isWord, hkind]

theorem grows_statement : Grows R g.statement := by
  intro ctx s
  refine secures_nested fun hd => ?_
  have hmono : ∀ t : Statement, Context.Grows R { ctx with depth := ctx.depth + 1 } t →
      ctx.Grows R t := fun t ht => Grown.mono ht (Nat.sub_le_sub_left (Nat.le_succ _) _)
  refine secures_seq (grows_pipelineElement hg _ s) fun first s1 hf => ?_
  refine secures_loop (hmono first hf) fun left s2 hleft => secures_skip fun kind s3 => ?_
  refine secures_ite (fun _ => ?_) fun _ => secures_pure fun _ => hleft
  refine secures_skip fun _ s4 => secures_skip fun _ s5 => ?_
  refine secures_seq (grows_pipelineElement hg _ s5) fun right s6 hright => ?_
  exact secures_pure fun _ => .piped hleft (hmono right hright)

theorem grows_terminatedStatement : Grows R g.terminatedStatement := by
  intro ctx s
  refine secures_seq (grows_statement hg ctx s) fun t s1 ht => secures_skip fun token s2 => ?_
  refine secures_ite (fun _ => secures_skip fun _ s3 => secures_pure fun _ => ht) fun _ => ?_
  exact secures_ite (fun _ => secures_pure fun _ => ht) fun _ => secures_throw

omit [g.Stepwise] hg in
theorem grows_strayCloser : Grows R strayCloser := by
  intro ctx s
  refine secures_skip fun token s1 => secures_seq (ensures_report rfl).secures fun _ s2 hq => ?_
  exact secures_pure fun _ => .error hq

/-- A node for an error stands only where the error has been reported. -/
theorem grows_statementOrError : Grows R g.statementOrError := by
  intro ctx s
  refine Moving.secures_skip (fun _ => by
      repeat' first | infer_instance | split | refine Moving.bind inferInstance fun _ => ?_)
    fun start s1 => ?_
  refine Moving.secures_seq (fun _ => by split <;> infer_instance)
    (secures_attempt (grows_terminatedStatement hg ctx s1)) fun r s2 hr => ?_
  cases r with
  | ok t => exact secures_pure fun _ => hr t rfl
  | error e =>
      refine secures_seq (ensures_report rfl).secures fun _ s3 hq => secures_skip fun stop s4 => ?_
      exact secures_pure fun _ => .error hq

theorem growsAny_listedStatement (closer : Option Token.Kind) :
    GrowsAny R (g.listedStatement closer) := by
  intro ctx s
  refine secures_skip fun _ s1 => secures_skip fun kind s2 => ?_
  refine secures_ite (fun _ => secures_none) fun _ => ?_
  refine secures_ite (fun _ => ?_) fun _ => ?_
  · refine secures_seq (grows_strayCloser ctx s2) fun t s3 ht => secures_pure fun _ u hu => ?_
    cases hu
    exact ht
  · refine secures_seq (grows_statementOrError hg ctx s2) fun t s3 ht => ?_
    refine secures_pure fun _ u hu => ?_
    cases hu
    exact ht

/-- A list of statements over a grammar that grows trees. -/
theorem grows_statementList (closer : Option Token.Kind) :
    GrowsEach R (g.statementList closer) := fun ctx s =>
  growsEach_collect (growsAny_listedStatement hg closer)
    { ctx with closers := closer.toList ++ ctx.closers } s

theorem growsEach_program : GrowsEach R g.program := fun ctx s =>
  secures_seq (grows_statementList hg none ctx s) fun _ _ hts =>
    secures_skip fun _ _ => secures_pure fun _ => hts

/-! ## The language -/

omit [g.Stepwise] hg in
/-- The readers of YSH grow trees. -/
theorem growing_turns (n : Nat) : (turns n).Growing R := by
  induction n with
  | zero =>
      refine ⟨fun ctx s => ?_, fun closer ctx s => ?_, fun opener token ctx s => secures_throw⟩
      · exact secures_skip fun token s1 => secures_throw
      · exact secures_pure fun _ => by simp
  | succ n ih =>
      exact ⟨grows_expressionBody ih, grows_statementList ih, grows_expansionBody ih⟩

end Grammar

/-- The statements of a source are grown, where nothing is nested yet. -/
theorem grows_readProgram (limits : Limits) (source : String) :
    ∀ t ∈ (readProgram limits (.ofSource source)).1,
      Context.Grows ⟨source, (readProgram limits (.ofSource source)).2.diagnostics⟩ { limits } t :=
  Grammar.growsEach_program (Grammar.growing_turns _) { limits } (.ofSource source)
    (Cursor.on_ofSource source) _ _ rfl List.prefix_rfl

/-- The program of a source is grown, with as many levels as the limit allows. A
    source that is turned down for its size has a program of no statements. -/
theorem grown_parse (limits : Limits) (source : String) : ∃ faulty,
    Grown ⟨source, faulty⟩ limits.depth none (parse limits source).program.statements := by
  unfold parse
  dsimp only
  by_cases hsize : limits.inputSize < source.utf8ByteSize
  · rw [if_pos hsize]
    exact ⟨True, .nil⟩
  · rw [if_neg hsize]
    exact ⟨_, .ofList (grows_readProgram limits source)⟩

end Ysh
