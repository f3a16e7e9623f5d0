import Ysh.Proofs.Joined.States
import Ysh.Proofs.Progress.Basic

/-!
# The Grammar of Parameter Lists

What a parameter list is, said without its readers. A list is a sequence of symbols: names,
the signs between them, and defaults, of which it is not asked what they are made of. A tier
is parameters with commas, and a list is tiers with semicolons, of which a func has two and
a proc four.

Where symbols stand in a source is said with its tokens: in front of every symbol there may
be newlines, and a newline is no symbol. The readers of a list never see those newlines,
because they look in brackets. `spells_cons` is the argument that this comes to the same: in
brackets the next token is that behind all the newlines, and whatever else is reported on
the way is reported either way.

## Main definitions

* `Tier`, `Tiers`: The parameters of a list, without the places of the tiers.
* `Tiers.Symbol`: A name, a sign or a default.
* `Tiers.IsParameter`, `Tiers.IsTier`, `Tiers.IsBlock`: The grammar of a tier.
* `Tiers.Accepts`: The grammar of a list.
* `Tiers.Spells`: The symbols that stand between two places of a source.

## Theorems

* `Tiers.Accepts.fits`: Which tiers a list of a kind has.
* `Tiers.advance_inBrackets`: A token in brackets, by those on lines.
* `Tiers.spells_cons`: A symbol is the next token, in brackets.
* `Tiers.spells_append`: Symbols one after the other.
-/

namespace Ysh

open Grammar

/-- The parameters of a tier, with the one that takes what is left over. -/
structure Tier where
  parameters : List Parameter
  rest : Option Parameter

/-- The parameters of a definition, tier by tier. A tier that is there may be empty. -/
structure Tiers where
  positional : Tier
  typed : Option Tier
  named : Option Tier
  block : Option Parameter

namespace Tree

/-- The parameters of a tier. -/
def tier : ParameterGroup → Tier
  | .parameterGroup parameters rest _ => ⟨parameters.toList, rest.toOption⟩

/-- The parameters of a list. -/
def tiers : ParameterList → Tiers
  | .parameterList positional typed named last _ =>
      ⟨positional.tier, typed.toOption.map tier, named.toOption.map tier, last.toOption⟩

theorem tiers_parameterList {positional : ParameterGroup} {typed named : Option ParameterGroup}
    {last : Option Parameter} {span : Span} :
    tiers (.parameterList positional (.ofOption typed) (.ofOption named) (.ofOption last) span) =
      ⟨positional.tier, typed.map tier, named.map tier, last⟩ := by
  simp only [tiers, toOption_ofOption]

theorem takesNothing_iff {group : ParameterGroup} :
    group.takesNothing = true ↔ group.tier = ⟨[], .none⟩ := by
  cases group with
  | parameterGroup parameters rest span =>
      cases parameters <;> cases rest <;>
        simp [takesNothing, tier, isEmpty, toList, elements, toOption]

end Tree

namespace Tiers

/-! ## The grammar -/

/-- What a parameter list is made of. -/
inductive Symbol where
  | name (name : Identifier)
  /-- An `=` with a value behind it. -/
  | default (value : Expression)
  | comma
  | semicolon
  /-- The dots in front of a rest parameter, and where they stand. -/
  | dots (span : Span)
  | close

/-- A name, perhaps with a default. -/
inductive IsParameter : List Symbol → Parameter → Prop
  | plain (name : Identifier) : IsParameter [.name name] (.parameter name .none name.span)
  | optional (name : Identifier) (value : Expression) :
      IsParameter [.name name, .default value]
        (.parameter name (.some value) (name.span.upTo value.span.stop))

/-- One comma at most. -/
def IsTail (w : List Symbol) : Prop :=
  w = [] ∨ w = [.comma]

/-- Parameters with commas between them. A comma may stand behind the last one, and a rest
    parameter at the end, where one is allowed. -/
inductive IsTier (allowsRest : Bool) : List Symbol → Tier → Prop
  | empty : IsTier allowsRest [] ⟨[], none⟩
  | last {w : List Symbol} {p : Parameter} : IsParameter w p → IsTier allowsRest w ⟨[p], none⟩
  | more {w w' : List Symbol} {p : Parameter} {ps : List Parameter} {rest : Option Parameter} :
      IsParameter w p → IsTier allowsRest w' ⟨ps, rest⟩ →
      IsTier allowsRest (w ++ .comma :: w') ⟨p :: ps, rest⟩
  | rest {dots : Span} {name : Identifier} {w : List Symbol} : allowsRest = true → IsTail w →
      IsTier allowsRest (.dots dots :: .name name :: w)
        ⟨[], some (.parameter name .none (dots.upTo name.span.stop))⟩

/-- One parameter, perhaps with a comma behind it, or nothing. -/
inductive IsBlock : List Symbol → Option Parameter → Prop
  | empty : IsBlock [] none
  | one {w w' : List Symbol} {p : Parameter} : IsParameter w p → IsTail w' →
      IsBlock (w ++ w') (some p)

/-- What stands behind a semicolon, or nothing. -/
inductive IsNext {α : Type} (isTier : List Symbol → α → Prop) : List Symbol → Option α → Prop
  | absent : IsNext isTier [] none
  | present {w : List Symbol} {a : α} : isTier w a → IsNext isTier (.semicolon :: w) (some a)

theorem IsNext.and {α : Type} {isTier : List Symbol → α → Prop} {P : Prop} {w : List Symbol}
    {o : Option α}
    (h : IsNext (fun w a => P ∧ isTier w a) w o) : IsNext isTier w o ∧ (o.isSome = true → P) := by
  cases h with
  | absent => exact ⟨.absent, nofun⟩
  | present hboth => exact ⟨.present hboth.2, fun _ => hboth.1⟩

/-- The symbols behind the opening parenthesis of a list. A func has named parameters only
    behind positional ones. A proc has a tier only if it has all that stand in front of
    that. -/
inductive Accepts : Definition → List Symbol → Tiers → Prop
  | func {w w' : List Symbol} {positional : Tier} {named : Option Tier} :
      IsTier true w positional → IsNext (IsTier false) w' named →
      (named.isSome → positional ≠ ⟨[], none⟩) →
      Accepts .func (w ++ (w' ++ [.close])) ⟨positional, none, named, none⟩
  | proc {w w1 w2 w3 : List Symbol} {positional : Tier} {typed named : Option Tier}
      {block : Option (Option Parameter)} :
      IsTier true w positional → IsNext (IsTier true) w1 typed →
      IsNext (IsTier false) w2 named → IsNext IsBlock w3 block →
      (named.isSome → typed.isSome) → (block.isSome → named.isSome) →
      Accepts .proc (w ++ (w1 ++ (w2 ++ (w3 ++ [.close])))) ⟨positional, typed, named, block.join⟩

/-- The tiers that a kind of definition may have. -/
def Fits : Definition → Tiers → Prop
  | .func, tiers => tiers.typed = none ∧ tiers.block = none
  | .proc, tiers => (tiers.named.isSome → tiers.typed.isSome) ∧
      (tiers.block.isSome → tiers.typed.isSome ∧ tiers.named.isSome)

theorem Accepts.fits {kind : Definition} {w : List Symbol} {tiers : Tiers}
    (h : Accepts kind w tiers) : tiers.Fits kind := by
  cases h with
  | func => exact ⟨rfl, rfl⟩
  | @proc w w1 w2 w3 positional typed named block _ _ _ _ htyped hnamed =>
      refine ⟨htyped, fun hblock => ?_⟩
      have hsome : block.isSome = true := by
        cases block with
        | none => cases hblock
        | some p => rfl
      exact ⟨htyped (hnamed hsome), hnamed hsome⟩

/-! ## Symbols in a source -/

/-- The symbol that a token is by itself. A reserved word is no name. -/
def Symbol.ofToken? (token : Token) : Option Symbol :=
  match token.kind with
  | .identifier => if isReserved token.text then none else some (.name (nameOf token))
  | .comma => some .comma
  | .semicolon => some .semicolon
  | .ellipsis => some (.dots token.span)
  | .rightParen => some .close
  | _ => none

/-- The symbol that a token starts, with the place behind it. Only a default is more than
    its token: a value is read behind the `=`. -/
inductive Starts (g : Grammar) (ctx : Context) (token : Token) (s : State) :
    Symbol → State → Prop
  | sign {x : Symbol} : Symbol.ofToken? token = some x → Starts g ctx token s x s
  | default {value : Expression} {s' : State} : token.kind = .assignment .assign →
      Yields g.expression ctx s value s' → Starts g ctx token s (.default value) s'

/-- The context in which newlines are tokens. -/
def onLines (ctx : Context) : Context :=
  { ctx with inBrackets := false }

/-- The symbols that stand between two places. Newlines in front of a symbol are passed
    over. -/
inductive Spells (g : Grammar) (ctx : Context) : State → List Symbol → State → Prop
  | nil {s : State} : Spells g ctx s [] s
  | newline {s s1 s' : State} {line : Token} {x : Symbol} {w : List Symbol} :
      Yields (advance .expression) (onLines ctx) s line s1 → line.kind = .newline →
      Spells g ctx s1 (x :: w) s' → Spells g ctx s (x :: w) s'
  | symbol {s s1 s2 s' : State} {token : Token} {x : Symbol} {w : List Symbol} :
      Yields (advance .expression) (onLines ctx) s token s1 → Starts g ctx token s1 x s2 →
      Spells g ctx s2 w s' → Spells g ctx s (x :: w) s'

section

variable {g : Grammar} {ctx : Context} {s s' t : State} {token : Token}

/-- The kind of token that a symbol starts with. -/
def Symbol.kind : Symbol → Token.Kind
  | name _ => .identifier
  | default _ => .assignment .assign
  | comma => .comma
  | semicolon => .semicolon
  | dots _ => .ellipsis
  | close => .rightParen

/-- A symbol of which there is nothing more to know than that it is there. -/
def Symbol.isMark : Symbol → Bool
  | comma | semicolon | close => true
  | name _ | default _ | dots _ => false

theorem Symbol.kind_of_ofToken? {x : Symbol} (h : Symbol.ofToken? token = some x) :
    token.kind = x.kind := by
  unfold Symbol.ofToken? at h
  split at h
  · next hkind =>
      split at h
      · cases h
      · cases h
        exact hkind
  all_goals
    cases h
    try assumption

theorem Symbol.ofToken?_ne_default {value : Expression} :
    Symbol.ofToken? token ≠ some (.default value) := by
  unfold Symbol.ofToken?
  split
  · split
    all_goals exact nofun
  all_goals exact nofun

theorem Starts.kind {x : Symbol} (h : Starts g ctx token s x t) : token.kind = x.kind := by
  cases h with
  | sign hsign => exact Symbol.kind_of_ofToken? hsign
  | default hkind _ => exact hkind

theorem Symbol.kind_ne_newline (x : Symbol) : x.kind ≠ .newline := by
  cases x <;> exact nofun

theorem spells_nil : Spells g ctx s [] s' ↔ s' = s := by
  constructor
  · intro h
    cases h
    rfl
  · rintro rfl
    exact .nil

/-! ## The next token -/

theorem reportAll_append (es es' : List LexicalError) (ctx : Context) (s : State) :
    reportAll (es ++ es') ctx s = reportAll es' ctx (reportAll es ctx s).2 := by
  induction es generalizing s with
  | nil => rfl
  | cons e es ih => exact ih (report (.lexical e) ctx s).2

/-- What is reported depends on the list that there is and its limit alone. -/
theorem reportAll_diagnostics_congr (es : List LexicalError) {ctx ctx' : Context} {s t : State}
    (hlimits : ctx.limits = ctx'.limits) (h : s.diagnostics = t.diagnostics) :
    (reportAll es ctx s).2.diagnostics = (reportAll es ctx' t).2.diagnostics := by
  induction es generalizing s t with
  | nil => exact h
  | cons e es ih =>
      refine ih (s := (report (.lexical e) ctx s).2) (t := (report (.lexical e) ctx' t).2) ?_
      change State.diagnostics (if s.diagnostics.length < ctx.limits.diagnostics then
          { s with diagnostics := s.diagnostics ++ [.lexical e] } else s)
        = State.diagnostics (if t.diagnostics.length < ctx'.limits.diagnostics then
          { t with diagnostics := t.diagnostics ++ [.lexical e] } else t)
      rw [h, hlimits]
      split
      · rfl
      · exact h

/-- The state behind the next token. -/
def behind (ctx : Context) (s : State) : State where
  cursor := (s.ahead .expression ctx).after
  diagnostics := (reportAll (s.ahead .expression ctx).errors ctx s).2.diagnostics

theorem yields_advance_iff : Yields (advance .expression) ctx s token t ↔
    token = s.next .expression ctx ∧ t = behind ctx s := by
  constructor
  · intro h
    cases h
    exact ⟨rfl, rfl⟩
  · rintro ⟨rfl, rfl⟩
    rfl

/-- In brackets a newline is passed over, and any other token is consumed as it is on
    lines. -/
theorem advance_inBrackets (hctx : ctx.inBrackets = true) (s : State) :
    (s.next .expression (onLines ctx)).kind ≠ .newline ∧
        s.next .expression ctx = s.next .expression (onLines ctx) ∧
        behind ctx s = behind (onLines ctx) s ∨
      (s.next .expression (onLines ctx)).kind = .newline ∧
        s.next .expression ctx = (behind (onLines ctx) s).next .expression ctx ∧
        behind ctx s = behind ctx (behind (onLines ctx) s) := by
  have hahead : ∀ s : State, s.ahead .expression ctx = s.cursor.lookahead .expression true := by
    intro s
    change s.cursor.lookahead .expression ctx.inBrackets = _
    rw [hctx]
  have hskips : s.ahead .expression ctx = _ :=
    (hahead s).trans (Cursor.lookahead_skipsLine s.cursor)
  have hnext : ∀ s : State, s.next .expression ctx = (s.ahead .expression ctx).token := fun s => rfl
  by_cases hline : (s.cursor.lookahead .expression false).token.kind = .newline
  · -- The look goes on behind the newline, and what was wrong in front of it comes first.
    rw [if_pos hline] at hskips
    refine .inr ⟨hline, ?_, ?_⟩
    · rw [hnext, hskips, hnext, hahead]
      rfl
    · unfold behind
      rw [hskips, hahead]
      dsimp only
      rw [reportAll_append]
      exact congrArg _ (reportAll_diagnostics_congr _ rfl (reportAll_diagnostics_congr _ rfl rfl))
  · rw [if_neg hline] at hskips
    refine .inl ⟨hline, ?_, ?_⟩
    · rw [hnext, hskips]
      rfl
    · unfold behind
      rw [hskips]
      exact congrArg _ (reportAll_diagnostics_congr _ rfl rfl)

/-! ## Symbols in brackets -/

variable (hctx : ctx.inBrackets = true)
include hctx

/-- A symbol starts with the next token, where newlines are passed over. -/
theorem spells_cons {x : Symbol} {w : List Symbol} :
    Spells g ctx s (x :: w) s' ↔
      ∃ t, Starts g ctx (s.next .expression ctx) (behind ctx s) x t ∧ Spells g ctx t w s' := by
  constructor
  · intro h
    generalize hsymbols : x :: w = symbols at h
    induction h with
    | nil => cases hsymbols
    | @newline s s1 s' line y w' hline hkind _ ih =>
        -- In brackets the same token comes next on either side of the newline.
        cases hsymbols
        rcases yields_advance_iff.1 hline with ⟨rfl, rfl⟩
        rcases advance_inBrackets hctx s with ⟨hne, -⟩ | ⟨-, hnext, hbehind⟩
        · exact absurd hkind hne
        · rw [hnext, hbehind]
          exact ih rfl
    | @symbol s s1 s2 s' token y w' htoken hstarts hrest _ =>
        -- No symbol starts with a newline, so nothing is passed over.
        cases hsymbols
        rcases yields_advance_iff.1 htoken with ⟨rfl, rfl⟩
        rcases advance_inBrackets hctx s with ⟨-, hnext, hbehind⟩ | ⟨hline, -⟩
        · rw [hnext, hbehind]
          exact ⟨s2, hstarts, hrest⟩
        · exact absurd (hstarts.kind.symm.trans hline) x.kind_ne_newline
  · rintro ⟨t, hstarts, hrest⟩
    -- The newlines that are passed over at once are passed over here one by one.
    induction hlength : s.cursor.rest.length using Nat.strongRecOn generalizing s with
    | _ n ih =>
        subst hlength
        rcases advance_inBrackets hctx s with ⟨-, hnext, hbehind⟩ | ⟨hline, hnext, hbehind⟩
        · rw [hnext, hbehind] at hstarts
          exact .symbol (yields_advance_iff.2 ⟨rfl, rfl⟩) hstarts hrest
        · have hadvance : Yields (advance .expression) (onLines ctx) s _ (behind (onLines ctx) s) :=
            yields_advance_iff.2 ⟨rfl, rfl⟩
          have hmoves := (moving_advance .expression).of_yields hadvance
          have hgains := Scan.gains_advance (by rw [hline]; decide) _ _ hadvance trivial
          rw [hnext, hbehind] at hstarts
          exact .newline hadvance hline (ih _ (hmoves.length_lt hgains) hstarts rfl)

theorem spells_append {w w' : List Symbol} :
    Spells g ctx s (w ++ w') s' ↔ ∃ t, Spells g ctx s w t ∧ Spells g ctx t w' s' := by
  induction w generalizing s with
  | nil => simp [spells_nil]
  | cons x w ih =>
      rw [List.cons_append, spells_cons hctx]
      constructor
      · rintro ⟨t, hstarts, h⟩
        rcases ih.1 h with ⟨u, hw, hw'⟩
        exact ⟨u, (spells_cons hctx).2 ⟨t, hstarts, hw⟩, hw'⟩
      · rintro ⟨u, h, hw'⟩
        rcases (spells_cons hctx).1 h with ⟨t, hstarts, hw⟩
        exact ⟨t, hstarts, ih.2 ⟨u, hw, hw'⟩⟩

/-- The first symbol, and those behind it. -/
theorem spells_first {x : Symbol} {w : List Symbol} :
    Spells g ctx s (x :: w) s' ↔ ∃ t, Spells g ctx s [x] t ∧ Spells g ctx t w s' :=
  spells_append hctx (w := [x])

/-- What comes next in front of symbols is the first of them. -/
theorem Spells.next {x : Symbol} {w : List Symbol}
    (h : Spells g ctx s (x :: w) s') : (s.next .expression ctx).kind = x.kind := by
  rcases (spells_cons hctx).1 h with ⟨t, hstarts, -⟩
  exact hstarts.kind

/-- A sign is its token. -/
theorem spells_sign {x : Symbol} (hx : ∀ value, x ≠ .default value) :
    Spells g ctx s [x] s' ↔
      Symbol.ofToken? (s.next .expression ctx) = some x ∧ s' = behind ctx s := by
  rw [spells_cons hctx]
  constructor
  · rintro ⟨t, hstarts, h⟩
    rcases spells_nil.1 h with rfl
    cases hstarts with
    | sign hsign => exact ⟨hsign, rfl⟩
    | default => exact absurd rfl (hx _)
  · rintro ⟨hsign, rfl⟩
    exact ⟨_, .sign hsign, .nil⟩

/-- A default is a sign with a value behind it. -/
theorem spells_default {value : Expression} :
    Spells g ctx s [.default value] s' ↔
      (s.next .expression ctx).kind = .assignment .assign ∧
        Yields g.expression ctx (behind ctx s) value s' := by
  rw [spells_cons hctx]
  constructor
  · rintro ⟨t, hstarts, h⟩
    rcases spells_nil.1 h with rfl
    cases hstarts with
    | sign hsign => exact absurd hsign Symbol.ofToken?_ne_default
    | default hkind hvalue => exact ⟨hkind, hvalue⟩
  · rintro ⟨hkind, hvalue⟩
    exact ⟨_, .default hkind hvalue, .nil⟩

theorem spells_mark {x : Symbol} (hx : x.isMark = true) :
    Spells g ctx s [x] s' ↔ (s.next .expression ctx).kind = x.kind ∧ s' = behind ctx s := by
  have hsign : Symbol.ofToken? (s.next .expression ctx) = some x ↔
      (s.next .expression ctx).kind = x.kind := by
    refine ⟨Symbol.kind_of_ofToken?, fun hkind => ?_⟩
    unfold Symbol.ofToken?
    rw [hkind]
    cases x with
    | comma | semicolon | close => rfl
    | name | default | dots => cases hx
  rw [spells_sign hctx (by rintro value rfl; cases hx), hsign]

end

end Tiers

end Ysh
