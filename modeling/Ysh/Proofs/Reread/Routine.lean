import Ysh.Proofs.Reread.Element
import Ysh.Proofs.Reread.Parameter

/-!
# Reading Printed Definitions

The body of a definition is a block like any other, but for `return`, which is a keyword
only there. What it returns depends on the definition: a func returns a value in
parentheses, and behind the keyword in a proc a word is looked for and nothing else. So
whether a `return` is read again depends on the definition around it, and that is the one
thing about a statement that does.

## Theorems

* `attains_parenthesized`: An expression in parentheses.
* `rereads_func`, `rereads_proc`, `rereads_returned`: Definitions and their results.
* `Grammar.keeps_funcDefinition`, `Grammar.keeps_procDefinition`,
  `Grammar.keeps_returnStatement`: The definitions of a source are read again.
-/

namespace Ysh

open Grammar

variable {d : Option Definition} {P : Prop} {n : Nat} {ctx : Context} {s : State}

/-! ## Values in parentheses -/

/-- An expression in parentheses is read again. -/
theorem attains_parenthesized {e : Expression} (he : RereadsExpression d e) {indent : Nat}
    {rest : List Char} (hroom : Room d n ctx s)
    (hs : s.Shows ('(' :: (e.chars indent "" ++ [')'])) rest) :
    Attains (turns n).parenthesized ctx s fun a t => a.erase = e.erase ∧ t.cursor.rest = rest := by
  have hopen : Stands .command ctx s ['('] .leftParen ((e.chars indent "" ++ [')']) ++ rest) :=
    State.Shows.stands (State.Shows.assoc (x := ['(']) hs) ⟨rfl, rfl⟩ (.inr (.inl rfl))
  refine attains_seq (hopen.expectAs _) fun opening t ht => ?_
  have hlt : t.cursor.rest.length < s.cursor.rest.length := by
    have hlength := hs.length_le
    rw [ht.2]
    simp only [List.length_append, List.length_cons] at hlength ⊢
    omega
  exact he.enclosed (hroom.below hlt).2 (.inl ⟨rfl, rfl⟩) (State.Shows.assoc (.of_eq ht.2))

/-! ## Bodies -/

/-- The body of a definition is read again. -/
theorem attains_definitionBody {kind : Definition} {b : Block} (hb : RereadsBlock (some kind) b)
    {indent : Nat} {rest : List Char} (hroom : Room d n ctx s)
    (hs : s.Shows (b.chars indent "") rest) :
    Attains ((turns n).definitionBody kind) ctx s fun a t =>
      a.erase = b.erase ∧ t.cursor.rest = rest := by
  have hblock : Attains (turns n).block { ctx with definition := some kind } s fun a t =>
      a.erase = b.erase ∧ t.cursor.rest = rest :=
    hb n _ s indent rest ⟨hroom.turns, hroom.levels, rfl⟩ trivial hs
  exact hblock

/-- A func is read again. -/
theorem rereads_func {name : Identifier} {parameters : ParameterList} {body : Block} {span : Span}
    (hname : IsReference name.name.toList) (hparameters : RereadsParameters d .func parameters)
    (hbody : RereadsBlock (some .func) body) :
    RereadsElement d P (.func name parameters body span) := by
  rcases hparameters with ⟨text, htext, hreads⟩
  refine rereadsElement_of_keyword "func"
    (fun indent => ' ' :: (name.name.toList
      ++ '(' :: (text indent ++ ')' :: ' ' :: body.chars indent "")))
    (fun g keyword => do
      let name ← bindingName
      let opening ← expectAs .expression .leftParen .functionParenthesis
      let parameters ← g.parameterList .func opening.span
      let body ← g.definitionBody .func
      return .func name parameters body (keyword.span.upTo body.span.stop))
    (by decide) (fun indent => ?_) (fun _ => .inr ⟨_, rfl⟩) (fun _ hword h => ?_)
    fun n ctx s keyword indent rest hroom hout hrest hs => ?_
  · have htiers : (parameters.writeFuncTiers indent).toList = _ := htext indent
    unfold Tree.chars
    rw [Tree.write_func]
    simp [htiers]
  · rw [wordStatement, hword]
    exact h
  · have hs : s.Shows name.name.toList
        ('(' :: (text indent ++ ')' :: ' ' :: (body.chars indent "" ++ rest))) :=
      .of_blank (by rw [hs]; simp)
    refine attains_onward (attains_bindingName hs hname (endsAtom_leftParen _)) fun a t ha hle => ?_
    have hopen : Stands .expression ctx t ['('] .leftParen _ := State.Shows.leftParen ha.2
    refine attains_seq (hopen.expectAs _) fun opening u hu => ?_
    have hlt : u.cursor.rest.length < t.cursor.rest.length := by
      rw [hu.2, ha.2]
      exact Nat.lt_succ_self _
    have hroom := (hroom.shorter hle).above
    refine attains_onward (hreads n ctx u indent _ opening.span (hroom.below hlt).2 hu.2)
      fun l v hl hle' => ?_
    refine attains_seq (attains_definitionBody hbody (hroom.shorter (by omega)) (.of_blank hl.2))
      fun b w hb => attains_pure ⟨?_, hb.2⟩
    simp only [Tree.erase, hl.1, hb.1, Identifier.erase_eq (ha.1.trans Identifier.toList_name)]

/-! ## Procs -/

/-- The printed parameters of a proc, if it has any. -/
def procParameterChars (parameters : Option ParameterList) (indent : Nat) : List Char :=
  parameters.elim [] fun l => ' ' :: l.chars indent ""

/-- The name of a proc is read again. -/
theorem attains_procName {name after rest : List Char} (hname : Lexed .command name .word after)
    (hfree : isReserved (.ofList name) = false) (hrest : EndsWord rest) (hs : s.Shows name rest) :
    Attains procName ctx s fun a t => a.name = .ofList name ∧ t.cursor.rest = rest := by
  have hword : Stands .command ctx s name .word rest :=
    hs.stands (hname.word_of_goesOn (.inr hrest)) (.inr (.inl rfl))
  refine attains_look (a := s.next .command ctx) rfl ?_
  rw [hword.next.1, hword.next.2.1, hfree, if_neg (fun h => h rfl), if_neg Bool.false_ne_true]
  exact attains_seq hword.advance fun token t ht => attains_pure ⟨hword.next.2.1, ht.2.1⟩

section

variable {parameters : Option ParameterList} {indent : Nat} {rest : List Char}
  (hparameters : ∀ l ∈ parameters, RereadsParameters d .proc l)
include hparameters

theorem endsWord_procParameterChars (hrest : EndsWord rest) :
    EndsWord (procParameterChars parameters indent ++ rest) := by
  cases parameters with
  | none => exact hrest
  | some l =>
      rcases hparameters l rfl with ⟨text, htext, -⟩
      have htext : l.chars indent "" = _ := htext indent
      refine ⟨⟨' ', rfl, rfl⟩, ['('], .leftParen, (text indent ++ [')']) ++ rest, ?_⟩
      rw [procParameterChars, Option.elim_some, htext]
      exact (ahead_leftParen _).blank

/-- The parameters of a proc are read again, in front of its body. -/
theorem attains_procParameters (hroom : Room d n ctx s)
    (hs : s.cursor.rest = procParameterChars parameters indent ++ ' ' :: '{' :: rest) :
    Attains (turns n).procParameters ctx s fun r t =>
      r.map Tree.erase = parameters.map Tree.erase ∧ t.cursor.rest = ' ' :: '{' :: rest := by
  cases parameters with
  | none =>
      have hbrace : Stands .command ctx s ['{'] .leftBrace rest :=
        (ahead_leftBrace rest).blank.stands hs
      refine attains_look hbrace.peekKind ?_
      rw [if_neg (by decide)]
      exact attains_pure ⟨rfl, hs⟩
  | some l =>
      rcases hparameters l rfl with ⟨text, htext, hreads⟩
      have htext : l.chars indent "" = _ := htext indent
      have hs : s.cursor.rest = ' ' :: '(' :: (text indent ++ ')' :: ' ' :: '{' :: rest) := by
        rw [hs, procParameterChars, Option.elim_some, htext]
        simp
      have hopen : Stands .command ctx s ['('] .leftParen _ := (ahead_leftParen _).blank.stands hs
      refine attains_look hopen.peekKind ?_
      rw [if_pos rfl]
      refine attains_seq hopen.advance fun opening t ht => ?_
      have hlt : t.cursor.rest.length < s.cursor.rest.length := by
        rw [ht.2.1, hs]
        simp only [List.length_cons]
        omega
      exact attains_seq (hreads n ctx t indent _ opening.span (hroom.below hlt).2 ht.2.1)
        fun m u hm => attains_pure ⟨congrArg some hm.1, hm.2⟩

end

/-- A proc is read again. Its name is a word. -/
theorem rereads_proc {name : Identifier} {parameters : Option ParameterList} {body : Block}
    {span : Span} (hname : ∃ after, Lexed .command name.name.toList .word after)
    (hfree : isReserved name.name = false)
    (hparameters : ∀ l ∈ parameters, RereadsParameters d .proc l)
    (hbody : RereadsBlock (some .proc) body) :
    RereadsElement d P (.proc name (.ofOption parameters) body span) := by
  refine rereadsElement_of_keyword "proc"
    (fun indent => ' ' :: (name.name.toList ++ (procParameterChars parameters indent
      ++ ' ' :: body.chars indent "")))
    (fun g keyword => do
      let name ← procName
      let parameters ← g.procParameters
      let body ← g.definitionBody .proc
      return .proc name (.ofOption parameters) body (keyword.span.upTo body.span.stop))
    (by decide) (fun indent => ?_) (fun _ => .inr ⟨_, rfl⟩) (fun _ hword h => ?_)
    fun n ctx s keyword indent rest hroom hout hrest hs => ?_
  · change ("proc " ++ name.name ++ Tree.preceded " " (Tree.ofOption parameters).isEmpty
      ((Tree.ofOption parameters).write indent "") ++ " " ++ body.write indent "").toList = _
    cases parameters <;>
      simp [Tree.ofOption, Tree.preceded, Tree.isEmpty, Tree.write, Tree.chars, procParameterChars]
  · rw [wordStatement, hword]
    exact h
  · -- The body starts with its brace, and so the name and the parameters end where they did.
    rcases body.chars_block_head indent with ⟨inner, hinner⟩
    have hs : s.Shows name.name.toList
        (procParameterChars parameters indent ++ ' ' :: '{' :: (inner ++ rest)) :=
      .of_blank (by rw [hs, hinner]; simp)
    have hends : EndsWord (procParameterChars parameters indent ++ ' ' :: '{' :: (inner ++ rest)) :=
      endsWord_procParameterChars hparameters ⟨⟨' ', rfl, rfl⟩, _, _, _, (ahead_leftBrace _).blank⟩
    rcases hname with ⟨after, hname⟩
    refine attains_onward (attains_procName hname (by rwa [String.ofList_toList]) hends hs)
      fun a t ha hle => ?_
    have hroom := (hroom.shorter hle).above
    refine attains_onward (attains_procParameters hparameters hroom ha.2) fun r u hr hle' => ?_
    have hu : u.cursor.rest = ' ' :: (body.chars indent "" ++ rest) := by
      rw [hr.2, hinner]
      rfl
    refine attains_seq (attains_definitionBody hbody (hroom.shorter hle') (.of_blank hu))
      fun b v hb => attains_pure ⟨?_, hb.2⟩
    simp only [Tree.erase, Tree.erase_ofOption, hr.1, hb.1,
      Identifier.erase_eq (ha.1.trans Identifier.toList_name)]

/-! ## Results -/

/-- What a definition returns is read again, in a definition of its kind. -/
def RereadsResult (d : Option Definition) (v : ReturnValue) : Prop :=
  (d = some .func ∧ ∃ e, v = .returnedExpression e ∧ RereadsExpression d e) ∨
    (d = some .proc ∧ ∃ w, v = .returnedWord w ∧ RereadsWord d w)

/-- The value behind a return is read again. A definition of either kind has values of its own
    form, and a value of the other form is none. -/
theorem attains_returnValue {value : Option ReturnValue} (hvalue : ∀ v ∈ value, RereadsResult d v)
    {indent : Nat} {rest : List Char} (hroom : Room d n ctx s) (hrest : EndsElement P rest)
    (hs : s.cursor.rest = (value.elim [] fun v => ' ' :: v.chars indent "") ++ rest) :
    Attains (turns n).returnValue ctx s fun r t =>
      r.map Tree.erase = value.map Tree.erase ∧ t.cursor.rest = rest := by
  refine attains_look (a := (s.next .command ctx).kind) rfl (attains_read ?_)
  rw [hroom.definition]
  cases value with
  | none =>
      rcases hrest.endsCall.2 with ⟨x, kind, r, hahead, hends, hparen, -⟩
      rw [(hahead.stands hs).next.1]
      have hpiece : ¬ kind.isWordPiece = true := fun hpiece => by
        rw [Token.Kind.endsArguments_eq_false (.inr hpiece)] at hends
        cases hends
      rw [if_neg hparen, if_neg hpiece]
      split <;> exact attains_pure ⟨rfl, hs⟩
  | some v =>
      rcases hvalue v rfl with ⟨rfl, e, rfl, he⟩ | ⟨rfl, w, rfl, hw⟩
      · have hchars : (Tree.returnedExpression e).chars indent ""
            = '(' :: (e.chars indent "" ++ [')']) := by
          change ("(" ++ e.write indent "" ++ ")").toList = _
          simp [Tree.chars]
        rw [Option.elim_some, hchars] at hs
        have hopen : Stands .command ctx s ['('] .leftParen _ :=
          (ahead_leftParen _).blank.stands hs
        rw [hopen.next.1]
        refine attains_seq (attains_parenthesized he hroom (.of_blank hs)) fun a t ha =>
          attains_pure ⟨?_, ha.2⟩
        rw [Option.map_some, Option.map_some, Tree.erase, Tree.erase, ha.1]
      · have hchars : (Tree.returnedWord w).chars indent "" = w.chars indent "" := rfl
        rw [Option.elim_some, hchars] at hs
        have hshows : s.Shows (w.chars indent "") rest := .of_blank hs
        have hpiece : (s.next .command ctx).kind.isWordPiece = true := by
          rcases hw.startsPiece indent hrest.endsWord with ⟨x, kind, r, htext, hlexed, hpiece⟩
          rw [(hlexed.ahead.blank.stands (hs.trans (congrArg _ htext))).next.1]
          exact hpiece
        rw [if_pos hpiece]
        refine attains_seq (hw.reads n ctx s indent rest hroom hrest.endsWord hshows)
          fun a t ha => attains_pure ⟨?_, ha.2⟩
        rw [Option.map_some, Option.map_some, Tree.erase, Tree.erase, ha.1]

theorem rereads_returned {value : Option ReturnValue} {span : Span} (hd : d.isSome = true)
    (hvalue : ∀ v ∈ value, RereadsResult d v) :
    RereadsElement d P (.returned (.ofOption value) span) := by
  refine rereadsElement_of_keyword "return"
    (fun indent => value.elim [] fun v => ' ' :: v.chars indent "")
    (fun g keyword => do
      let value ← g.returnValue
      return .returned (.ofOption value) (keyword.span.upTo (← position)))
    (by decide) (fun indent => ?_) (fun indent => ?_) (fun hdefinition hword h => ?_)
    fun n ctx s keyword indent rest hroom hout hrest hs => ?_
  · change ("return" ++ Tree.preceded " " (Tree.ofOption value).isEmpty
      ((Tree.ofOption value).write indent "")).toList = _
    cases value <;> simp [Tree.ofOption, Tree.preceded, Tree.isEmpty, Tree.write, Tree.chars]
  · cases value with
    | none => exact .inl rfl
    | some v => exact .inr ⟨_, rfl⟩
  · rw [wordStatement_eq (by rw [hword]; decide), hword]
    refine attains_read ?_
    rw [if_pos ⟨rfl, hdefinition ▸ hd⟩]
    exact h
  · refine attains_seq (attains_returnValue hvalue hroom.above hrest hs) fun r t hr =>
      attains_look (a := t.cursor.offset) rfl (attains_pure ⟨?_, hr.2⟩)
    simp only [Tree.erase, Tree.erase_ofOption, hr.1]

/-! ## Definitions of a source -/

namespace Grammar

variable {D : List Diagnostic} {g : Grammar} [g.Stepwise]

theorem keeps_parenthesized (hg : g.KeepsExpressions D) : Keeps D g.parenthesized KeptExpression :=
  fun _ _ hq => ensures_skip fun _ _ => keeps_enclosed hg _ _ hq

theorem keeps_definitionBody (hs : g.KeepsStatements D) (kind : Definition)
    (hq : Quiet ctx.limits D) :
    Ensures D (g.definitionBody kind) ctx s fun b _ => RereadsBlock (some kind) b := by
  have hblock : Ensures D g.block { ctx with definition := some kind } s _ := keeps_block hs _ _ hq
  exact hblock

/-- A func of a source is read again. -/
theorem keeps_funcDefinition (hg : g.KeepsExpressions D) (hs : g.KeepsStatements D)
    (hq : Quiet ctx.limits D) : Ensures D g.funcDefinition ctx s fun e s' =>
      RereadsElement ctx.definition s'.Pipes e := by
  refine ensures_skip fun keyword s1 => ensures_seq (keeps_bindingName _ _ hq)
    fun name s2 hname => ?_
  refine ensures_skip fun opening s3 => ensures_seq (keeps_parameterList hg .func _ _ hq)
    fun parameters s4 hparameters => ?_
  exact ensures_seq (keeps_definitionBody hs .func hq) fun body s5 hbody => ensures_pure.2 fun _ =>
    rereads_func hname hparameters hbody

/-- A proc of a source is read again. -/
theorem keeps_procDefinition (hg : g.KeepsExpressions D) (hs : g.KeepsStatements D)
    (hq : Quiet ctx.limits D) : Ensures D g.procDefinition ctx s fun e s' =>
      RereadsElement ctx.definition s'.Pipes e := by
  have hname : ∀ s, Ensures D procName ctx s fun a _ =>
      (∃ after, Lexed .command a.name.toList .word after) ∧ isReserved a.name = false := by
    intro s
    refine ensures_peek (ensures_ite (fun _ => ensures_bind (ensures_throw (s := s))) fun hkind =>
      ensures_ite (fun _ => ensures_bind (ensures_throw (s := s))) fun hfree => ?_)
    refine ensures_next hq fun s1 hoffers => ensures_pure.2 fun _ => ⟨?_, Bool.eq_false_iff.2 hfree⟩
    rcases hoffers with ⟨front, text, -, hread, -⟩
    have hlexed := hread.lexed
    rw [Classical.not_not.1 hkind] at hlexed
    refine ⟨s1.cursor.rest, ?_⟩
    change Lexed .command (s.next .command ctx).text.toList .word _
    rw [hread.shown, String.toList_ofList]
    exact hlexed
  have hparameters : ∀ s, Ensures D g.procParameters ctx s fun r _ =>
      ∀ l ∈ r, RereadsParameters ctx.definition .proc l := by
    intro s
    refine ensures_peekKind (ensures_ite (fun _ => ?_) fun _ => ensures_none)
    refine ensures_skip fun opening s1 => ensures_seq (keeps_parameterList hg .proc _ _ hq)
      fun l s2 hl => ensures_pure.2 fun _ => ?_
    rintro _ ⟨⟩
    exact hl
  refine ensures_skip fun keyword s1 => ensures_seq (hname s1) fun name s2 hname => ?_
  refine ensures_seq (hparameters s2) fun parameters s3 hparameters => ?_
  exact ensures_seq (keeps_definitionBody hs .proc hq) fun body s4 hbody => ensures_pure.2 fun _ =>
    rereads_proc hname.1 hname.2 hparameters hbody

/-- What a definition of a source returns is read again. -/
theorem keeps_returnStatement (hg : g.KeepsExpressions D) (hx : g.KeepsExpansions D)
    (hd : ctx.definition.isSome = true) (hq : Quiet ctx.limits D) :
    Ensures D g.returnStatement ctx s fun e s' => RereadsElement ctx.definition s'.Pipes e := by
  have hvalue : ∀ s, Ensures D g.returnValue ctx s fun r _ =>
      ∀ v ∈ r, RereadsResult ctx.definition v := by
    intro s
    refine ensures_peekKind (ensures_read ?_)
    split
    · next hfunc =>
        refine ensures_ite (fun _ => ?_) fun _ => ensures_none
        refine ensures_seq (keeps_parenthesized hg _ _ hq) fun e s1 he => ensures_pure.2 fun _ => ?_
        rintro _ ⟨⟩
        exact .inl ⟨hfunc, e, rfl, he.rereads⟩
    · next hother =>
        have hproc : ctx.definition = some .proc := by
          rcases hdefinition : ctx.definition with _ | (_ | _)
          · rw [hdefinition] at hd
            cases hd
          · exact absurd hdefinition hother
          · rfl
        refine ensures_ite (fun _ => ?_) fun _ => ensures_none
        refine ensures_seq (keeps_word hx hq) fun w s1 hw => ensures_pure.2 fun _ => ?_
        rintro _ ⟨⟩
        exact .inr ⟨hproc, w, rfl, _, _, _, hw⟩
  refine ensures_skip fun keyword s1 => ensures_seq (hvalue s1) fun r s2 hr => ?_
  exact ensures_position (ensures_pure.2 fun _ => rereads_returned hd hr)

end Grammar

end Ysh
