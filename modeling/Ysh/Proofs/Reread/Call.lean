import Ysh.Proofs.Reread.Argument

/-!
# Reading Printed Calls

A call is printed with a blank in front of each of its parts, and so each part stands
where it stood. Two things could go wrong at the front of a call that is a statement. A
name in front of an equals sign by itself is the start of a constant, and a word of the
language is the start of something else. Neither happens, because the printed call
starts with the token that the call in the source started with, and the token behind it
is an equals sign only if it was one in the source.

## Main definitions

* `EndsCall`: What stands behind a printed call.
* `Follows`: What stands behind the name of a printed call.
* `RereadsCall`: A call is read again.

## Theorems

* `attains_spaced`: Items with blanks in front of them are read again.
* `rereads_commandCall`: A call of parts that are read again is read again.
* `Grammar.keeps_commandCall`: The calls of a source are read again.
-/

namespace Ysh

open Grammar

variable {d : Option Definition} {n : Nat} {ctx : Context} {s : State}

/-! ## What stands behind a call -/

/-- What stands behind the arguments of a call. -/
def EndsArguments (rest : List Char) : Prop :=
  (∃ c, rest.head? = some c ∧ isWordEnd c = true) ∧
    ∃ x kind r, Ahead .command rest x kind r ∧ kind.endsArguments = true

/-- What stands behind a printed call: nothing that could be a part of it. -/
def EndsCall (allowsBlock : Bool) (rest : List Char) : Prop :=
  (∃ c, rest.head? = some c ∧ isWordEnd c = true) ∧ ∃ x kind r, Ahead .command rest x kind r ∧
    kind.endsArguments = true ∧ kind ≠ .leftParen ∧ (allowsBlock = true → kind ≠ .leftBrace)

theorem EndsArguments.endsWord {rest : List Char} (h : EndsArguments rest) : EndsWord rest := by
  rcases h with ⟨hhead, x, kind, r, hahead, -⟩
  exact ⟨hhead, x, kind, r, hahead⟩

theorem EndsCall.endsArguments {allowsBlock : Bool} {rest : List Char}
    (h : EndsCall allowsBlock rest) :
    EndsArguments rest := by
  rcases h with ⟨hhead, x, kind, r, hahead, hends, -⟩
  exact ⟨hhead, x, kind, r, hahead, hends⟩

theorem EndsStatement.endsCall {rest : List Char} (h : EndsStatement rest) :
    EndsCall true rest := by
  rcases h with ⟨k, whole, rfl, -⟩ | ⟨r, rfl⟩ | ⟨r, rfl⟩
  · exact ⟨⟨_, rfl, rfl⟩, _, _, _, ahead_newline _, rfl, by decide, by decide⟩
  · exact ⟨⟨_, rfl, rfl⟩, _, _, _, ahead_semicolon r, rfl, by decide, by decide⟩
  · exact ⟨⟨_, rfl, rfl⟩, _, _, _, ahead_rightParen r, rfl, by decide, by decide⟩

theorem endsCall_pipe (rest : List Char) : EndsCall true (' ' :: '|' :: rest) :=
  ⟨⟨_, rfl, rfl⟩, _, _, _, ahead_pipe rest, rfl, by decide, by decide⟩

theorem ahead_leftBrace (rest : List Char) : Ahead .command ('{' :: rest) ['{'] .leftBrace rest :=
  ⟨0, rfl, rfl, rfl⟩

theorem ahead_leftParen (rest : List Char) : Ahead .command ('(' :: rest) ['('] .leftParen rest :=
  ⟨0, rfl, rfl, rfl⟩

theorem endsCall_leftBrace (rest : List Char) : EndsCall false (' ' :: '{' :: rest) :=
  ⟨⟨_, rfl, rfl⟩, _, _, _, (ahead_leftBrace rest).blank, rfl, by decide, nofun⟩

/-! ## Items with blanks in front of them -/

theorem Lexed.endsWord {x tail : List Char} {kind : Token.Kind} (h : Lexed .command x kind tail) :
    EndsWord (' ' :: (x ++ tail)) :=
  ⟨⟨' ', rfl, rfl⟩, x, kind, tail, h.ahead.blank⟩

section

variable {c : Category} {items : List (Tree c)} {indent : Nat} {close : List Char}
  (hstarts : ∀ b ∈ items, ∀ rest, EndsWord rest → EndsWord (' ' :: (b.chars indent "" ++ rest)))
  (hclose : EndsWord close)
include hstarts hclose

/-- Items with blanks in front of them are read again, up to where there is none. -/
theorem attains_spaced {item : Grammar → Parse (Option (Tree c))}
    (hitems : ∀ b ∈ items, Rereads d item (b.chars · "") (fun _ => EndsWord) fun r =>
      ∃ a, r = some a ∧ a.erase = b.erase)
    (hend : ∀ t : State, t.cursor.rest = close →
      Attains (item (turns n)) ctx t fun r t' => r = none ∧ t' = t)
    (hroom : Room d n ctx s) (hs : s.cursor.rest = Tree.spaced items indent ++ close) :
    Attains (collect (item (turns n))) ctx s fun as t =>
      as.map Tree.erase = items.map Tree.erase ∧ t.cursor.rest = close := by
  refine attains_collect Tree.erase (fun todo t => t.cursor.rest = Tree.spaced todo indent ++ close)
    hs (fun b todo t hsuffix ht hle => ?_) fun t ht _ => (hend t ht).mono ?_
  · have hmem : ∀ {b'}, b' ∈ b :: todo → b' ∈ items := fun hb' => hsuffix.subset hb'
    have hends : EndsWord (Tree.spaced todo indent ++ close) :=
      endsWord_spaced (fun b' hb' => hstarts b' (hmem (List.mem_cons_of_mem _ hb'))) hclose
    have ht : t.cursor.rest = ' ' :: (b.chars indent "" ++ (Tree.spaced todo indent ++ close)) := by
      rw [ht, Tree.spaced, List.flatMap_cons, List.append_assoc]
      rfl
    refine (hitems b (hmem List.mem_cons_self) n ctx t indent _ (hroom.shorter hle) hends
      (.of_blank ht)).mono fun r t' hr => ⟨hr.1, hr.2, ?_⟩
    rw [hr.2, ht]
    simp only [List.length_cons, List.length_append]
    omega
  · rintro r t' ⟨rfl, rfl⟩
    exact ⟨rfl, fun as has => ⟨has, ht⟩⟩

end

/-! ## Behind the arguments -/

/-- The printed block of a call, with the redirections behind it. -/
def blockChars (body : Option Block) (redirections : List Redirection) (indent : Nat) : List Char :=
  body.elim [] fun b => ' ' :: (b.chars indent "" ++ Tree.spaced redirections indent)

/-- The printed arguments in parentheses of a call. -/
def parenthesisChars (arguments : Option ArgumentList) (indent : Nat) : List Char :=
  arguments.elim [] fun a => ' ' :: a.chars indent ""

theorem RereadsRedirection.endsWord {r : Redirection} (h : RereadsRedirection d r) (indent : Nat)
    {rest : List Char} (hrest : EndsWord rest) : EndsWord (' ' :: (r.chars indent "" ++ rest)) := by
  rcases h.starts indent rest hrest with ⟨x, kind, tail, htext, hlexed, -⟩
  rw [htext]
  exact hlexed.endsWord

theorem RereadsArgument.endsWord {equals : Prop} {a : Argument} (h : RereadsArgument d equals a)
    (indent : Nat) {rest : List Char} (hrest : EndsWord rest) :
    EndsWord (' ' :: (a.chars indent "" ++ rest)) := by
  rcases h.starts indent rest hrest with ⟨x, kind, tail, htext, hlexed, -⟩
  rw [htext]
  exact hlexed.endsWord

/-- The words of a call are read again, up to what ends them. -/
theorem attains_argumentWords {arguments : List Argument} {indent : Nat} {close : List Char}
    (hwords : ∀ a ∈ arguments, ∃ equals, RereadsArgument d equals a)
    (hends : EndsArguments close) (hroom : Room d n ctx s)
    (hs : s.cursor.rest = Tree.spaced arguments indent ++ close) :
    Attains (collect (turns n).argument) ctx s fun as t =>
      as.map Tree.erase = arguments.map Tree.erase ∧ t.cursor.rest = close := by
  refine attains_spaced (fun a ha r hr => ?_) hends.endsWord (fun a ha => ?_) (fun t ht => ?_)
    hroom hs
  · rcases hwords a ha with ⟨equals, ha⟩
    exact ha.endsWord indent hr
  · rcases hwords a ha with ⟨equals, ha⟩
    exact ha.reads
  · rcases hends.2 with ⟨x, kind, r, hahead, hkind⟩
    refine attains_look (hahead.stands ht).peekKind ?_
    rw [if_pos hkind]
    exact attains_pure ⟨rfl, rfl⟩

section

variable {body : Option Block} {redirections : List Redirection} {arguments : Option ArgumentList}
  {allowsBlock : Bool} {indent : Nat} {rest : List Char}

/-- The block of a call is read again, with the redirections behind it. -/
theorem attains_callBlock (hbody : ∀ b ∈ body, allowsBlock = true ∧ RereadsBlock d b)
    (hredirections : ∀ r ∈ redirections, RereadsRedirection d r)
    (hnone : body = none → redirections = []) (hroom : Room d n ctx s)
    (hrest : EndsCall allowsBlock rest)
    (hs : s.cursor.rest = blockChars body redirections indent ++ rest) :
    Attains ((turns n).callBlock allowsBlock) ctx s fun r t =>
      r.1.map Tree.erase = body.map Tree.erase ∧
        r.2.map Tree.erase = redirections.map Tree.erase ∧ t.cursor.rest = rest := by
  cases body with
  | none =>
      rcases hrest.2 with ⟨x, kind, r, hahead, -, -, hbrace⟩
      have hstands : Stands .command ctx s x kind r := hahead.stands hs
      refine attains_look hstands.peekKind ?_
      have hno : (allowsBlock && kind == .leftBrace) = false := by
        rcases allowsBlock with _ | _
        · rfl
        · exact beq_eq_false_iff_ne.2 (hbrace rfl)
      rw [hno, hnone rfl]
      exact attains_pure ⟨rfl, rfl, hs⟩
  | some b =>
      rcases hbody b rfl with ⟨rfl, hb⟩
      have hs : s.cursor.rest
          = ' ' :: (b.chars indent "" ++ (Tree.spaced redirections indent ++ rest)) := by
        rw [hs]
        simp [blockChars]
      have hbrace : ∃ r, Stands .command ctx s ['{'] .leftBrace r := by
        rcases b.chars_block_head indent with ⟨inner, hinner⟩
        refine ⟨inner ++ (Tree.spaced redirections indent ++ rest), ?_⟩
        refine (ahead_leftBrace _).blank.stands ?_
        rw [hs, hinner]
        rfl
      rcases hbrace with ⟨r, hbrace⟩
      refine attains_look hbrace.peekKind ?_
      have hends : EndsWord rest := hrest.endsArguments.endsWord
      refine attains_seq (hb n ctx s indent _ hroom trivial (.of_blank hs)) fun a t ha => ?_
      have hle : t.cursor.rest.length ≤ s.cursor.rest.length := by
        rw [ha.2, hs]
        simp only [List.length_cons, List.length_append]
        omega
      refine attains_seq (attains_spaced (fun r hr _ => (hredirections r hr).endsWord indent) hends
        (fun r hr => (hredirections r hr).reads) (fun u hu => ?_) (hroom.shorter hle) ha.2)
        fun rs u hrs => attains_pure ⟨congrArg some ha.1, hrs⟩
      rcases hrest.2 with ⟨x, kind, r', hahead, hkind, -⟩
      refine attains_noRedirection (hahead.stands hu) ?_ ?_
      · cases kind with
        | redirection => cases hkind
        | _ => rfl
      · rintro rfl
        cases hkind

/-- In front of the block there are no arguments in parentheses. -/
theorem endsCall_blockChars (hrest : EndsCall allowsBlock rest) (body : Option Block)
    (redirections : List Redirection) (indent : Nat) :
    EndsCall false (blockChars body redirections indent ++ rest) := by
  cases body with
  | none =>
      rcases hrest with ⟨hhead, x, kind, r, hahead, hends, hparen, -⟩
      exact ⟨hhead, x, kind, r, hahead, hends, hparen, nofun⟩
  | some b =>
      rcases b.chars_block_head indent with ⟨inner, hinner⟩
      have hchars : blockChars (some b) redirections indent ++ rest
          = ' ' :: '{' :: (inner ++ (Tree.spaced redirections indent ++ rest)) := by
        simp [blockChars, hinner]
      rw [hchars]
      exact endsCall_leftBrace _

/-- In front of the arguments in parentheses other arguments end. -/
theorem endsArguments_parenthesisChars (hrest : EndsArguments rest)
    (arguments : Option ArgumentList) (indent : Nat) :
    EndsArguments (parenthesisChars arguments indent ++ rest) := by
  cases arguments with
  | none => exact hrest
  | some a =>
      rcases a.chars_argumentList_head indent with ⟨inner, hinner⟩
      have hchars : parenthesisChars (some a) indent ++ rest = ' ' :: '(' :: (inner ++ rest) := by
        simp [parenthesisChars, hinner]
      rw [hchars]
      exact ⟨⟨' ', rfl, rfl⟩, _, _, _, (ahead_leftParen _).blank, rfl⟩

/-- Arguments in parentheses are read again. They touch nothing, so there is no notice. -/
theorem attains_callArguments (harguments : ∀ a ∈ arguments, RereadsArguments d a)
    (hroom : Room d n ctx s) (hrest : EndsCall false rest)
    (hs : s.cursor.rest = parenthesisChars arguments indent ++ rest) :
    Attains (turns n).callArguments ctx s fun r t =>
      r.map Tree.erase = arguments.map Tree.erase ∧ t.cursor.rest = rest := by
  refine attains_look (a := s.next .command ctx) rfl ?_
  cases arguments with
  | none =>
      rcases hrest.2 with ⟨x, kind, r, hahead, -, hparen, -⟩
      have hstands : Stands .command ctx s x kind r := hahead.stands hs
      rw [hstands.next.1, if_pos hparen]
      exact attains_pure ⟨rfl, hs⟩
  | some a =>
      have hs : s.cursor.rest = ' ' :: (a.chars indent "" ++ rest) := hs
      rcases a.chars_argumentList_head indent with ⟨inner, hinner⟩
      have hstands : Stands .command ctx s ['('] .leftParen (inner ++ rest) := by
        refine (ahead_leftParen _).blank.stands ?_
        rw [hs, hinner]
        rfl
      have himmediate : (s.next .command ctx).immediate = false := by
        refine Bool.eq_false_iff.2 fun htouches => ?_
        have htext := hstands.next.2.2.1 htouches
        rw [hs] at htext
        cases (List.cons.inj htext).1
      rw [hstands.next.1, himmediate, if_neg (fun h => h rfl), if_neg Bool.false_ne_true]
      exact attains_seq (harguments a rfl n ctx s indent rest hroom trivial (.of_blank hs))
        fun b t hb => attains_pure ⟨congrArg some hb.1, hb.2⟩

end


/-! ## In front of the arguments -/

/-- The name of a command is read again. -/
theorem attains_commandName {name : Word} (hname : RereadsWord d name)
    (hfree : ∀ text, name.bareText? = some text → isReserved text = false) {indent : Nat}
    {rest : List Char} (hroom : Room d n ctx s) (hrest : EndsWord rest)
    (hs : s.Shows (name.chars indent "") rest) :
    Attains (turns n).commandName ctx s fun a t => a.erase = name.erase ∧ t.cursor.rest = rest := by
  refine attains_seq (hname.reads n ctx s indent rest hroom hrest hs) fun a t ha => ?_
  have hbare : a.bareText? = name.bareText? := by
    rw [← Tree.bareText?_erase, ha.1, Tree.bareText?_erase]
  rw [hbare]
  split
  · next text htext =>
      rw [hfree text htext, if_neg Bool.false_ne_true]
      exact attains_pure ha
  · exact attains_pure ha

/-- The printed bindings of a call, each with a blank behind it. -/
def bindingChars (bindings : List EnvBinding) (indent : Nat) : List Char :=
  bindings.flatMap fun b => b.chars indent "" ++ [' ']

section

variable {bindings : List EnvBinding} {indent : Nat} {close x r : List Char} {kind : Token.Kind}
  (hbindings : ∀ b ∈ bindings, ∃ x, RereadsBinding d x b) (hclose : close = x ++ r)
  (hlexed : Lexed .command x kind r) (hpiece : kind.isWordPiece = true)
include hbindings hclose hlexed hpiece

theorem startsPiece_bindingChars (indent : Nat) :
    StartsPiece (bindingChars bindings indent ++ close) := by
  induction bindings with
  | nil => exact ⟨x, kind, r, hclose, hlexed, hpiece⟩
  | cons b bindings ih =>
      have hrest := ih fun b' hb' => hbindings b' (List.mem_cons_of_mem _ hb')
      rcases hbindings b List.mem_cons_self with ⟨y, hb⟩
      rcases hb.starts indent _ hrest.endsWord with ⟨tail, htext, hstarts⟩
      refine ⟨y, .word, tail, ?_, hstarts, rfl⟩
      rw [← htext, bindingChars, List.flatMap_cons]
      simp [bindingChars]

/-- Bindings are read again, in front of a word that is none. -/
theorem attains_envBindings {start : Nat} (hnot : kind = .word → splitBinding? x = none)
    (hroom : Room d n ctx s) (hs : s.Shows (bindingChars bindings indent) close) :
    Attains ((turns n).envBindings start) ctx s fun as t =>
      as.map Tree.erase = bindings.map Tree.erase ∧ t.Shows [] close := by
  have hstands : ∀ {t : State}, t.Shows [] close → Stands .command ctx t x kind r := by
    rintro t ⟨k, ht⟩
    exact (hlexed.ahead.blanks k).stands (by rw [ht, hclose]; rfl)
  have hcollect : Attains (collect (turns n).envBinding) ctx s fun as t =>
      as.map Tree.erase = bindings.map Tree.erase ∧ t.Shows [] close := by
    refine attains_collect Tree.erase (fun todo t => t.Shows (bindingChars todo indent) close) hs
      (fun b todo t hsuffix ht hle => ?_) fun t ht _ => ?_
    · have hmem : ∀ b' ∈ todo, ∃ x, RereadsBinding d x b' := fun b' hb' =>
        hbindings b' (hsuffix.subset (List.mem_cons_of_mem _ hb'))
      have hrest := (startsPiece_bindingChars hmem hclose hlexed hpiece indent).endsWord
      rcases hbindings b (hsuffix.subset List.mem_cons_self) with ⟨y, hb⟩
      have ht : t.Shows (b.chars indent "") (' ' :: (bindingChars todo indent ++ close)) := by
        rcases ht with ⟨k, hk⟩
        refine ⟨k, ?_⟩
        rw [hk, bindingChars, List.flatMap_cons]
        simp [bindingChars]
      refine (hb.reads n ctx t indent _ (hroom.shorter hle) hrest ht).mono fun r' t' hr' =>
        ⟨hr'.1, .of_blank hr'.2, ?_⟩
      have hpos : 0 < (b.chars indent "").length := by
        refine List.length_pos_iff.2 fun hnil => ?_
        rcases hb.starts indent _ hrest with ⟨tail, htext, hstarts⟩
        rw [hnil] at htext
        exact StartsPiece.head?_ne ⟨y, .word, tail, htext, hstarts, rfl⟩
          (by decide : ' ' ∈ nonWordStarts) rfl
      have hlength := ht.length_le
      rw [hr'.2]
      omega
    · have hfirst := hstands ht
      have hnone : Attains (turns n).envBinding ctx t fun r' t' => r' = none ∧ t' = t := by
        refine attains_look (a := t.next .command ctx) rfl ?_
        rw [hfirst.next.1]
        by_cases hword : kind = .word
        · rw [if_neg (fun h => h hword), hfirst.next.2.1, String.toList_ofList, hnot hword]
          exact attains_pure ⟨rfl, rfl⟩
        · rw [if_pos hword]
          exact attains_pure ⟨rfl, rfl⟩
      refine hnone.mono ?_
      rintro r' t' ⟨rfl, rfl⟩
      exact ⟨rfl, fun as has => ⟨has, ht⟩⟩
  refine attains_seq hcollect fun as t has => attains_look (hstands has.2).peekKind ?_
  rw [Token.Kind.endsArguments_eq_false (.inr hpiece), Bool.and_false, if_neg Bool.false_ne_true]
  exact attains_pure has

end

/-! ## Calls -/

/-- No name has an equals sign in it. -/
theorem RereadsBinding.not_isName {x : List Char} {b : EnvBinding} (h : RereadsBinding d x b) :
    ¬ IsName x := by
  intro hname
  rcases hname.exists_cons with ⟨c, cs, rfl⟩
  have hparts := isName_cons.1 hname
  rcases List.mem_cons.1 h.equals with hc | hc
  · rw [← hc] at hparts
    exact absurd hparts.1 (by decide)
  · exact absurd (hparts.2 _ hc) (by decide)

/-- Behind a name stands an equals sign by itself, which makes it the start of a constant,
    only if `short`. -/
def Follows (short : Prop) (tail : List Char) : Prop :=
  ∃ x kind r, Ahead .command tail x kind r ∧ (kind = .word → x = ['='] → tail ≠ x ++ r → short)

/-- A call is read again. It starts with the token it started with, and if that is a name
    then the text goes on like a constant in short only if `short`. -/
structure RereadsCall (d : Option Definition) (allowsBlock : Bool) (kind : Token.Kind)
    (x : List Char) (short : Prop) (c : CommandCall) : Prop where
  piece : kind.isWordPiece = true
  starts : ∀ indent rest, EndsCall allowsBlock rest → ∃ tail,
    c.chars indent "" ++ rest = x ++ tail ∧
    Lexed .command x kind tail ∧
      (kind = .word → IsName x → Follows short tail)
  reads : Rereads d (·.commandCall allowsBlock) (c.chars · "") (fun _ => EndsCall allowsBlock)
    (·.erase = c.erase)

theorem Tree.chars_commandCall (negated : Bool) (bindings : List EnvBinding) (name : Word)
    (arguments : List Argument) (callArguments : Option ArgumentList) (body : Option Block)
    (redirections : List Redirection) (span : Span) (indent : Nat) :
    (commandCall negated (ofList bindings) name (ofList arguments) (ofOption callArguments)
      (ofOption body) (ofList redirections) span).chars indent ""
        = (if negated then ['!', ' '] else []) ++ (bindingChars bindings indent
          ++ (name.chars indent "" ++ (spaced arguments indent
            ++ (parenthesisChars callArguments indent
              ++ blockChars body redirections indent)))) := by
  have hnegated : (if negated then "! " else "").toList = if negated then ['!', ' '] else [] := by
    cases negated <;> rfl
  have hbindings : (if (ofList bindings).isEmpty then "" else
      (ofList bindings).write indent " " ++ " ").toList = bindingChars bindings indent := by
    cases bindings with
    | nil => rfl
    | cons b bindings =>
        have hlist : ((ofList (b :: bindings)).write indent " ").toList
            = List.intercalate [' '] ((b :: bindings).map (·.chars indent "")) :=
          chars_ofList (by simp) (by simp) (b :: bindings) indent " "
        change ((ofList (b :: bindings)).write indent " " ++ " ").toList = _
        rw [String.toList_append, hlist, List.map_cons]
        change List.intercalate [' '] _ ++ [' '] = _
        rw [intercalate_append]
        simp [bindingChars, List.flatMap_map]
  have hcall : (preceded " " (ofOption callArguments).isEmpty
      ((ofOption callArguments).write indent "")).toList
        = parenthesisChars callArguments indent := by
    cases callArguments <;> simp [ofOption, preceded, isEmpty, parenthesisChars, chars, write]
  have hbody : (preceded " " (ofOption body).isEmpty ((ofOption body).write indent ""
      ++ preceded " " (ofList redirections).isEmpty
        ((ofList redirections).write indent " "))).toList
        = blockChars body redirections indent := by
    cases body with
    | none => rfl
    | some b =>
        change (" " ++ (b.write indent "" ++ _)).toList = _
        rw [String.toList_append, String.toList_append, toList_preceded (by simp) (by simp),
          toList_ofList]
        rfl
  change ((if negated then "! " else "") ++ (if (ofList bindings).isEmpty then "" else
    (ofList bindings).write indent " " ++ " ") ++ name.write indent ""
      ++ preceded " " (ofList arguments).isEmpty ((ofList arguments).write indent " ")
      ++ preceded " " (ofOption callArguments).isEmpty ((ofOption callArguments).write indent "")
      ++ preceded " " (ofOption body).isEmpty ((ofOption body).write indent ""
        ++ preceded " " (ofList redirections).isEmpty
          ((ofList redirections).write indent " "))).toList = _
  rw [String.toList_append, String.toList_append, String.toList_append, String.toList_append,
    String.toList_append, hnegated, hbindings, hcall, hbody, toList_preceded (by simp) (by simp),
    toList_ofList]
  simp only [List.append_assoc]
  rfl


/-- The parts of a call from its name on are read again. -/
structure RereadsParts (d : Option Definition) (allowsBlock : Bool) (kind : Token.Kind)
    (x : List Char) (alone : Prop) (name : Word) (arguments : List Argument)
    (callArguments : Option ArgumentList) (body : Option Block) (redirections : List Redirection) :
    Prop where
  named : RereadsWordFrom d kind x alone name
  free : ∀ text, name.bareText? = some text → isReserved text = false
  unbound : kind = .word → splitBinding? x = none
  words : ∀ a ∈ arguments, ∃ equals, RereadsArgument d equals a
  parenthesized : ∀ a ∈ callArguments, RereadsArguments d a
  blocks : ∀ b ∈ body, allowsBlock = true ∧ RereadsBlock d b
  redirected : ∀ r ∈ redirections, RereadsRedirection d r
  apart : body = none → redirections = []

/-- What is printed behind the name of a call. -/
def behindName (arguments : List Argument) (callArguments : Option ArgumentList)
    (body : Option Block) (redirections : List Redirection) (indent : Nat) : List Char :=
  Tree.spaced arguments indent ++ (parenthesisChars callArguments indent
    ++ blockChars body redirections indent)

/-- A negation is read again, and where there is none the call starts with something else. -/
theorem attains_negation {negated : Bool} {close x r : List Char} {kind : Token.Kind}
    (hs : s.Shows (if negated then ['!', ' '] else []) close)
    (hclose : negated = false → close = x ++ r ∧ Lexed .command x kind r ∧
      ¬ (kind = .word ∧ x = ['!'])) :
    Attains negation ctx s fun b t => b = negated ∧ t.Shows [] close := by
  cases negated with
  | true =>
      have hstands : Stands .command ctx s ['!'] .word (' ' :: close) :=
        State.Shows.stands (State.Shows.assoc (x := ['!']) hs) ⟨rfl, rfl⟩ (.inr (.inl rfl))
      refine attains_look (hstands.peekWord rfl "!") ?_
      exact attains_seq hstands.advance fun token t ht => attains_pure ⟨rfl, .of_blank ht.2.1⟩
  | false =>
      rcases hclose rfl with ⟨rfl, hlexed, hnot⟩
      have hstands : Stands .command ctx s x kind r :=
        State.Shows.stands hs hlexed (.inr (.inl rfl))
      refine attains_look (hstands.peekWord rfl "!") ?_
      have hother : (kind == .word && String.ofList x == "!") = false := by
        refine Bool.eq_false_iff.2 fun hboth => hnot ?_
        rw [Bool.and_eq_true, beq_iff_eq, beq_iff_eq] at hboth
        refine ⟨hboth.1, ?_⟩
        rw [← String.toList_ofList (l := x), hboth.2]
        rfl
      rw [if_neg (Bool.eq_false_iff.1 hother)]
      exact attains_pure ⟨rfl, hs⟩

section

variable {allowsBlock : Bool} {kind : Token.Kind} {x : List Char} {alone : Prop} {name : Word}
  {arguments : List Argument} {callArguments : Option ArgumentList} {body : Option Block}
  {redirections : List Redirection}
  (h : RereadsParts d allowsBlock kind x alone name arguments callArguments body redirections)
include h

theorem RereadsParts.endsWord {rest : List Char} (hrest : EndsCall allowsBlock rest)
    (indent : Nat) :
    EndsWord (behindName arguments callArguments body redirections indent ++ rest) := by
  rw [behindName, List.append_assoc, List.append_assoc]
  refine endsWord_spaced (fun a ha r hr => ?_)
    (endsArguments_parenthesisChars (endsCall_blockChars hrest _ _ _).endsArguments _ _).endsWord
  rcases h.words a ha with ⟨equals, ha⟩
  exact ha.endsWord indent hr

/-- The name of a call starts with its first token. Behind that stands an equals sign by
    itself only if one stands in front of the first argument. -/
theorem RereadsParts.starts {short : Prop}
    (hfirst : alone → ∀ a as, arguments = a :: as → RereadsArgument d short a) (indent : Nat)
    {rest : List Char} (hrest : EndsCall allowsBlock rest) :
    ∃ tail, name.chars indent "" ++ (behindName arguments callArguments body redirections indent
      ++ rest) = x ++ tail ∧ Lexed .command x kind tail ∧ (kind = .word → Follows short tail) := by
  rcases h.named.starts indent _ (h.endsWord hrest indent) with ⟨tail, htext, hlexed, hbehind⟩
  refine ⟨tail, htext, hlexed, fun hword => ?_⟩
  rcases hbehind hword with ⟨halone, rfl⟩ | ⟨y, kind', r, rfl, hlexed', -⟩
  · have hends := endsArguments_parenthesisChars
      (endsCall_blockChars hrest body redirections indent).endsArguments callArguments indent
    rw [behindName, List.append_assoc, List.append_assoc]
    cases arguments with
    | nil =>
        rcases hends.2 with ⟨y, kind', r, hahead, hkind⟩
        refine ⟨y, kind', r, hahead, ?_⟩
        rintro rfl
        cases hkind
    | cons a as =>
        have hrest' : EndsWord (Tree.spaced as indent ++ (parenthesisChars callArguments indent
            ++ (blockChars body redirections indent ++ rest))) := by
          refine endsWord_spaced (fun b hb r hr => ?_) hends.endsWord
          rcases h.words b (List.mem_cons_of_mem _ hb) with ⟨equals, hb⟩
          exact hb.endsWord indent hr
        rcases (hfirst halone a as rfl).starts indent _ hrest'
          with ⟨y, kind', r, htext', hlexed', -, hshort⟩
        refine ⟨y, kind', r, ?_, fun hword heq _ => hshort hword heq⟩
        rw [Tree.spaced, List.flatMap_cons, List.cons_append, List.cons_append,
          List.append_assoc, htext']
        exact hlexed'.ahead.blank
  · exact ⟨y, kind', r, hlexed'.ahead, fun _ _ happart => absurd rfl happart⟩

/-- A call of parts that are read again is read again, if it starts as it started. -/
theorem rereads_commandCall {negated : Bool} {bindings : List EnvBinding} {kind' : Token.Kind}
    {x' : List Char} {short : Prop} {span : Span}
    (hbindings : ∀ b ∈ bindings, ∃ y, RereadsBinding d y b) (hpiece : kind'.isWordPiece = true)
    (hplain : negated = false → ¬ (kind' = .word ∧ x' = ['!']))
    (hfirst : ∀ indent rest, EndsCall allowsBlock rest → ∃ tail,
      (if negated then ['!', ' '] else []) ++ (bindingChars bindings indent
        ++ (name.chars indent "" ++ (behindName arguments callArguments body redirections indent
          ++ rest))) = x' ++ tail ∧ Lexed .command x' kind' tail ∧
        (kind' = .word → IsName x' → Follows short tail)) :
    RereadsCall d allowsBlock kind' x' short (.commandCall negated (.ofList bindings) name
      (.ofList arguments) (.ofOption callArguments) (.ofOption body)
        (.ofList redirections) span) := by
  have hchars : ∀ indent rest, (Tree.commandCall negated (.ofList bindings) name (.ofList arguments)
      (.ofOption callArguments) (.ofOption body) (.ofList redirections) span).chars indent ""
          ++ rest
        = (if negated then ['!', ' '] else []) ++ (bindingChars bindings indent
          ++ (name.chars indent "" ++ (behindName arguments callArguments body redirections indent
            ++ rest))) := by
    intro indent rest
    rw [Tree.chars_commandCall]
    simp only [behindName, List.append_assoc]
  refine ⟨hpiece, fun indent rest hrest => ?_, fun n ctx s indent rest hroom hrest hs => ?_⟩
  · rw [hchars]
    exact hfirst indent rest hrest
  · rcases hs with ⟨k, hs⟩
    dsimp only at hs hrest
    rw [hchars] at hs
    rcases hfirst indent rest hrest with ⟨tail, htext, hlexed, -⟩
    have hword := h.endsWord hrest indent
    rcases h.named.starts indent _ hword with ⟨after, hname, hlexed', -⟩
    have hnegation : Attains negation ctx s fun b t => b = negated ∧ t.Shows []
        (bindingChars bindings indent ++ (name.chars indent ""
          ++ (behindName arguments callArguments body redirections indent ++ rest))) := by
      refine attains_negation ⟨k, hs⟩ (fun hneg => ⟨?_, hlexed, hplain hneg⟩)
      subst hneg
      exact htext
    refine attains_look (a := s.next .command ctx) rfl ?_
    refine attains_onward (attains_lift hnegation) ?_
    rintro _ t ⟨rfl, ht⟩ hle
    refine attains_onward (attains_envBindings hbindings hname hlexed' h.named.piece h.unbound
      (hroom.shorter hle) ht) fun bs u hbs hle' => ?_
    have hroom := (hroom.shorter hle).shorter hle'
    refine attains_onward (attains_commandName ⟨_, _, _, h.named⟩ h.free hroom hword hbs.2)
      fun w u1 hw hle1 => ?_
    have hbehind : u1.cursor.rest = Tree.spaced arguments indent ++ (parenthesisChars callArguments
        indent ++ (blockChars body redirections indent ++ rest)) := by
      rw [hw.2, behindName, List.append_assoc, List.append_assoc]
    have hblock : EndsCall false (blockChars body redirections indent ++ rest) :=
      endsCall_blockChars hrest body redirections indent
    have hends := endsArguments_parenthesisChars hblock.endsArguments callArguments indent
    refine attains_onward (attains_argumentWords h.words hends (hroom.shorter hle1) hbehind)
      fun as u2 has hle2 => ?_
    have hroom := (hroom.shorter hle1).shorter hle2
    refine attains_onward (attains_callArguments h.parenthesized hroom hblock has.2)
      fun c u3 hc hle3 => ?_
    refine attains_seq (attains_callBlock h.blocks h.redirected h.apart (hroom.shorter hle3) hrest
      hc.2) fun p u4 hp => ?_
    refine attains_look (a := u4.cursor.offset) rfl (attains_pure ⟨?_, hp.2.2⟩)
    simp only [Tree.erase, Tree.erase_ofList, Tree.erase_ofOption, hbs.1, hw.1, has.1, hc.1, hp.1,
      hp.2.1]

end

/-! ## Calls of a source -/

/-- Behind the token at a state stands an equals sign by itself. -/
def State.StartsShorthand (ctx : Context) (s : State) : Prop :=
  ((advance .command ctx s).2.next .command ctx).isWord "=" = true ∧
    ((advance .command ctx s).2.next .command ctx).immediate = false

section

variable {D : List Diagnostic}

/-- What holds of every item of a list, of the first one where the list starts, and of
    the state behind the list. -/
theorem Progresses.ensures_items {m : Type → Type} [Monad m] [MonadStateOf State m] [Reads m]
    {α : Type} {item : m (Option α)} [Moving item] (P : α → Prop) (first : State → α → Prop)
    (ends : State → Prop) (hends : Progresses (collectRound item) ctx)
    (h : ∀ s, Ensures D item ctx s fun r s' =>
      match r with
      | some a => P a ∧ first s a
      | none => s' = s ∧ ends s) :
    Ensures D (collect item) ctx s fun as s' => (∀ a ∈ as, P a) ∧
      ((as = [] ∧ s' = s) ∨ ∃ a as', as = a :: as' ∧ first s a) ∧ ends s' := by
  refine hends.ensures_collect (I := fun as s' => (∀ a ∈ as, P a) ∧
    ((as = [] ∧ s' = s) ∨ ∃ a as', as = a :: as' ∧ first s a)) ⟨by simp, .inl ⟨rfl, rfl⟩⟩ ?_
  rintro as s1 ⟨hall, hfirst⟩
  refine (h s1).mono fun r s2 hr => ?_
  cases r with
  | none =>
      rcases hr with ⟨rfl, hr⟩
      exact ⟨hall, hfirst, hr⟩
  | some a =>
      refine ⟨fun b hb => ?_, .inr ?_⟩
      · rcases List.mem_append.1 hb with hb | hb
        · exact hall b hb
        · rw [List.mem_singleton.1 hb]
          exact hr.1
      · rcases hfirst with ⟨rfl, rfl⟩ | ⟨b, bs, rfl, hb⟩
        · exact ⟨a, [], rfl, hr.2⟩
        · exact ⟨b, bs ++ [a], rfl, hb⟩

namespace Grammar

variable {g : Grammar} [g.Stepwise]

/-- Behind a word no piece touches it. -/
theorem ensures_word_stops : Ensures D g.word ctx s fun _ s' =>
    (s'.next .command ctx).kind.isWordPiece = true → (s'.next .command ctx).immediate = false := by
  have hloop : Progresses g.wordRound ctx := ParseLoop.word.progresses
  have hparts : Ensures D (g.wordParts [] false) ctx s fun parts s' => parts ≠ [] →
      (s'.next .command ctx).kind.isWordPiece = true →
        (s'.next .command ctx).immediate = false := by
    refine ensures_seq (hloop.ensures_loop (I := fun p _ => p.2 = false → p.1 = [])
      (Q := fun p s' => p.1 ≠ [] → (s'.next .command ctx).kind.isWordPiece = true →
        (s'.next .command ctx).immediate = false) (fun _ => rfl) ?_)
      fun p s1 hp => ensures_pure.2 fun _ => hp
    rintro ⟨parts, continuing⟩ s1 hcontinuing
    refine ensures_peek (ensures_ite (fun hstop => ensures_pure.2 fun _ hne hpiece => ?_) fun _ =>
      ensures_skip fun _ s2 => ensures_skip fun _ s3 => ensures_pure.2 fun _ => nofun)
    cases continuing with
    | false => exact absurd (hcontinuing rfl) hne
    | true =>
        rw [hpiece, Bool.not_true, Bool.false_or, Bool.true_and, Bool.not_eq_true'] at hstop
        exact hstop
  refine ensures_seq hparts fun parts s1 hstops => ensures_ite (fun _ => ensures_unexpected)
    fun hsome => ensures_pure.2 fun _ => hstops ?_
  rintro rfl
  exact hsome rfl

omit [g.Stepwise] in
/-- A negation of a source is its mark, and where there is none something else comes next. -/
theorem ensures_negation : Ensures D negation ctx s fun b s' =>
    match b with
    | true => (s.next .command ctx).isWord "!" = true
    | false => s' = s ∧ (s.next .command ctx).isWord "!" = false := by
  change Ensures D (if (s.next .command ctx).isWord "!" then do
    let _ ← advance .command
    return true
    else return false : Scan Bool) ctx s _
  refine ensures_ite (fun hbang => ?_) fun hother => ensures_pure.2 fun _ =>
    ⟨rfl, Bool.eq_false_iff.2 hother⟩
  exact ensures_skip fun _ s1 => ensures_pure.2 fun _ => hbang

theorem keeps_envBindings (hx : g.KeepsExpansions D) (hq : Quiet ctx.limits D) {start : Nat} :
    Ensures D (g.envBindings start) ctx s fun bs s' =>
      (∀ b ∈ bs, ∃ y, RereadsBinding ctx.definition y b) ∧
        ((bs = [] ∧ s' = s) ∨ ∃ b bs', bs = b :: bs' ∧ (s.next .command ctx).kind = .word ∧
          RereadsBinding ctx.definition (s.next .command ctx).text.toList b) ∧
        ((s'.next .command ctx).kind = .word →
          splitBinding? (s'.next .command ctx).text.toList = none) := by
  have hends : Progresses (collectRound g.envBinding) ctx := ParseLoop.bindings.progresses
  refine ensures_seq (Progresses.ensures_items (fun b => ∃ y, RereadsBinding ctx.definition y b)
    (fun s b => (s.next .command ctx).kind = .word ∧
      RereadsBinding ctx.definition (s.next .command ctx).text.toList b)
    (fun s => (s.next .command ctx).kind = .word →
      splitBinding? (s.next .command ctx).text.toList = none) hends
    (fun s => (keeps_envBinding hx hq).mono ?_)) fun bs s1 hbs => ensures_peekKind
      (ensures_ite (fun _ => ensures_position ensures_throw) fun _ => ensures_pure.2 fun _ => hbs)
  rintro (_ | b) s1 hb
  · exact hb
  · exact ⟨⟨_, hb.2⟩, hb⟩

theorem keeps_commandName (hx : g.KeepsExpansions D) (hq : Quiet ctx.limits D) :
    Ensures D g.commandName ctx s fun w s' =>
      (RereadsWordFrom ctx.definition (s.next .command ctx).kind (s.next .command ctx).text.toList
        (s'.cursor = (s.cursor.lookahead .command false).after) w ∧
        ((s'.next .command ctx).kind.isWordPiece = true →
          (s'.next .command ctx).immediate = false)) ∧
      ∀ text, w.bareText? = some text → isReserved text = false := by
  refine Moving.ensures_seq (fun w => by split <;> infer_instance)
    ((keeps_word hx hq).and ensures_word_stops) fun w s1 hw => ?_
  split
  · next text htext =>
      refine ensures_ite (fun _ => ensures_throw) fun hfree => ensures_pure.2 fun _ => ⟨hw, ?_⟩
      intro text' htext'
      rw [htext] at htext'
      cases htext'
      exact Bool.eq_false_iff.2 hfree
  · next hnone =>
      refine ensures_pure.2 fun _ => ⟨hw, fun text htext => ?_⟩
      rw [hnone] at htext
      cases htext

variable (hg : g.KeepsExpressions D) (hx : g.KeepsExpansions D) (hs : g.KeepsStatements D)
  (hq : Quiet ctx.limits D)

include hg hq in
theorem keeps_callArguments : Ensures D g.callArguments ctx s fun r _ =>
    ∀ a ∈ r, RereadsArguments ctx.definition a := by
  refine ensures_peek (ensures_ite (fun _ => ensures_pure.2 fun _ => nofun) fun _ => ?_)
  have hlist : ∀ s1, Ensures D (do return Option.some (← g.argumentList) :
      Parse (Option ArgumentList))
      ctx s1 fun r _ => ∀ a ∈ r, RereadsArguments ctx.definition a := by
    intro s1
    refine ensures_seq (keeps_argumentList hg _ _ hq) fun a s2 ha => ensures_pure.2 fun _ => ?_
    intro b hb
    cases hb
    exact ha
  exact ensures_ite (fun _ => ensures_skip fun _ s1 => hlist s1) fun _ => hlist s

include hx hs hq in
theorem keeps_callBlock (allowsBlock : Bool) : Ensures D (g.callBlock allowsBlock) ctx s fun p _ =>
    (∀ b ∈ p.1, allowsBlock = true ∧ RereadsBlock ctx.definition b) ∧
      (∀ r ∈ p.2, RereadsRedirection ctx.definition r) ∧ (p.1 = none → p.2 = []) := by
  refine ensures_peekKind (ensures_ite (fun hallows => ?_) fun _ =>
    ensures_pure.2 fun _ => ⟨nofun, nofun, fun _ => rfl⟩)
  refine ensures_seq (keeps_block hs _ _ hq) fun b s1 hb => ?_
  refine ensures_seq (ensures_collect (P := RereadsRedirection ctx.definition) fun s =>
    (keeps_anyRedirection hx hq).mono ?_) fun rs s2 hrs => ensures_pure.2 fun _ =>
      ⟨?_, hrs, nofun⟩
  · rintro (_ | r) s2 hr a ha
    · cases ha
    · cases ha
      exact hr
  · intro b' hb'
    cases hb'
    exact ⟨(Bool.and_eq_true_iff.1 hallows).1, hb⟩

include hg hx hs hq

omit [g.Stepwise] hg hx hs hq in
/-- A name by itself in front of an equals sign by itself is the start of a constant. -/
theorem startsShorthand_of_alone {s' : State}
    (halone : s'.cursor = (s.cursor.lookahead .command false).after)
    (hequals : (s'.next .command ctx).kind = .word ∧ (s'.next .command ctx).text.toList = ['='])
    (hstops : (s'.next .command ctx).kind.isWordPiece = true →
      (s'.next .command ctx).immediate = false) : s.StartsShorthand ctx := by
  have hnext : (advance .command ctx s).2.next .command ctx = s'.next .command ctx := by
    unfold State.next
    rw [halone]
    rfl
  have htext : (s'.next .command ctx).text = "=" :=
    String.toList_injective (hequals.2.trans (by rfl : ['='] = "=".toList))
  refine ⟨?_, ?_⟩
  · rw [hnext, Token.isWord, hequals.1, htext]
    rfl
  · rw [hnext]
    exact hstops (by rw [hequals.1]; rfl)

/-- A call of a source is read again. It starts with the token that it started with. -/
theorem keeps_commandCall (allowsBlock : Bool) : Ensures D (g.commandCall allowsBlock) ctx s
    fun c _ => RereadsCall ctx.definition allowsBlock (s.next .command ctx).kind
      (s.next .command ctx).text.toList (s.StartsShorthand ctx) c := by
  refine ensures_peek (ensures_seq (ensures_lift ensures_negation) fun negated s1 hnegated => ?_)
  refine ensures_seq (keeps_envBindings hx hq) fun bindings s2 hbindings => ?_
  refine ensures_seq (keeps_commandName hx hq) fun name s3 hname => ?_
  have hends : Progresses (collectRound g.argument) ctx := ParseLoop.arguments.progresses
  refine ensures_seq (Progresses.ensures_items (fun a => ∃ equals,
    RereadsArgument ctx.definition equals a) (fun s a => RereadsArgument ctx.definition
      ((s.next .command ctx).kind = .word ∧ (s.next .command ctx).text.toList = ['=']) a)
    (fun s => (s.next .command ctx).kind.endsArguments = true) hends
    (fun s => (keeps_argument hx hq).mono ?_)) fun arguments s4 harguments => ?_
  · rintro (_ | a) s1 ha
    · exact ha
    · exact ⟨⟨_, ha⟩, ha⟩
  refine ensures_seq (keeps_callArguments hg hq) fun callArguments s5 hcall => ?_
  refine ensures_seq (keeps_callBlock hx hs hq allowsBlock) fun p s6 hp => ensures_position
    (ensures_pure.2 fun _ => ?_)
  have hparts : RereadsParts ctx.definition allowsBlock (s2.next .command ctx).kind
      (s2.next .command ctx).text.toList (s3.cursor = (s2.cursor.lookahead .command false).after)
      name arguments callArguments p.1 p.2 :=
    ⟨hname.1.1, hname.2, hbindings.2.2, harguments.1, hcall, hp.1, hp.2.1, hp.2.2⟩
  cases negated with
  | true =>
      have hkind : (s.next .command ctx).kind = .word :=
        beq_iff_eq.1 (Bool.and_eq_true_iff.1 hnegated).1
      have htext : (s.next .command ctx).text.toList = ['!'] := by
        rw [Token.text_of_isWord hnegated]
        rfl
      rw [hkind, htext]
      refine rereads_commandCall hparts hbindings.1 rfl (by rintro ⟨⟩)
        fun indent rest hrest => ?_
      exact ⟨' ' :: _, rfl, ⟨rfl, rfl⟩, fun _ hvalid => absurd hvalid (by unfold IsName; decide)⟩
  | false =>
      rcases hnegated with ⟨rfl, hother⟩
      have hplain : ¬ ((s1.next .command ctx).kind = .word ∧
          (s1.next .command ctx).text.toList = ['!']) := by
        rintro ⟨hkind, htext⟩
        rw [Token.isWord, hkind, String.toList_injective
          (htext.trans (by rfl : ['!'] = "!".toList))] at hother
        cases hother
      -- The printed call starts with its name, or with its first binding if it has one.
      rcases hbindings.2.1 with ⟨rfl, rfl⟩ | ⟨b, bs, rfl, hkind, hb⟩
      · refine rereads_commandCall hparts (fun _ hb => absurd hb List.not_mem_nil) hname.1.1.piece
          (fun _ => hplain) fun indent rest hrest => ?_
        have hfirst : s3.cursor = (s2.cursor.lookahead .command false).after → ∀ a as,
            arguments = a :: as → RereadsArgument ctx.definition (s2.StartsShorthand ctx) a := by
          rintro halone a as rfl
          rcases harguments.2.1 with ⟨hnil, -⟩ | ⟨a', as', heq, ha⟩
          · cases hnil
          · cases heq
            refine ⟨fun indent rest hrest => ?_, ha.reads⟩
            rcases ha.starts indent rest hrest with ⟨y, kind, tail, htext, hlexed, hkind, hequals⟩
            refine ⟨y, kind, tail, htext, hlexed, hkind, fun hword heq => ?_⟩
            exact startsShorthand_of_alone halone (hequals hword heq) hname.1.2
        rcases hparts.starts hfirst indent hrest with ⟨tail, htext, hlexed, hshort⟩
        exact ⟨tail, htext, hlexed, fun hkind _ => hshort hkind⟩
      · rw [hkind] at hplain ⊢
        refine rereads_commandCall hparts hbindings.1 rfl (fun _ => hplain)
          fun indent rest hrest => ?_
        have hword := hparts.endsWord hrest indent
        rcases hparts.named.starts indent _ hword with ⟨after, hafter, hlexed, -⟩
        have hbs : ∀ b ∈ bs, ∃ y, RereadsBinding ctx.definition y b := fun b' hb' =>
          hbindings.1 b' (List.mem_cons_of_mem _ hb')
        have hrest' := (startsPiece_bindingChars hbs hafter hlexed hparts.named.piece
          indent).endsWord
        rcases hb.starts indent _ hrest' with ⟨tail, htext, hstarts⟩
        refine ⟨tail, ?_, hstarts, fun _ hvalid => absurd hvalid hb.not_isName⟩
        rw [← htext, bindingChars, List.flatMap_cons]
        simp [bindingChars]

end Grammar

end

end Ysh
