import Ysh.Proofs.Reread.Expression

/-!
# Reading Printed Operations

Every expression that is made of expressions is read again if these are: operations,
members, indices and calls. A member, an index or a call is one more step of the loop
behind the primary, so it is enough to see that the step reads the text behind the
object. The object of a call of a function is a name, behind which the loop finds a
parenthesis; behind any other object it finds none.

## Main definitions

* `IsReference`: A name that stands for a value.

## Theorems

* `RereadsObject.step`: One more step behind an object.
* `RereadsExpression.binary`, `RereadsExpression.unary`: Operations.
* `rereads_argumentList`: Arguments in parentheses.
* `RereadsExpression.member`, `RereadsExpression.index`, `RereadsExpression.methodCall`,
  `rereads_functionCall`: Steps behind an object.
-/

namespace Ysh

open Grammar

variable {d : Option Definition} {n : Nat} {ctx : Context} {s : State}

/-! ## Names -/

/-- A text that names a value: a name that is neither a reserved word nor a keyword of
    expressions. -/
structure IsReference (text : List Char) : Prop where
  name : IsName text
  free : isReserved (.ofList text) = false
  plain : keyword? text = none

theorem IsName.isMemberName (text : List Char) :
    ((keyword? text).getD .identifier).isMemberName = true := by
  rcases h : keyword? text with _ | kind
  · rfl
  · exact (keyword?_kind h).1

theorem State.Shows.name {text rest : List Char} (hs : s.Shows text rest) (h : IsName text)
    (hrest : EndsAtom rest) :
    Stands .expression ctx s text ((keyword? text).getD .identifier) rest := by
  refine hs.stands (lexed_name h hrest) (.inl fun hkind => ?_)
  have hmember := IsName.isMemberName text
  rw [hkind] at hmember
  cases hmember

theorem State.Shows.reference {text rest : List Char} (hs : s.Shows text rest)
    (h : IsReference text) (hrest : EndsAtom rest) :
    Stands .expression ctx s text .identifier rest := by
  have hstands : Stands .expression ctx s text _ rest := hs.name h.name hrest
  rwa [h.plain] at hstands

/-- A name behind a dot or an arrow is read again. -/
theorem attains_memberName {text rest : List Char} (hs : s.Shows text rest) (h : IsName text)
    (hrest : EndsAtom rest) :
    Attains memberName ctx s fun a t => a.name = .ofList text ∧ t.cursor.rest = rest := by
  have hstands : Stands .expression ctx s text _ rest := hs.name h hrest
  refine attains_look (a := s.next .expression ctx) rfl ?_
  rw [if_pos (by rw [hstands.next.1]; exact IsName.isMemberName text)]
  exact attains_seq hstands.advance fun token t ht => attains_pure ⟨hstands.next.2.1, ht.2.1⟩

/-- A name that something is bound to is read again. -/
theorem attains_bindingName {text rest : List Char} (hs : s.Shows text rest)
    (h : IsReference text) (hrest : EndsAtom rest) :
    Attains bindingName ctx s fun a t => a.name = .ofList text ∧ t.cursor.rest = rest := by
  have hstands : Stands .expression ctx s text _ rest := hs.reference h hrest
  refine attains_look (a := s.next .expression ctx) rfl ?_
  rw [if_pos hstands.next.1, hstands.next.2.1, h.free]
  exact attains_seq hstands.advance fun token t ht => attains_pure ⟨hstands.next.2.1, ht.2.1⟩

theorem Identifier.erase_eq {a b : Identifier} (h : a.name = b.name) : a.erase = b.erase := by
  unfold Identifier.erase
  rw [h]

/-! ## Steps behind an object -/

/-- One more step behind an object. -/
theorem RereadsObject.step {object text : Nat → List Char}
    {ends ends' : Context → List Char → Prop} {P Q : Expression → Prop}
    (h : RereadsObject d object ends P) (tail : Nat → List Char)
    (htext : ∀ indent, text indent = object indent ++ tail indent)
    (htail : ∀ indent, 0 < (tail indent).length)
    (hends : ∀ ctx indent rest, ends' ctx rest → ends ctx (tail indent ++ rest))
    (hstep : ∀ n ctx s indent rest e, Room d n ctx s → ends' ctx rest → P e →
      s.cursor.rest = tail indent ++ rest →
        Attains ((turns n).postfixStep e) ctx s fun r t =>
          ∃ e', r = .again e' ∧ Q e' ∧ t.cursor.rest = rest) :
    RereadsObject d text ends' Q := by
  intro n ctx s indent rest hroom hrest hs
  rw [htext indent] at hs
  have hle := hs.length_le
  refine (h n ctx s indent _ hroom (hends ctx indent rest hrest) hs.assoc).mono fun e t he => ?_
  rcases he with ⟨e', t', hruns, he', ht'⟩
  have hpos := htail indent
  have hlength : t'.cursor.rest.length = (tail indent).length + rest.length := by
    rw [ht', List.length_append]
  rw [List.length_append] at hle
  rcases hstep n ctx t' indent rest e' (hroom.shorter (by omega)) hrest he' ht' with
    ⟨r, u, hround, hquiet, e'', rfl, he'', hu⟩
  exact ⟨e'', u, hruns.snoc hround hquiet (by rw [hu]; omega), he'', hu⟩

/-- Arguments in parentheses are read again. -/
def RereadsArguments (d : Option Definition) (a : ArgumentList) : Prop :=
  Rereads d (·.argumentList) (a.chars · "") (fun _ _ => True) (·.erase = a.erase)

theorem Tree.chars_argumentList (positional : Tree (.many .expression))
    (named : Tree (.many .namedArgument)) (span : Span) (indent : Nat) :
    (argumentList positional named span).chars indent "" = '(' :: (positional.chars indent ", "
      ++ ((preceded "; " named.isEmpty (named.write indent ", ")).toList ++ [')'])) := by
  change ("(" ++ positional.write indent ", "
    ++ preceded "; " named.isEmpty (named.write indent ", ") ++ ")").toList = _
  simp [chars]

/-- Arguments start with their parenthesis. -/
theorem Tree.chars_argumentList_head (a : ArgumentList) (indent : Nat) :
    ∃ inner, a.chars indent "" = '(' :: inner := by
  cases a with
  | argumentList positional named span => exact ⟨_, chars_argumentList positional named span indent⟩

theorem endsAtom_leftParen (rest : List Char) : EndsAtom ('(' :: rest) := by
  rintro c ⟨⟩
  decide

theorem State.Shows.leftParen {rest : List Char} (hs : s.cursor.rest = '(' :: rest) :
    Stands .expression ctx s ['('] .leftParen rest :=
  State.Shows.stands (.of_eq hs) ⟨rfl, rfl⟩ (.inl (by decide))

theorem Identifier.toList_name {name : Identifier} : String.ofList name.name.toList = name.name :=
  String.ofList_toList

namespace RereadsExpression

variable {e : Expression} (h : RereadsExpression d e)
include h

/-- A member of an object. -/
theorem member {name : Identifier} {span : Span} (hname : IsName name.name.toList) :
    RereadsExpression d (.member e name span) := by
  rcases hname.exists_cons with ⟨c, cs, hcons⟩
  have hstart : Character.isNameStart c = true := by
    rw [hcons] at hname
    exact (isName_cons.1 hname).1
  refine .of_object (h.receiver.step (fun _ => '.' :: name.name.toList)
    (fun indent => ?_) (fun indent => Nat.succ_pos _) (fun ctx indent rest hrest => ?_) ?_)
  · change (_ ++ "." ++ name.name : String).toList = _
    simp
  · refine .inr (.inl ⟨c, cs ++ rest, ?_, hstart⟩)
    rw [hcons]
    rfl
  · intro n ctx s indent rest e' hroom hrest he' hs
    have hdot : Stands .expression ctx s ['.'] .dot (name.name.toList ++ rest) := by
      refine State.Shows.stands (.of_eq hs) ?_ (.inl (by decide))
      rw [hcons]
      exact lexed_dot hstart _
    refine attains_look hdot.peekKind ?_
    refine attains_seq hdot.advance fun token t ht => ?_
    refine attains_seq (attains_memberName (.of_eq ht.2.1) hname hrest.atom) fun a u ha => ?_
    refine attains_look (a := (u.next .expression ctx).kind) rfl ?_
    rw [if_neg (hrest.next ha.2)]
    refine attains_pure ⟨_, rfl, ?_, ha.2⟩
    rw [Tree.erase, Tree.erase, he', Identifier.erase_eq (ha.1.trans Identifier.toList_name)]

/-- An index into an object. -/
theorem index {i : Expression} {span : Span} (hi : RereadsExpression d i) :
    RereadsExpression d (.index e i span) := by
  refine .of_object (h.receiver.step (fun indent => '[' :: (i.chars indent "" ++ [']']))
    (fun indent => ?_) (fun indent => Nat.succ_pos _)
    (fun ctx indent rest hrest => .inr (.inr (.inr ⟨_, rfl⟩))) ?_)
  · change (_ ++ "[" ++ i.write indent "" ++ "]" : String).toList = _
    simp [Tree.chars]
  · intro n ctx s indent rest e' hroom hrest he' hs
    have hbracket : Stands .expression ctx s ['['] .leftBracket
        (i.chars indent "" ++ ']' :: rest) := by
      refine State.Shows.stands (.of_eq ?_) ⟨rfl, rfl⟩ (.inl (by decide))
      rw [hs]
      simp
    refine attains_look hbracket.peekKind ?_
    refine attains_seq hbracket.advance fun token t ht => ?_
    have hlt : t.cursor.rest.length < s.cursor.rest.length := by
      rw [ht.2.1, hs]
      simp
    refine attains_seq (hi.enclosed (hroom.below hlt).2 (.inr ⟨rfl, rfl⟩) (.of_eq ht.2.1))
      fun a u ha => ?_
    refine attains_look (a := u.cursor.offset) rfl (attains_pure ⟨_, rfl, ?_, ha.2⟩)
    rw [Tree.erase, Tree.erase, he', ha.1]

end RereadsExpression

/-! ## Items between commas -/

/-- An item of a list is read again, and starts with a token of a certain class. -/
def RereadsItem (d : Option Definition) {c : Category} (item : Grammar → Parse (Tree c))
    (starts : Token.Kind → Bool) (t : Tree c) : Prop :=
  ∀ n ctx s indent rest, RoomBelow d n ctx s → EndsExpression ctx rest →
    s.Shows (t.chars indent "") rest →
      starts (s.next .expression ctx).kind = true ∧
        Attains (item (turns n)) ctx s fun a s' => a.erase = t.erase ∧ s'.cursor.rest = rest

theorem RereadsExpression.item {e : Expression} (h : RereadsExpression d e) :
    RereadsItem d (·.expression) Token.Kind.startsExpression e :=
  fun _ _ _ _ _ hroom hrest hs => h.expression hroom hrest hs

/-- Nothing that ends an expression starts one. -/
theorem Token.Kind.ne_of_starts {kind closer : Token.Kind} (h : kind.startsExpression = true)
    (hcloser : closer.closesExpression = true) : (kind == closer) = false := by
  rw [beq_eq_false_iff_ne]
  rintro rfl
  cases kind with
  | operator op => cases hcloser
  | _ => first | (cases hcloser; done) | cases h

/-- Items with commas between them are read again in front of what closes the list. -/
theorem attains_items {c : Category} (hmany : ∀ k, c ≠ .many k) (hmaybe : ∀ k, c ≠ .maybe k)
    {item : Grammar → Parse (Tree c)} {starts ends : Token.Kind → Bool} {ts : Tree (.many c)}
    {x : Char} {closer : Token.Kind} {rest : List Char} {indent : Nat}
    (hitems : ∀ t ∈ ts.toList, RereadsItem d item starts t)
    (hstarts : ∀ kind, starts kind = true → ends kind = false)
    (hroom : RoomBelow d n ctx s) (hs : s.Shows (ts.chars indent ", ") (x :: rest))
    (hx : x ∈ [')', ']', '}', ',', ';']) (hlexed : Lexed .expression [x] closer rest)
    (hcloser : ends closer = true ∧ closer ≠ .comma ∧ closer ≠ .newline) :
    Attains (commaSeparated ends (item (turns n))) ctx s fun as t =>
      (Tree.ofList as).erase = ts.erase ∧ t.Shows [] (x :: rest) ∧
        t.cursor.rest.length ≤ s.cursor.rest.length := by
  rw [← ts.ofList_toList, Tree.chars_ofList hmany hmaybe] at hs
  refine attains_commaSeparated Tree.erase hs (fun t ht => ?_) (fun b hb t r hr ht hle => ?_)
    fun as t has ht hle => ⟨?_, ht, hle⟩
  · have hstands : Stands .expression ctx t [x] closer rest :=
      State.Shows.stands ht hlexed (.inl hcloser.2.2)
    rw [hstands.next.1]
    exact ⟨hcloser.1, hcloser.2.1⟩
  · have hends : EndsExpression ctx r := by
      rcases hr with rfl | ⟨u, rfl⟩
      · exact .inr (.inl ⟨x, hx, rest, rfl⟩)
      · exact .inr (.inl ⟨',', by decide, u, rfl⟩)
    have hitem := hitems b hb n ctx t indent r (hroom.shorter hle) hends ht
    exact ⟨hstarts _ hitem.1, hitem.2⟩
  · rw [← ts.ofList_toList, Tree.erase_ofList, Tree.erase_ofList, has]

/-! ## Arguments -/

theorem endsAtom_blank (rest : List Char) : EndsAtom (' ' :: rest) := by
  rintro c ⟨⟩
  decide

/-- An argument with a name is read again. -/
theorem rereads_namedArgument {name : Identifier} {value : Expression} {span : Span}
    (hname : IsReference name.name.toList) (hvalue : RereadsExpression d value) :
    RereadsItem d (·.namedArgument) (· == .identifier) (.namedArgument name value span) := by
  intro n ctx s indent rest hroom hrest hs
  have htext : (Tree.namedArgument name value span).chars indent ""
      = name.name.toList ++ (' ' :: '=' :: ' ' :: value.chars indent "") := by
    change (name.name ++ " = " ++ value.write indent "" : String).toList = _
    simp [Tree.chars]
  rw [htext] at hs
  have hs := hs.assoc
  have hle := hs.length_le
  refine ⟨by rw [(hs.reference hname (endsAtom_blank _)).next.1]; rfl, ?_⟩
  refine attains_seq (attains_bindingName hs hname (endsAtom_blank _)) fun a t ha => ?_
  have hequals : Stands .expression ctx t ['='] (.assignment .assign)
      (' ' :: (value.chars indent "" ++ rest)) :=
    State.Shows.stands ⟨1, ha.2⟩ ⟨rfl, rfl⟩ (.inl (by decide))
  refine attains_seq (hequals.expectAs _) fun token u hu => ?_
  have hshorter : u.cursor.rest.length ≤ s.cursor.rest.length := by
    rw [hu.2]
    simp only [List.length_append, List.length_cons] at hle ⊢
    omega
  refine attains_seq (hvalue.expression (hroom.shorter hshorter) hrest (.of_blank hu.2)).2
    fun b v hb => attains_pure ⟨?_, hb.2⟩
  rw [Tree.erase, Tree.erase, Identifier.erase_eq (ha.1.trans Identifier.toList_name), hb.1]

/-- Named arguments are read again, if there are any, behind their semicolon. -/
theorem attains_namedArguments {named : Tree (.many .namedArgument)} {indent : Nat}
    {rest : List Char}
    (hnamed : ∀ a ∈ named.toList, RereadsItem d (·.namedArgument) (· == .identifier) a)
    (hroom : RoomBelow d n ctx s)
    (hs : s.Shows (Tree.preceded "; " named.isEmpty (named.write indent ", ")).toList
      (')' :: rest)) :
    Attains (turns n).namedArguments ctx s fun as t =>
      (Tree.ofList as).erase = named.erase ∧ t.Shows [] (')' :: rest) := by
  have hclose : Lexed .expression [')'] .rightParen rest := ⟨rfl, rfl⟩
  cases named with
  | nil =>
      have hstands : Stands .expression ctx s [')'] .rightParen rest :=
        State.Shows.stands hs hclose (.inl (by decide))
      exact attains_look hstands.peekKind (attains_pure ⟨rfl, hs⟩)
  | cons a as =>
      have hs : s.Shows (';' :: ' ' :: (Tree.cons a as).chars indent ", ") (')' :: rest) := by
        change s.Shows ("; " ++ _ : String).toList _ at hs
        rwa [String.toList_append] at hs
      have hsemicolon : Stands .expression ctx s [';'] .semicolon _ :=
        State.Shows.stands (State.Shows.assoc (x := [';']) hs) ⟨rfl, rfl⟩ (.inl (by decide))
      refine attains_look hsemicolon.peekKind ?_
      refine attains_seq hsemicolon.advance fun token t ht => ?_
      have hle := hs.length_le
      refine (attains_items (by simp) (by simp) hnamed (fun kind hkind => ?_) (hroom.shorter ?_)
        (.of_blank ht.2.1) (by decide) hclose ⟨rfl, by decide, by decide⟩).mono
        fun as u has => ⟨has.1, has.2.1⟩
      · rw [eq_of_beq hkind]
        rfl
      · rw [ht.2.1]
        simp only [List.length_cons, List.length_append] at hle ⊢
        omega

/-- Arguments in parentheses are read again. -/
theorem rereads_argumentList {positional : Tree (.many .expression)}
    {named : Tree (.many .namedArgument)} {span : Span}
    (hpositional : ∀ e ∈ positional.toList, RereadsExpression d e)
    (hnamed : ∀ a ∈ named.toList, RereadsItem d (·.namedArgument) (· == .identifier) a) :
    RereadsArguments d (.argumentList positional named span) := by
  intro n ctx s indent rest hroom _ hs
  dsimp only at hs ⊢
  rw [Tree.chars_argumentList] at hs
  have hopen : Stands .expression ctx s ['('] .leftParen _ :=
    State.Shows.stands (State.Shows.assoc (x := ['(']) hs) ⟨rfl, rfl⟩ (.inl (by decide))
  refine attains_seq (hopen.expectAs _) fun opening t ht => ?_
  have ht : t.cursor.rest = positional.chars indent ", " ++
      ((Tree.preceded "; " named.isEmpty (named.write indent ", ")).toList ++ ')' :: rest) := by
    rw [ht.2]
    simp
  have hlt : t.cursor.rest.length < s.cursor.rest.length := by
    have hle := hs.length_le
    rw [ht]
    simp only [List.length_cons, List.length_append, List.length_nil] at hle ⊢
    omega
  have hroom := (hroom.below hlt).2 true
  refine attains_bracketed hroom.1 ?_
  generalize { ctx with depth := ctx.depth + 1, inBrackets := true } = inner at hroom
  -- The positional arguments end at the semicolon in front of named ones, or at the end.
  have hfirst : Attains (commaSeparated (fun kind => kind == .rightParen || kind == .semicolon)
      (turns n).expression) inner t fun es u => (Tree.ofList es).erase = positional.erase ∧
        u.Shows (Tree.preceded "; " named.isEmpty (named.write indent ", ")).toList
          (')' :: rest) ∧ u.cursor.rest.length ≤ t.cursor.rest.length := by
    have hends : ∀ kind, Token.Kind.startsExpression kind = true →
        (kind == .rightParen || kind == .semicolon) = false := by
      intro kind hkind
      rw [Token.Kind.ne_of_starts hkind rfl, Token.Kind.ne_of_starts hkind rfl]
      rfl
    have hitems := fun e he => (hpositional e he).item
    cases named with
    | nil =>
        exact attains_items (by simp) (by simp) hitems hends hroom.2 (.of_eq ht) (by decide)
          ⟨rfl, rfl⟩ ⟨rfl, by decide, by decide⟩
    | cons a as =>
        have htail : (Tree.preceded "; " false ((Tree.cons a as).write indent ", ")).toList
            ++ ')' :: rest = ';' :: ' ' ::
              (((Tree.cons a as).chars indent ", ") ++ ')' :: rest) := by
          change ("; " ++ _ : String).toList ++ _ = _
          rw [String.toList_append]
          rfl
        have ht : t.Shows (positional.chars indent ", ") _ := .of_eq (ht.trans (congrArg _ htail))
        refine (attains_items (by simp) (by simp) hitems hends hroom.2 ht (by decide)
          ⟨rfl, rfl⟩ ⟨rfl, by decide, by decide⟩).mono fun es u hes => ⟨hes.1, ?_, hes.2.2⟩
        rcases hes.2.1 with ⟨k, hk⟩
        exact ⟨k, hk.trans (congrArg _ htail.symm)⟩
  refine attains_seq hfirst fun es u hes => ?_
  refine attains_seq (attains_namedArguments hnamed (hroom.2.shorter hes.2.2) hes.2.1)
    fun as v has => ?_
  have hclose : Stands .expression inner v [')'] .rightParen rest :=
    State.Shows.stands has.2 ⟨rfl, rfl⟩ (.inl (by decide))
  refine attains_seq (hclose.expectClosing _) fun token w hw => ?_
  refine attains_look (a := w.cursor.offset) rfl (attains_pure ⟨?_, hw.2⟩)
  rw [Tree.erase, Tree.erase, hes.1, has.1]

/-! ## Calls -/

/-- A name and arguments behind it are read again. -/
theorem attains_arguments {name : Identifier} {arguments : ArgumentList} {indent : Nat}
    {rest : List Char} (hname : IsName name.name.toList) (hroom : Room d n ctx s)
    (harguments : RereadsArguments d arguments)
    (hs : s.cursor.rest = name.name.toList ++ (arguments.chars indent "" ++ rest)) :
    Attains memberName ctx s fun a t => a.erase = name.erase ∧
      (t.next .expression ctx).kind = .leftParen ∧
        Attains (turns n).argumentList ctx t fun b u => b.erase = arguments.erase ∧
          u.cursor.rest = rest := by
  rcases arguments.chars_argumentList_head indent with ⟨inner, hinner⟩
  have hatom : EndsAtom (arguments.chars indent "" ++ rest) := by
    rw [hinner]
    exact endsAtom_leftParen _
  refine (attains_memberName (.of_eq hs) hname hatom).mono fun a t ha =>
    ⟨Identifier.erase_eq (ha.1.trans Identifier.toList_name), ?_, ?_⟩
  · have ht := ha.2
    rw [hinner] at ht
    exact (State.Shows.leftParen ht).next.1
  · refine harguments n ctx t indent rest (hroom.shorter ?_) trivial (.of_eq ha.2)
    rw [ha.2, hs]
    simp

/-- A method of an object. -/
theorem RereadsExpression.methodCall {e : Expression} (h : RereadsExpression d e)
    {dispatch : Dispatch} {name : Identifier} {arguments : ArgumentList} {span : Span}
    (hname : IsName name.name.toList) (harguments : RereadsArguments d arguments) :
    RereadsExpression d (.methodCall e dispatch name arguments span) := by
  rcases hname.exists_cons with ⟨c, cs, hcons⟩
  have hstart : Character.isNameStart c = true := by
    rw [hcons] at hname
    exact (isName_cons.1 hname).1
  refine .of_object (h.receiver.step
    (fun indent =>
      dispatch.spelling.toList ++ (name.name.toList ++ arguments.chars indent ""))
    (fun indent => ?_) (fun indent => ?_) (fun ctx indent rest hrest => ?_) ?_)
  · change (_ ++ dispatch.spelling ++ name.name ++ arguments.write indent "" : String).toList = _
    simp [Tree.chars]
  · cases dispatch <;> exact Nat.succ_pos _
  · cases dispatch with
    | dot =>
        refine .inr (.inl ⟨c, cs ++ (arguments.chars indent "" ++ rest), ?_, hstart⟩)
        rw [hcons]
        simp [Dispatch.spelling]
    | arrow => exact .inr (.inr (.inl ⟨_, rfl⟩))
  · intro n ctx s indent rest e' hroom hrest he' hs
    rw [List.append_assoc, List.append_assoc] at hs
    have hcall : ∀ t : State, t.cursor.rest = name.name.toList
        ++ (arguments.chars indent "" ++ rest) →
        Room d n ctx t := by
      intro t ht
      refine hroom.shorter ?_
      rw [ht, hs]
      simp
    cases dispatch with
    | dot =>
        have hdot : Stands .expression ctx s ['.'] .dot
            (name.name.toList ++ (arguments.chars indent "" ++ rest)) := by
          refine State.Shows.stands (.of_eq hs) ?_ (.inl (by decide))
          rw [hcons]
          exact lexed_dot hstart _
        refine attains_look hdot.peekKind ?_
        refine attains_seq hdot.advance fun token t ht => ?_
        refine attains_seq (attains_arguments hname (hcall t ht.2.1) harguments ht.2.1)
          fun a u ha => ?_
        refine attains_look (a := (u.next .expression ctx).kind) rfl ?_
        rw [if_pos ha.2.1]
        refine attains_seq ha.2.2 fun b v hb => attains_pure ⟨_, rfl, ?_, hb.2⟩
        rw [Tree.erase, Tree.erase, he', ha.1, hb.1]
    | arrow =>
        have harrow : Stands .expression ctx s ['-', '>'] .arrow
            (name.name.toList ++ (arguments.chars indent "" ++ rest)) :=
          State.Shows.stands (.of_eq hs) ⟨rfl, rfl⟩ (.inl (by decide))
        refine attains_look harrow.peekKind ?_
        refine attains_seq harrow.advance fun token t ht => ?_
        refine attains_seq (attains_arguments hname (hcall t ht.2.1) harguments ht.2.1)
          fun a u ha => ?_
        refine attains_look (a := (u.next .expression ctx).kind) rfl ?_
        rw [if_neg (not_not_intro ha.2.1)]
        refine attains_seq ha.2.2 fun b v hb => attains_pure ⟨_, rfl, ?_, hb.2⟩
        rw [Tree.erase, Tree.erase, he', ha.1, hb.1]

/-- A name that stands for a value is a primary, whatever the grammar. -/
theorem attains_primary_reference {g : Grammar} {name rest : List Char} (hname : IsReference name)
    (hrest : EndsAtom rest) (hs : s.Shows name rest) :
    Attains g.primary ctx s fun e t =>
      ∃ span, e = .reference (.ofList name) span ∧ t.cursor.rest = rest := by
  have hstands : Stands .expression ctx s name _ rest := hs.reference hname hrest
  refine attains_look (a := s.next .expression ctx) rfl ?_
  dsimp only
  rw [hstands.next.1, hstands.next.2.1]
  dsimp only
  rw [hname.free]
  exact attains_seq hstands.advance fun token t ht => attains_pure ⟨_, rfl, ht.2.1⟩

/-- A name that stands for a value is read again, also where arguments follow it. -/
theorem rereadsObject_reference {name : List Char} (hname : IsReference name) :
    RereadsObject d (fun _ => name) (fun _ rest => EndsAtom rest)
      fun e => ∃ span, e = .reference (.ofList name) span := by
  intro n ctx s indent rest hroom hrest hs
  refine (attains_primary_reference hname hrest hs).mono fun e t he => ?_
  rcases he with ⟨span, he, ht⟩
  exact ⟨e, t, .refl e t, ⟨span, he⟩, ht⟩

/-- A variable is read again. -/
theorem rereads_reference {name : String} {span : Span} (hname : IsReference name.toList) :
    RereadsExpression d (.reference name span) := by
  refine .of_object fun n ctx s indent rest hroom hrest hs => ?_
  refine (rereadsObject_reference hname n ctx s indent rest hroom hrest.atom hs).mono
    fun e t he => ?_
  rcases he with ⟨e', t', hruns, ⟨span', rfl⟩, ht'⟩
  refine ⟨_, t', hruns, ?_, ht'⟩
  rw [String.ofList_toList]
  rfl

/-- A call of a function is read again. -/
theorem rereads_functionCall {name : Identifier} {arguments : ArgumentList} {span : Span}
    (hname : IsReference name.name.toList) (harguments : RereadsArguments d arguments) :
    RereadsExpression d (.functionCall name arguments span) := by
  refine .of_object ((rereadsObject_reference hname).step
    (fun indent => arguments.chars indent "") (fun indent => ?_) (fun indent => ?_)
    (fun ctx indent rest hrest => ?_) ?_)
  · change (name.name ++ arguments.write indent "").toList = _
    rw [String.toList_append]
    rfl
  · rcases arguments.chars_argumentList_head indent with ⟨inner, hinner⟩
    rw [hinner]
    exact Nat.succ_pos _
  · rcases arguments.chars_argumentList_head indent with ⟨inner, hinner⟩
    rw [hinner]
    exact endsAtom_leftParen _
  · rintro n ctx s indent rest _ hroom hrest ⟨span', rfl⟩ hs
    rcases arguments.chars_argumentList_head indent with ⟨inner, hinner⟩
    have hparen : Stands .expression ctx s ['('] .leftParen (inner ++ rest) := by
      refine State.Shows.leftParen ?_
      rw [hs, hinner]
      rfl
    refine attains_look hparen.peekKind ?_
    refine attains_seq (harguments n ctx s indent rest hroom trivial (.of_eq hs)) fun b t hb =>
      attains_pure ⟨_, rfl, ?_, hb.2⟩
    rw [Tree.erase, Tree.erase, hb.1]
    unfold Identifier.erase
    rw [Identifier.toList_name]

/-! ## Operations -/

/-- Where a sign stands that may make an operator longer, there stands no primary. -/
theorem exists_lexed_sign {c : Char} (hc : c ∈ ['+', '=', '>']) (cs : List Char) :
    ∃ text kind rest, c :: cs = text ++ rest ∧ Lexed .expression text kind rest ∧
      kind.startsPrimary = false ∧ kind ≠ .newline := by
  have hplain : Lexeme.ofMode .expression (c :: cs)
      = (expressionOperators.match? (c :: cs)).getD (.fault .unrecognized 1) ∧
        extrasLength (c :: cs) = 0 := by
    simp only [List.mem_cons, List.not_mem_nil, or_false] at hc
    rcases hc with rfl | rfl | rfl <;> exact ⟨rfl, rfl⟩
  have halone : ∃ e ∈ expressionOperators, e.1 = [c] := by
    simp only [List.mem_cons, List.not_mem_nil, or_false] at hc
    rcases hc with rfl | rfl | rfl <;> decide
  have hnone : ∀ e ∈ expressionOperators, e.1.head? ∈ [some '+', some '=', some '>'] →
      e.2.startsPrimary = false ∧ e.2 ≠ .newline := by
    decide
  rcases halone with ⟨e, he, halone⟩
  have hfound : (expressionOperators.find? fun e => e.1.isPrefixOf (c :: cs)).isSome = true := by
    rw [List.find?_isSome]
    refine ⟨e, he, ?_⟩
    rw [halone]
    simp
  rcases Option.isSome_iff_exists.1 hfound with ⟨e, he⟩
  have hstarts := List.find?_some he
  rcases List.isPrefixOf_iff_prefix.1 hstarts with ⟨rest, hrest⟩
  have hlexeme : Lexeme.ofMode .expression (c :: cs) = .token e.2 e.1.length := by
    rw [hplain.1, OperatorTable.match?, he]
    rfl
  refine ⟨e.1, e.2, rest, hrest.symm, ⟨?_, ?_⟩, hnone e (List.mem_of_find?_eq_some he) ?_⟩
  · rw [hrest]
    exact hplain.2
  · rw [hrest]
    exact hlexeme
  · have hpos : 0 < e.1.length := by
      have hspelled : ∀ e ∈ expressionOperators, 0 < e.1.length := by decide
      exact hspelled e (List.mem_of_find?_eq_some he)
    have hhead : e.1.head? = some c := by
      rcases List.exists_cons_of_length_pos hpos with ⟨x, xs, hx⟩
      rw [hx, List.cons_append] at hrest
      rw [hx, (List.cons.inj hrest).1]
      rfl
    rw [hhead]
    simpa using hc

theorem precedenceTable_nodup : precedenceTable.flatten.Nodup := by
  decide

theorem BinaryOperator.mem_precedenceTable (op : BinaryOperator) :
    op ∈ precedenceTable.flatten := by
  cases op <;> decide

/-- The token of a unary operator. -/
def UnaryOperator.kind : UnaryOperator → Token.Kind
  | not => .notKeyword
  | reference => .ampersand
  | plus => .operator .add
  | negate => .operator .subtract

@[simp] theorem UnaryOperator.unary?_kind (op : UnaryOperator) : op.kind.unary? = some op := by
  cases op <;> rfl

/-- What a unary operator has between it and its operand. -/
def UnaryOperator.gap (op : UnaryOperator) : List Char :=
  if op = .not then [' '] else []

/-- A unary operator stands in front of what does not make it longer. -/
theorem lexed_unary (op : UnaryOperator) {rest : List Char}
    (hrest : ∀ c, rest.head? = some c → c ∉ ['+', '=', '>']) :
    Lexed .expression op.spelling.toList op.kind (op.gap ++ rest) := by
  cases op with
  | not => exact ⟨rfl, rfl⟩
  | reference => exact ⟨rfl, rfl⟩
  | plus =>
      refine ⟨rfl, ?_⟩
      cases rest with
      | nil => rfl
      | cons c r =>
          have hc := hrest c rfl
          simp only [List.mem_cons, List.not_mem_nil, or_false, not_or] at hc
          have hplus : ('+' == c) = false := beq_eq_false_iff_ne.2 (Ne.symm hc.1)
          have hequals : ('=' == c) = false := beq_eq_false_iff_ne.2 (Ne.symm hc.2.1)
          change (expressionOperators.match? ('+' :: c :: r)).getD _ = _
          simp [OperatorTable.match?, expressionOperators, List.find?, List.isPrefixOf, hplus,
            hequals, UnaryOperator.kind, UnaryOperator.spelling]
  | negate =>
      refine ⟨rfl, ?_⟩
      cases rest with
      | nil => rfl
      | cons c r =>
          have hc := hrest c rfl
          simp only [List.mem_cons, List.not_mem_nil, or_false, not_or] at hc
          have harrow : ('>' == c) = false := beq_eq_false_iff_ne.2 (Ne.symm hc.2.2)
          change (expressionOperators.match? ('-' :: c :: r)).getD _ = _
          simp [OperatorTable.match?, expressionOperators, List.find?, List.isPrefixOf, harrow,
            UnaryOperator.kind, UnaryOperator.spelling]

/-- A primary starts with no sign that makes an operator longer. -/
theorem RereadsObject.head_ne {text : Nat → List Char} {ends : Context → List Char → Prop}
    {P : Expression → Prop} (h : RereadsObject d text ends P) (indent : Nat) {rest : List Char}
    (hroom : Room d n ctx s) (hrest : ends ctx rest)
    (hle : (text indent ++ rest).length ≤ s.cursor.rest.length) :
    ∀ c, (text indent ++ rest).head? = some c → c ∉ ['+', '=', '>'] := by
  intro c hc hsign
  rcases List.head?_eq_some_iff.1 hc with ⟨cs, hcs⟩
  rcases exists_lexed_sign hsign cs with ⟨x, kind, r, hsplit, hlexed, hkind⟩
  have hstarts := (h n ctx ⟨⟨text indent ++ rest, 0⟩, []⟩ indent rest (hroom.shorter hle) hrest
    (.of_eq rfl)).startsPrimary
  have hstands : Stands .expression ctx ⟨⟨text indent ++ rest, 0⟩, []⟩ x kind r :=
    State.Shows.stands (.of_eq (hcs.trans hsplit)) hlexed (.inl hkind.2)
  rw [hstands.next.1, hkind.1] at hstarts
  cases hstarts

namespace RereadsExpression

variable {l r : Expression}

/-- An operation between two operands. -/
theorem binary {op : BinaryOperator} {span : Span} (hl : RereadsExpression d l)
    (hr : RereadsExpression d r) : RereadsExpression d (.binary op l r span) where
  whole n ctx s indent rest hroom hrest hs := by
    have htext : (Tree.binary op l r span).chars indent ""
        = (Tree.parenthesize l.isOperation (l.write indent "")).toList
          ++ (' ' :: (op.spelling.toList
            ++ (' ' :: (Tree.parenthesize r.isOperation (r.write indent "")).toList))) := by
      change (_ ++ " " ++ op.spelling ++ " " ++ _ : String).toList = _
      simp
    dsimp only at hs
    rw [htext] at hs
    have hle := hs.length_le
    have hs := hs.assoc
    rw [List.cons_append, List.append_assoc, List.cons_append] at hs
    have hoperand := fun {e : Expression} (h : RereadsExpression d e) =>
      h.operand.unary fun _ _ hends => hends
    refine (attains_levels_binary (L := fun a => a.erase = l.erase)
      (R := fun b => b.erase = r.erase)
      op.mem_precedenceTable precedenceTable_nodup
      (hoperand hl n ctx s indent _ hroom (.inr ⟨op, _, rfl⟩) hs)
      (fun t ht => hoperand hr n ctx t indent rest (hroom.shorter ?_) (.inl hrest) (.of_blank ht))
      (by simp) hrest).mono fun e t he => ?_
    · rw [ht]
      simp only [List.length_append, List.length_cons] at hle ⊢
      omega
    · rcases he with ⟨⟨a, b, rfl, ha, hb⟩, ht⟩
      refine ⟨?_, ht⟩
      change Tree.binary op a.erase b.erase default = Tree.binary op l.erase r.erase default
      rw [ha, hb]
  object h := nomatch h

/-- An operation on one operand. -/
theorem unary {op : UnaryOperator} {span : Span} (h : RereadsExpression d l) :
    RereadsExpression d (.unary op l span) where
  whole n ctx s indent rest hroom hrest hs := by
    have htext : (Tree.unary op l span).chars indent "" = op.spelling.toList
        ++ (op.gap ++ (Tree.parenthesize l.isOperation (l.write indent "")).toList) := by
      change (op.spelling ++ (if op = .not then " " else "") ++ _ : String).toList = _
      unfold UnaryOperator.gap
      split <;> simp
    dsimp only at hs
    rw [htext] at hs
    have hle := hs.length_le
    have hs := hs.assoc
    rw [List.append_assoc] at hs
    have hlexed := lexed_unary op (h.operand.head_ne indent hroom (.inl hrest) (by
      simp only [List.length_append] at hle ⊢
      omega))
    have hstands : Stands .expression ctx s _ op.kind _ :=
      hs.stands hlexed (.inl (by cases op <;> decide))
    refine attains_levels_operand (P := fun e t => e.erase = _ ∧ t.cursor.rest = rest) ?_
      fun e t he op hop => ?_
    · refine attains_look hstands.peekKind ?_
      rw [op.unary?_kind]
      refine attains_seq hstands.advance fun token t ht => ?_
      refine attains_seq (h.operand.postfixed (fun _ _ hends => hends) n ctx t indent rest
        (hroom.shorter ?_) (.inl hrest) ?_) fun e u he => attains_pure ⟨?_, he.2⟩
      · rw [ht.2.1]
        simp only [List.length_append] at hle ⊢
        omega
      · cases op with
        | not => exact .of_blank ht.2.1
        | _ => exact .of_eq ht.2.1
      · change Tree.unary op e.erase default = Tree.unary op l.erase default
        rw [he.1]
    · rw [hrest.binary? he.2] at hop
      cases hop
  object h := nomatch h

end RereadsExpression

end Ysh
