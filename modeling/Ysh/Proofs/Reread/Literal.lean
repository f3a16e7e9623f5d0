import Ysh.Proofs.Lexing.Number
import Ysh.Proofs.Lexing.Quoted
import Ysh.Proofs.Reread.Operation

/-!
# Reading Printed Literals

A literal is a primary. One token is all of a number, of a boolean and of null; the
other literals open with a token and go on to the one that closes them. A string is
read piece by piece: a run of text ends in front of the closing quote, since a
single-quoted text has no quote in it, and the quote that opens it is followed by no
two others, since what stands behind an object is no quote.

## Main definitions

* `RereadsKey`: A key of a dict is read again.

## Theorems

* `rereads_number`, `rereads_boolean`, `rereads_null`: Literals of one token.
* `attains_pieceRound`: A round of a string.
* `rereads_singleQuoted`: A single-quoted string.
* `rereads_list`, `rereads_dict`: Literals that hold expressions.
-/

namespace Ysh

open Grammar

variable {d : Option Definition} {n : Nat} {ctx : Context} {s : State}

/-! ## Literals of one token -/

/-- A primary without a step behind it. -/
theorem RereadsExpression.of_primary {e : Expression}
    (h : ∀ n ctx s indent rest, Room d n ctx s → EndsPrimary e.blocksPostfix ctx rest →
      s.Shows (e.chars indent "") rest →
        Attains (turns n).primary ctx s fun a t => a.erase = e.erase ∧ t.cursor.rest = rest) :
    RereadsExpression d e :=
  .of_object fun n ctx s indent rest hroom hrest hs =>
    (h n ctx s indent rest hroom hrest hs).mono fun a t ha => ⟨a, t, .refl a t, ha⟩

/-- A primary that is one token. -/
theorem RereadsObject.of_token {text : List Char} (kind : Token.Kind) (l : Token → Literal)
    {ends : Context → List Char → Prop} {P : Expression → Prop}
    (hlexed : ∀ ctx rest, ends ctx rest → Lexed .expression text kind rest)
    (hkind : kind ≠ .newline)
    (hread : ∀ (g : Grammar) ctx s Q, (s.next .expression ctx).kind = kind →
      Attains (do
        let _ ← advance .expression
        return .literalExpression (l (s.next .expression ctx)) : Parse Expression) ctx s Q →
        Attains g.primary ctx s Q)
    (hresult : ∀ token : Token, token.text = .ofList text → P (.literalExpression (l token))) :
    RereadsObject d (fun _ => text) ends P := by
  intro n ctx s indent rest hroom hrest hs
  have hstands : Stands .expression ctx s text kind rest :=
    hs.stands (hlexed ctx rest hrest) (.inl hkind)
  refine hread _ ctx s _ hstands.next.1 ?_
  exact attains_seq hstands.advance fun token t ht =>
    attains_pure ⟨_, t, .refl _ t, hresult _ hstands.next.2.1, ht.2.1⟩

/-- A number is read again. -/
theorem rereads_number {n : Numeral} (h : n.Spelled) :
    RereadsExpression d (.literalExpression (.number n)) := by
  refine .of_object (RereadsObject.of_token .number
    (fun token => .number (.ofText token.text token.span))
    (fun ctx rest hrest => h.1.number_of_ends hrest.number) (by decide) ?_ fun token htoken => ?_)
  · intro g ctx s Q hkind hQ
    refine attains_look (a := s.next .expression ctx) rfl ?_
    dsimp only
    rw [hkind]
    exact hQ
  · rw [htoken, String.ofList_toList]
    conv => rhs; rw [h.2]
    rfl

/-- A boolean is read again. -/
theorem rereads_boolean {value : Bool} {span : Span} :
    RereadsExpression d (.literalExpression (.boolean value span)) := by
  have hlexed : ∀ ctx rest, EndsObject ctx rest →
      Lexed .expression (if value then "true" else "false").toList
        (if value then .trueKeyword else .falseKeyword) rest := by
    intro ctx rest hrest
    cases value <;> exact lexed_name rfl hrest.atom
  refine .of_object (RereadsObject.of_token _ (fun token => .boolean value token.span) hlexed
    (by cases value <;> decide) ?_ fun token _ => rfl)
  intro g ctx s Q hkind hQ
  refine attains_look (a := s.next .expression ctx) rfl ?_
  dsimp only
  rw [hkind]
  cases value <;> exact hQ

/-- Null is read again. -/
theorem rereads_null {span : Span} : RereadsExpression d (.literalExpression (.null span)) := by
  have hlexed : ∀ ctx rest, EndsObject ctx rest →
      Lexed .expression "null".toList .nullKeyword rest := fun ctx rest hrest =>
    lexed_name rfl hrest.atom
  refine .of_object (RereadsObject.of_token _ (fun token => .null token.span) hlexed
    (by decide) ?_ fun token _ => rfl)
  intro g ctx s Q hkind hQ
  refine attains_look (a := s.next .expression ctx) rfl ?_
  dsimp only
  rw [hkind]
  exact hQ

/-! ## Strings -/

section

variable {style : StringStyle} {triple : Bool} {opening : Span} {g : Grammar}
  {fragments : Array Fragment} {rest : List Char}

/-- A round of a string reads the piece that stands there. -/
theorem attains_pieceRound {x : List Char} {f : Quoted.Form}
    {Q : Round (Array Fragment) → State → Prop} (hne : x ≠ [])
    (hs : s.cursor.rest = x ++ rest)
    (hform : Quoted.form style triple (x ++ rest) = (f, x.length))
    (h : ∀ t, t.cursor.rest = rest → Attains (match f.piece s.cursor x.length with
      | .text value span => return .again (fragments.push (.text value span))
      | .escape raw span => return .again (fragments.push (.escape raw span))
      | .badEscape error raw span => do
          report (.lexical error)
          return .again (fragments.push (.text raw span))
      | .expansion opener token => do
          match ← attempt (g.expansion opener token) with
          | .ok e => return .again (fragments.push (.expansionFragment e))
          | .error error =>
              report (.syntactic error)
              return .again fragments
      | .close _ => return .stop fragments : Scan (Round (Array Fragment))) ctx t Q) :
    Attains (g.stringRound style triple opening fragments) ctx s Q := by
  have hempty : s.cursor.rest ≠ [] := by
    rw [hs]
    simp [hne]
  have hpiece : s.cursor.piece style triple opening = _ := Cursor.piece_eq hempty (hs ▸ hform)
  refine attains_seq (attains_raw (Q := fun p t => p = .ok (f.piece s.cursor x.length) ∧
    t.cursor.rest = rest) ?_) fun p t hp => ?_
  · rw [hpiece]
    refine ⟨rfl, ?_⟩
    change s.cursor.rest.drop x.length = rest
    rw [hs, List.drop_left' rfl]
  · rcases hp with ⟨rfl, ht⟩
    have hround := h t ht
    generalize f.piece s.cursor x.length = piece at hround ⊢
    cases piece <;> exact hround

/-- A run of text is one round of a string. -/
theorem attains_textRound {x : List Char} (hne : x ≠ []) (hs : s.cursor.rest = x ++ rest)
    (hform : Quoted.form style triple (x ++ rest) = (.text, x.length)) :
    Attains (g.stringRound style triple opening fragments) ctx s fun r t =>
      (∃ span, r = .again (fragments.push (.text (.ofList x) span))) ∧ t.cursor.rest = rest := by
  refine attains_pieceRound hne hs hform fun t ht =>
    attains_pure ⟨⟨s.cursor.spanOf x.length, ?_⟩, ht⟩
  rw [Cursor.textOf, hs, List.take_left' rfl]

/-- The closing quote is the last round of a string. -/
theorem attains_closeRound (hs : s.cursor.rest = style.delimiter triple ++ rest) :
    Attains (g.stringRound style triple opening fragments) ctx s fun r t =>
      r = .stop fragments ∧ t.cursor.rest = rest := by
  have hform : Quoted.form style triple (style.delimiter triple ++ rest)
      = (.close, (style.delimiter triple).length) :=
    Quoted.form_close_iff.2 ⟨List.prefix_append _ _, rfl⟩
  refine attains_pieceRound ?_ hs hform fun t ht => attains_pure ⟨rfl, ht⟩
  cases triple <;> exact nofun

end

/-- A text without quotes ends where the closing quote stands. -/
theorem textLength_of_not_mem {close x rest : List Char} {q : Char} (hclose : close.head? = some q)
    (hx : q ∉ x) (hrest : close.isPrefixOf rest = true) :
    Quoted.textLength close (fun _ => false) (x ++ rest) = x.length := by
  rcases List.head?_eq_some_iff.1 hclose with ⟨t, rfl⟩
  induction x with
  | nil =>
      cases rest with
      | nil => rfl
      | cons c rest => rw [List.nil_append, Quoted.textLength, if_pos (by rw [hrest]; rfl)]; rfl
  | cons c x ih =>
      rw [List.mem_cons, not_or] at hx
      have hnot : (q :: t).isPrefixOf (c :: (x ++ rest)) = false := by
        rw [List.isPrefixOf, beq_eq_false_iff_ne.2 hx.1]
        rfl
      rw [List.cons_append, Quoted.textLength, hnot, if_neg (by decide), ih hx.2]
      rfl

theorem form_of_not_mem {triple : Bool} {x rest : List Char} (hne : x ≠ []) (hx : '\'' ∉ x) :
    Quoted.form .singleQuoted triple (x ++ (StringStyle.singleQuoted.delimiter triple ++ rest))
      = (.text, x.length) := by
  have hhead : (StringStyle.singleQuoted.delimiter triple).head? = some '\'' := by
    cases triple <;> rfl
  have hclose : (StringStyle.singleQuoted.delimiter triple).isPrefixOf
      (StringStyle.singleQuoted.delimiter triple ++ rest) = true :=
    List.isPrefixOf_iff_prefix.2 (List.prefix_append _ _)
  have hopen : (StringStyle.singleQuoted.delimiter triple).isPrefixOf
      (x ++ (StringStyle.singleQuoted.delimiter triple ++ rest)) = false := by
    rcases List.exists_cons_of_ne_nil hne with ⟨c, x, rfl⟩
    have hc : '\'' ≠ c := fun h => hx (h ▸ List.mem_cons_self)
    cases triple <;> simp [StringStyle.delimiter, StringStyle.quote, List.isPrefixOf, hc]
  unfold Quoted.form
  dsimp only
  rw [hopen, if_neg (by decide), textLength_of_not_mem hhead hx hclose]

/-- The fragments of a text: one, unless the text is empty. -/
def Tree.fragmentsOf (value : String) (span : Span) : Tree (.many .fragment) :=
  if value = "" then .nil else .cons (.text value span) .nil

/-- The body of a single-quoted string is read up to its closing quote. -/
theorem attains_singleQuoted (span span' : Span) {g : Grammar} {triple : Bool} {opening : Span}
    {value : String} {rest : List Char} (hvalue : '\'' ∉ value.toList)
    (hs : s.cursor.rest = value.toList ++ (StringStyle.singleQuoted.delimiter triple ++ rest)) :
    Attains (g.stringBody .singleQuoted triple opening) ctx s fun a t =>
      a.erase = (Tree.string .singleQuoted triple (Tree.fragmentsOf value span) span').erase ∧
        t.cursor.rest = rest := by
  have hloop : Attains (loop (g.stringRound .singleQuoted triple opening) #[]) ctx s
      fun fragments t => (Tree.ofList fragments.toList).erase
        = (Tree.fragmentsOf value span).erase ∧
        t.cursor.rest = rest := by
    by_cases hempty : value = ""
    · subst hempty
      refine (Runs.refl #[] s).attains_loop ((attains_closeRound hs).mono fun r t hr => ?_)
      exact ⟨#[], hr.1, rfl, hr.2⟩
    · have hne : value.toList ≠ [] := fun hnil => hempty (String.toList_eq_nil_iff.1 hnil)
      have htext : Attains (g.stringRound .singleQuoted triple opening #[]) ctx s _ :=
        attains_textRound hne hs (form_of_not_mem hne hvalue)
      rcases htext with ⟨r, t, hround, hquiet, ⟨span'', rfl⟩, ht⟩
      have hlt : t.cursor.rest.length < s.cursor.rest.length := by
        have hpos := List.length_pos_iff.2 hne
        rw [ht, hs]
        simp only [List.length_append]
        omega
      refine (Runs.head hround hquiet hlt (.refl _ t)).attains_loop
        ((attains_closeRound ht).mono fun r u hr => ⟨_, hr.1, ?_, hr.2⟩)
      rw [Tree.fragmentsOf, if_neg hempty, String.ofList_toList]
      rfl
  refine attains_seq hloop fun fragments t hfragments => ?_
  refine attains_look (a := t.cursor.offset) rfl (attains_pure ⟨?_, hfragments.2⟩)
  rw [Tree.erase, Tree.erase, hfragments.1]

/-- A single-quoted string is read again. -/
theorem rereads_singleQuoted {triple : Bool} {value : String} {span span' : Span}
    (hvalue : '\'' ∉ value.toList) :
    RereadsExpression d (.literalExpression (.stringLiteral
      (.string .singleQuoted triple (Tree.fragmentsOf value span) span'))) := by
  refine .of_primary fun n ctx s indent rest hroom hrest hs => ?_
  let delimiter := StringStyle.singleQuoted.delimiter triple
  have htext : (Tree.literalExpression (.stringLiteral
      (.string .singleQuoted triple (Tree.fragmentsOf value span) span'))).chars indent ""
      = delimiter ++ (value.toList ++ delimiter) := by
    change ("" ++ String.ofList delimiter ++ (Tree.fragmentsOf value span).write indent ""
      ++ String.ofList delimiter).toList = _
    have hfragments : (Tree.fragmentsOf value span).write indent "" = value := by
      unfold Tree.fragmentsOf
      split
      · next hempty => exact hempty.symm
      · rfl
    rw [hfragments]
    simp
  rw [htext] at hs
  have hs := hs.assoc
  rw [List.append_assoc] at hs
  have hafter : triple = false →
      ['\'', '\''].isPrefixOf (value.toList ++ (delimiter ++ rest)) = false := by
    rintro rfl
    cases hcs : value.toList with
    | nil =>
        cases rest with
        | nil => rfl
        | cons c r =>
            have hc := (hrest.atom c rfl).2.1
            simp [delimiter, StringStyle.delimiter, StringStyle.quote, List.isPrefixOf, hc.symm]
    | cons c cs =>
        have hc : '\'' ≠ c := fun h => hvalue (by rw [hcs, h]; exact List.mem_cons_self)
        simp [List.isPrefixOf, hc]
  have hstands : Stands .expression ctx s delimiter (.quote .singleQuoted triple)
      (value.toList ++ (delimiter ++ rest)) :=
    hs.stands (Lexed.quote_iff.2 ⟨rfl, hafter⟩) (.inl (by simp))
  refine attains_look (a := s.next .expression ctx) rfl ?_
  dsimp only
  rw [hstands.next.1]
  refine attains_seq hstands.advance fun token t ht => ?_
  refine attains_seq (attains_lift (attains_singleQuoted span span' hvalue ht.2.1)) fun a u ha =>
    attains_pure ⟨?_, ha.2⟩
  exact congrArg (fun s => Tree.literalExpression (.stringLiteral s)) ha.1

/-! ## Lists and dicts -/

/-- Items between two brackets are read again behind the opening one. -/
theorem attains_bracketedItems {c : Category} (hmany : ∀ k, c ≠ .many k)
    (hmaybe : ∀ k, c ≠ .maybe k) (item : Grammar → Parse (Tree c))
    (make : Tree (.many c) → Span → Literal) {starts : Token.Kind → Bool} {ts : Tree (.many c)}
    {x : Char} {closer : Token.Kind} {rest : List Char} {indent : Nat} {opening : Span}
    (hitems : ∀ t ∈ ts.toList, RereadsItem d item starts t)
    (hstarts : ∀ kind, starts kind = true → (kind == closer) = false)
    (hroom : Room d n ctx s) {t : State} (hlt : t.cursor.rest.length < s.cursor.rest.length)
    (ht : t.cursor.rest = ts.chars indent ", " ++ x :: rest) (hx : x ∈ [')', ']', '}', ',', ';'])
    (hlexed : Lexed .expression [x] closer rest) (hcloser : closer ≠ .comma ∧ closer ≠ .newline) :
    Attains (bracketed do
      let items ← commaSeparated (· == closer) (item (turns n))
      let _ ← expectClosing .expression closer opening
      return make (.ofList items) (opening.upTo (← position)) : Parse Literal) ctx t
      fun l u => (∃ as span, l = make as span ∧ as.erase = ts.erase) ∧ u.cursor.rest = rest := by
  have hroom := (hroom.below hlt).2 true
  refine attains_bracketed hroom.1 ?_
  generalize { ctx with depth := ctx.depth + 1, inBrackets := true } = inner at hroom
  refine attains_seq (attains_items hmany hmaybe hitems hstarts hroom.2 (.of_eq ht) hx hlexed
    ⟨beq_self_eq_true _, hcloser⟩) fun as u has => ?_
  have hclose : Stands .expression inner u [x] closer rest :=
    State.Shows.stands has.2.1 hlexed (.inl hcloser.2)
  refine attains_seq (hclose.expectClosing _) fun token v hv => ?_
  exact attains_look (a := v.cursor.offset) rfl
    (attains_pure ⟨⟨_, _, rfl, has.1⟩, hv.2⟩)

/-- A list is read again. -/
theorem rereads_list {es : Tree (.many .expression)} {span : Span}
    (hes : ∀ e ∈ es.toList, RereadsExpression d e) :
    RereadsExpression d (.literalExpression (.list es span)) := by
  refine .of_primary fun n ctx s indent rest hroom hrest hs => ?_
  have htext : (Tree.literalExpression (.list es span)).chars indent ""
      = ['['] ++ (es.chars indent ", " ++ [']']) := by
    change ("[" ++ es.write indent ", " ++ "]" : String).toList = _
    simp [Tree.chars]
  rw [htext] at hs
  have hle := hs.length_le
  have hopen : Stands .expression ctx s ['['] .leftBracket _ :=
    State.Shows.stands hs.assoc ⟨rfl, rfl⟩ (.inl (by decide))
  refine attains_look (a := s.next .expression ctx) rfl ?_
  dsimp only
  rw [hopen.next.1]
  refine attains_seq hopen.advance fun token t ht => ?_
  have ht : t.cursor.rest = es.chars indent ", " ++ ']' :: rest := by
    rw [ht.2.1]
    simp
  refine attains_seq (attains_bracketedItems (by simp) (by simp) (·.expression)
    .list (fun e he => (hes e he).item) (fun kind hkind => Token.Kind.ne_of_starts hkind rfl)
    hroom ?_ ht (by decide) ⟨rfl, rfl⟩ ⟨by decide, by decide⟩) fun l u hl => ?_
  · rw [ht]
    simp only [List.length_cons, List.length_append, List.length_nil] at hle ⊢
    omega
  · rcases hl with ⟨⟨as, span', rfl, has⟩, hu⟩
    refine attains_pure ⟨?_, hu⟩
    rw [Tree.erase, Tree.erase, Tree.erase, Tree.erase, has]

/-- A token that an entry of a dict starts with. -/
def Token.Kind.startsEntry : Token.Kind → Bool
  | leftBracket | quote _ _ => true
  | kind => kind.isMemberName

/-- A key of a dict is read again in front of its colon. -/
def RereadsKey (d : Option Definition) (key : DictKey) : Prop :=
  ∀ n ctx s indent rest, RoomBelow d n ctx s →
    s.Shows (key.chars indent "") (':' :: ' ' :: rest) →
      (s.next .expression ctx).kind.startsEntry = true ∧
        Attains (turns n).dictKey ctx s fun a s' =>
          a.erase = key.erase ∧ s'.cursor.rest = ':' :: ' ' :: rest

theorem Token.Kind.startsEntry_of_isMemberName {kind : Token.Kind} (h : kind.isMemberName = true) :
    kind.startsEntry = true := by
  cases kind with
  | leftBracket | quote => rfl
  | _ => exact h

theorem endsAtom_colon (rest : List Char) : EndsAtom (':' :: rest) := by
  rintro c ⟨⟩
  decide

theorem rereads_nameKey {name : Identifier} (hname : IsName name.name.toList) :
    RereadsKey d (.nameKey name) := by
  intro n ctx s indent rest hroom hs
  have hs : s.Shows name.name.toList (':' :: ' ' :: rest) := hs
  have hmember : (s.next .expression ctx).kind.isMemberName = true := by
    rw [(hs.name hname (endsAtom_colon _)).next.1]
    exact IsName.isMemberName _
  refine ⟨Token.Kind.startsEntry_of_isMemberName hmember, attains_look
    (a := s.next .expression ctx) rfl ?_⟩
  have hread : Attains (do return .nameKey (← memberName) : Parse DictKey) ctx s fun a t =>
      a.erase = (Tree.nameKey name).erase ∧ t.cursor.rest = ':' :: ' ' :: rest :=
    attains_seq (attains_memberName hs hname (endsAtom_colon _)) fun a t ha =>
      attains_pure ⟨congrArg Tree.nameKey (Identifier.erase_eq (ha.1.trans Identifier.toList_name)),
        ha.2⟩
  generalize (s.next .expression ctx).kind = kind at hmember
  cases kind with
  | operator op => exact hread
  | _ => first | (cases hmember; done) | exact hread

theorem rereads_expressionKey {e : Expression} (h : RereadsExpression d e) :
    RereadsKey d (.expressionKey e) := by
  intro n ctx s indent rest hroom hs
  have htext : (Tree.expressionKey e).chars indent "" = '[' :: (e.chars indent "" ++ [']']) := by
    change ("[" ++ e.write indent "" ++ "]" : String).toList = _
    simp [Tree.chars]
  rw [htext] at hs
  have hopen : Stands .expression ctx s ['['] .leftBracket _ :=
    State.Shows.stands (State.Shows.assoc (x := ['[']) hs) ⟨rfl, rfl⟩ (.inl (by decide))
  refine ⟨by rw [hopen.next.1]; rfl, attains_look (a := s.next .expression ctx) rfl ?_⟩
  rw [hopen.next.1]
  refine attains_seq hopen.advance fun token t ht => ?_
  have ht : t.cursor.rest = e.chars indent "" ++ ']' :: ':' :: ' ' :: rest := by
    rw [ht.2.1]
    simp
  have hle : t.cursor.rest.length ≤ s.cursor.rest.length := by
    have hle := hs.length_le
    rw [ht]
    simp only [List.length_cons, List.length_append, List.length_nil] at hle ⊢
    omega
  refine attains_seq (h.expression (hroom.shorter hle) (.inr (.inl ⟨']', by decide, _, rfl⟩))
    (.of_eq ht)).2 fun a u ha => ?_
  have hclose : Stands .expression ctx u [']'] .rightBracket (':' :: ' ' :: rest) :=
    State.Shows.stands (.of_eq ha.2) ⟨rfl, rfl⟩ (.inl (by decide))
  refine attains_seq (hclose.expectClosing _) fun token v hv => attains_pure ⟨?_, hv.2⟩
  rw [Tree.erase, Tree.erase, ha.1]

/-- An entry of a dict is read again. -/
theorem rereads_dictEntry {key : DictKey} {value : Expression} {span : Span}
    (hkey : RereadsKey d key) (hvalue : RereadsExpression d value) :
    RereadsItem d (·.dictEntry) Token.Kind.startsEntry (.dictEntry key value span) := by
  intro n ctx s indent rest hroom hrest hs
  have htext : (Tree.dictEntry key value span).chars indent ""
      = key.chars indent "" ++ (':' :: ' ' :: value.chars indent "") := by
    change (key.write indent "" ++ ": " ++ value.write indent "" : String).toList = _
    simp [Tree.chars]
  rw [htext] at hs
  have hle := hs.length_le
  rcases hkey n ctx s indent (value.chars indent "" ++ rest) hroom hs.assoc with ⟨hstarts, hread⟩
  refine ⟨hstarts, attains_look (a := s.next .expression ctx) rfl ?_⟩
  refine attains_seq hread fun a t ha => ?_
  have hcolon : Stands .expression ctx t [':'] .colon (' ' :: (value.chars indent "" ++ rest)) :=
    State.Shows.stands (.of_eq ha.2) ⟨rfl, rfl⟩ (.inl (by decide))
  refine attains_seq (hcolon.expectAs _) fun token u hu => ?_
  refine attains_seq (hvalue.expression (hroom.shorter ?_) hrest (.of_blank hu.2)).2
    fun b v hb => attains_pure ⟨?_, hb.2⟩
  · rw [hu.2]
    simp only [List.length_cons, List.length_append] at hle ⊢
    omega
  · rw [Tree.erase, Tree.erase, ha.1, hb.1]

/-- A dict is read again. -/
theorem rereads_dict {entries : Tree (.many .dictEntry)} {span : Span}
    (hentries : ∀ t ∈ entries.toList, RereadsItem d (·.dictEntry) Token.Kind.startsEntry t) :
    RereadsExpression d (.literalExpression (.dict entries span)) := by
  refine .of_primary fun n ctx s indent rest hroom hrest hs => ?_
  have htext : (Tree.literalExpression (.dict entries span)).chars indent ""
      = ['{'] ++ (entries.chars indent ", " ++ ['}']) := by
    change ("\x7b" ++ entries.write indent ", " ++ "\x7d" : String).toList = _
    simp [Tree.chars]
  rw [htext] at hs
  have hle := hs.length_le
  have hopen : Stands .expression ctx s ['{'] .leftBrace _ :=
    State.Shows.stands hs.assoc ⟨rfl, rfl⟩ (.inl (by decide))
  refine attains_look (a := s.next .expression ctx) rfl ?_
  dsimp only
  rw [hopen.next.1]
  refine attains_seq hopen.advance fun token t ht => ?_
  have ht : t.cursor.rest = entries.chars indent ", " ++ '}' :: rest := by
    rw [ht.2.1]
    simp
  refine attains_seq (attains_bracketedItems (by simp) (by simp) (·.dictEntry)
    .dict hentries (fun kind hkind => ?_) hroom ?_ ht (by decide) ⟨rfl, rfl⟩
    ⟨by decide, by decide⟩) fun l u hl => ?_
  · rw [beq_eq_false_iff_ne]
    rintro rfl
    cases hkind
  · rw [ht]
    simp only [List.length_cons, List.length_append, List.length_nil] at hle ⊢
    omega
  · rcases hl with ⟨⟨as, span', rfl, has⟩, hu⟩
    refine attains_pure ⟨?_, hu⟩
    rw [Tree.erase, Tree.erase, Tree.erase, Tree.erase, has]

end Ysh
