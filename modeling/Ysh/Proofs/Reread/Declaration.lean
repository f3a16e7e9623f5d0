import Ysh.Proofs.Reread.Element

/-!
# Reading Printed Declarations

A declaration, a constant or an assignment ends with a value, and so with the line. A
constant in short starts with a name and an equals sign by itself, which a call never
does.

## Main definitions

* `RereadsAccessor`: A step from a variable to a place inside it is read again.

## Theorems

* `attains_nameAndValue`: What stands behind the keyword of a declaration.
* `Grammar.keeps_variableDeclaration`, `Grammar.keeps_constantDeclaration`,
  `Grammar.keeps_shorthandConstant`, `Grammar.keeps_assignment`: The declarations and
  assignments of a source are read again.
-/

namespace Ysh

open Grammar

variable {d : Option Definition} {P : Prop} {n : Nat} {ctx : Context} {s : State}

/-- Where a statement ends, an expression ends. -/
theorem EndsStatement.endsExpression {rest : List Char} (h : EndsStatement rest)
    (hout : ctx.inBrackets = false) : EndsExpression ctx rest := by
  rcases h with ⟨k, whole, rfl, -⟩ | ⟨r, rfl⟩ | ⟨r, rfl⟩
  · exact .inr (.inr (.inl ⟨hout, _, rfl⟩))
  · exact .inr (.inl ⟨_, by decide, _, rfl⟩)
  · exact .inr (.inl ⟨_, by decide, _, rfl⟩)

/-- Where no pipe may follow, an element ends a statement. -/
theorem EndsElement.endsExpression {rest : List Char} (h : EndsElement P rest) (hP : ¬ P)
    (hout : ctx.inBrackets = false) : EndsExpression ctx rest :=
  (h.resolve_right fun hand => hP hand.1).endsExpression hout

/-! ## Declarations -/

/-- A name, an equals sign and a value are read again. -/
theorem attains_nameAndValue {name : Identifier} {value : Expression} {indent : Nat}
    {rest : List Char} (hname : IsReference name.name.toList) (hvalue : RereadsExpression d value)
    (hroom : RoomBelow d n ctx s) (hrest : EndsExpression ctx rest)
    (hs : s.Shows (name.name.toList ++ ' ' :: '=' :: ' ' :: value.chars indent "") rest) :
    Attains (turns n).nameAndValue ctx s fun p t =>
      p.1.erase = name.erase ∧ p.2.erase = value.erase ∧ t.cursor.rest = rest := by
  refine attains_onward (attains_bindingName hs.assoc hname (endsAtom_blank _)) fun a t ha hle => ?_
  have hequals : Stands .expression ctx t ['='] (.assignment .assign)
      (' ' :: (value.chars indent "" ++ rest)) :=
    State.Shows.stands ⟨1, ha.2⟩ ⟨rfl, rfl⟩ (.inl (by decide))
  refine attains_onward (hequals.expectAs _) fun token u hu hle' => ?_
  refine attains_seq (hvalue.expression ((hroom.shorter hle).shorter hle') hrest (.of_blank hu.2)).2
    fun b v hb => attains_pure ⟨?_, hb⟩
  exact Identifier.erase_eq (ha.1.trans Identifier.toList_name)

section

variable {name : Identifier} {value : Expression} {span : Span}
  (hname : IsReference name.name.toList) (hvalue : RereadsExpression d value) (hP : ¬ P)
include hname hvalue hP

/-- A declaration of either kind is read again. -/
theorem rereadsElement_of_declaration (word : String)
    (make : Identifier → Expression → Span → Statement)
    (hword : isValidName word = true ∧ word ≠ "elif" ∧ word ≠ "else")
    (hchars : ∀ indent, (make name value span).chars indent ""
      = (word ++ " " ++ name.name ++ " = " ++ value.write indent "").toList)
    (hmake : ∀ {a b span'}, a.erase = name.erase → b.erase = value.erase →
      (make a b span').erase = (make name value span).erase)
    (hdispatch : ∀ {g : Grammar} {ctx : Context} {s : State} {Q : Statement → State → Prop},
      (s.next .command ctx).text = word → Attains (do
        let keyword ← advance .command
        let (name, value) ← g.nameAndValue
        return make name value (keyword.span.upTo value.span.stop) : Parse Statement) ctx s Q →
          Attains (g.wordStatement (s.next .command ctx)) ctx s Q) :
    RereadsElement d P (make name value span) := by
  refine rereadsElement_of_keyword word
    (fun indent => ' ' :: (name.name.toList ++ ' ' :: '=' :: ' ' :: value.chars indent ""))
    (fun g keyword => do
      let (name, value) ← g.nameAndValue
      return make name value (keyword.span.upTo value.span.stop))
    hword (fun indent => ?_) (fun _ => .inr ⟨_, rfl⟩) (fun _ htext h => hdispatch htext h)
    fun n ctx s keyword indent rest hroom hout hrest hs => ?_
  · rw [hchars]
    simp [Tree.chars]
  · exact attains_seq (attains_nameAndValue hname hvalue hroom (hrest.endsExpression hP hout)
      (.of_blank hs)) fun p t hp => attains_pure ⟨hmake hp.1 hp.2.1, hp.2.2⟩

theorem rereads_declaration : RereadsElement d P (.declaration name value span) := by
  refine rereadsElement_of_declaration hname hvalue hP "var" .declaration (by decide) (fun _ => rfl)
    (fun ha hb => ?_) fun htext h => ?_
  · rw [Tree.erase, Tree.erase, ha, hb]
  · rw [wordStatement, htext]
    exact h

theorem rereads_constant : RereadsElement d P (.constant name value false span) := by
  refine rereadsElement_of_declaration hname hvalue hP "const" (.constant · · false ·) (by decide)
    (fun _ => rfl) (fun ha hb => ?_) fun htext h => ?_
  · rw [Tree.erase, Tree.erase, ha, hb]
  · rw [wordStatement, htext]
    exact h

end

/-- A constant in short is read again. -/
theorem rereads_shorthand {name : Identifier} {value : Expression} {span : Span}
    (hname : isValidName name.name = true) (hstart : name.name ∉ startWords)
    (hreturn : ¬ (name.name = "return" ∧ d.isSome)) (hvalue : RereadsExpression d value)
    (hP : ¬ P) :
    RereadsElement d P (.constant name value true span) := by
  have hx : IsName name.name.toList := by
    unfold IsName
    rw [String.ofList_toList]
    exact hname
  refine rereadsElement_of_word (fun indent => ' ' :: '=' :: ' ' :: value.chars indent "") hx
    ⟨fun heq => hstart ?_, fun heq => hstart ?_⟩ (fun indent => ?_) (fun _ => .inr ⟨_, rfl⟩)
    fun n ctx s indent rest hroom hout hrest hstands => ?_
  · rw [String.toList_injective heq]
    decide
  · rw [String.toList_injective heq]
    decide
  · change ("" ++ name.name ++ " = " ++ value.write indent "").toList = _
    simp [Tree.chars]
  · have htext : (s.next .command ctx).text = name.name :=
      hstands.next.2.1.trans String.ofList_toList
    have hequals : Lexed .command ['='] .word (' ' :: (value.chars indent "" ++ rest)) := ⟨rfl, rfl⟩
    rw [wordStatement_eq (by rwa [htext]), htext]
    refine attains_read ?_
    rw [if_neg (by rwa [hroom.definition]), if_pos hname]
    have hshort : Attains startsShorthand ctx s fun b t => b = true ∧ t = s := by
      refine attains_seq (attains_secondToken hstands hequals.ahead.blank) ?_
      rintro second t ⟨rfl, hkind, hsecond, himmediate⟩
      refine attains_pure ⟨?_, rfl⟩
      have happart : second.immediate = false :=
        Bool.eq_false_iff.2 fun htouches => by cases himmediate.1 htouches
      rw [Token.isWord, hkind, hsecond, happart]
      rfl
    refine attains_seq (attains_lift hshort) ?_
    rintro _ t ⟨rfl, rfl⟩
    refine attains_onward hstands.advance fun token u hu hle => ?_
    have hstands' : Stands .command ctx u ['='] .word (' ' :: (value.chars indent "" ++ rest)) :=
      hequals.ahead.blank.stands hu.2.1
    refine attains_seq hstands'.advance fun _ v hv => ?_
    have hlt : v.cursor.rest.length < u.cursor.rest.length := by
      rw [hv.2.1, hu.2.1]
      simp
    refine attains_seq (hvalue.expression (hroom.below (Nat.lt_of_lt_of_le hlt hle)).1
      (hrest.endsExpression hP hout) (.of_blank hv.2.1)).2 fun a w ha => attains_pure ⟨?_, ha.2⟩
    have hsame : (nameOf token).name = name.name := by
      rw [hu.1]
      exact htext
    rw [Tree.erase, Tree.erase, Identifier.erase_eq hsame, ha.1]

/-! ## Assignments -/

/-- What stands behind a step: another one, or the operator behind a blank. -/
def EndsAccessor (rest : List Char) : Prop :=
  ∃ c ∈ [' ', '.', '['], ∃ r, rest = c :: r

/-- A step from a variable to a place inside it is read again. -/
structure RereadsAccessor (d : Option Definition) (a : Accessor) : Prop where
  starts : ∀ indent, ∃ c ∈ ['.', '['], ∃ r, a.chars indent "" = c :: r
  reads : Rereads d (·.accessor) (a.chars · "") (fun _ => EndsAccessor) fun r =>
    ∃ b, r = some b ∧ b.erase = a.erase

theorem EndsAccessor.endsAtom {rest : List Char} (h : EndsAccessor rest) : EndsAtom rest := by
  rcases h with ⟨c, hc, r, rfl⟩
  rintro c' ⟨⟩
  simp only [List.mem_cons, List.not_mem_nil, or_false] at hc
  rcases hc with rfl | rfl | rfl <;> decide

theorem rereads_memberAccessor {name : Identifier} {span : Span} (hname : IsName name.name.toList) :
    RereadsAccessor d (.memberAccessor name span) := by
  have hchars : ∀ indent, (Tree.memberAccessor name span).chars indent ""
      = '.' :: name.name.toList := by
    intro indent
    change ("." ++ name.name).toList = _
    rw [String.toList_append]
    rfl
  refine ⟨fun indent => ⟨'.', by simp, _, hchars indent⟩,
    fun n ctx s indent rest hroom hrest hs => ?_⟩
  dsimp only at hs
  rw [hchars] at hs
  have hdot : Stands .expression ctx s ['.'] .dot (name.name.toList ++ rest) := by
    rcases hname.exists_cons with ⟨c, y, heq⟩
    have hc : Character.isNameStart c = true := by
      rw [heq] at hname
      exact (isName_cons.1 hname).1
    refine State.Shows.stands (State.Shows.assoc (x := ['.']) hs) ?_ (.inl (by decide))
    rw [heq]
    exact lexed_dot hc _
  refine attains_look hdot.peekKind ?_
  refine attains_seq hdot.advance fun dot t ht => ?_
  refine attains_seq (attains_memberName (.of_eq ht.2.1) hname hrest.endsAtom) fun a u ha =>
    attains_pure ⟨⟨_, rfl, ?_⟩, ha.2⟩
  rw [Tree.erase, Tree.erase, Identifier.erase_eq (ha.1.trans Identifier.toList_name)]

theorem rereads_indexAccessor {e : Expression} {span : Span} (he : RereadsExpression d e) :
    RereadsAccessor d (.indexAccessor e span) := by
  have hchars : ∀ indent, (Tree.indexAccessor e span).chars indent ""
      = '[' :: (e.chars indent "" ++ [']']) := by
    intro indent
    change ("[" ++ e.write indent "" ++ "]").toList = _
    rw [String.toList_append, String.toList_append]
    rfl
  refine ⟨fun indent => ⟨'[', by simp, _, hchars indent⟩,
    fun n ctx s indent rest hroom hrest hs => ?_⟩
  dsimp only at hs
  rw [hchars] at hs
  have hopen : Stands .expression ctx s ['['] .leftBracket ((e.chars indent "" ++ [']']) ++ rest) :=
    State.Shows.stands (State.Shows.assoc (x := ['[']) hs) ⟨rfl, rfl⟩ (.inl (by decide))
  refine attains_look hopen.peekKind ?_
  refine attains_seq hopen.advance fun opening t ht => ?_
  have hlt : t.cursor.rest.length < s.cursor.rest.length := by
    have hlength := hs.length_le
    rw [ht.2.1]
    simp only [List.length_cons, List.length_append] at hlength ⊢
    omega
  refine attains_seq (he.enclosed (hroom.below hlt).2 (.inr ⟨rfl, rfl⟩)
    (State.Shows.assoc (.of_eq ht.2.1))) fun a u ha => ?_
  refine attains_look (a := u.cursor.offset) rfl (attains_pure ⟨⟨_, rfl, ?_⟩, ha.2⟩)
  rw [Tree.erase, Tree.erase, ha.1]

/-- The printed steps of an assignment. -/
def accessorChars (accessors : List Accessor) (indent : Nat) : List Char :=
  accessors.flatMap (·.chars indent "")

theorem endsAccessor_accessorChars {accessors : List Accessor}
    (haccessors : ∀ a ∈ accessors, RereadsAccessor d a) (indent : Nat) (rest : List Char) :
    EndsAccessor (accessorChars accessors indent ++ ' ' :: rest) := by
  cases accessors with
  | nil => exact ⟨' ', by simp, rest, rfl⟩
  | cons a accessors =>
      rcases (haccessors a List.mem_cons_self).starts indent with ⟨c, hc, r, hchars⟩
      refine ⟨c, List.mem_cons_of_mem _ hc, r
        ++ (accessorChars accessors indent ++ ' ' :: rest), ?_⟩
      rw [accessorChars, List.flatMap_cons, hchars]
      simp [accessorChars]

/-- The steps of an assignment are read again, in front of its operator. -/
theorem attains_accessors {accessors : List Accessor}
    (haccessors : ∀ a ∈ accessors, RereadsAccessor d a) {op : AssignmentOperator} {indent : Nat}
    {rest : List Char} (hroom : Room d n ctx s)
    (hs : s.cursor.rest = accessorChars accessors indent
      ++ ' ' :: (op.spelling.toList ++ ' ' :: rest)) :
    Attains (collect (turns n).accessor) ctx s fun as t =>
      as.map Tree.erase = accessors.map Tree.erase ∧
        Stands .expression ctx t op.spelling.toList (.assignment op) (' ' :: rest) := by
  refine attains_collect Tree.erase (fun todo t => t.cursor.rest
    = accessorChars todo indent ++ ' ' :: (op.spelling.toList ++ ' ' :: rest)) hs
    (fun a todo t hsuffix ht hle => ?_) fun t ht _ => ?_
  · have hmem : ∀ a' ∈ a :: todo, RereadsAccessor d a' :=
      fun a' ha' => haccessors a' (hsuffix.subset ha')
    have ha := hmem a List.mem_cons_self
    have hends := endsAccessor_accessorChars
        (fun a' ha' => hmem a' (List.mem_cons_of_mem _ ha')) indent
      (op.spelling.toList ++ ' ' :: rest)
    rw [accessorChars, List.flatMap_cons, List.append_assoc] at ht
    refine (ha.reads n ctx t indent _ (hroom.shorter hle) hends (.of_eq ht)).mono fun r u hr =>
      ⟨hr.1, hr.2, ?_⟩
    rcases ha.starts indent with ⟨c, -, r', hchars⟩
    rw [hr.2, ht, hchars]
    simp only [accessorChars, List.length_append, List.length_cons]
    omega
  · have hop : Stands .expression ctx t op.spelling.toList (.assignment op) (' ' :: rest) :=
      State.Shows.stands ⟨1, ht⟩ (by cases op <;> exact ⟨rfl, rfl⟩) (.inl nofun)
    have hnone : Attains (turns n).accessor ctx t fun r u => r = none ∧ u = t :=
      attains_look hop.peekKind (attains_pure ⟨rfl, rfl⟩)
    refine hnone.mono ?_
    rintro r u ⟨rfl, rfl⟩
    exact ⟨rfl, fun as has => ⟨has, hop⟩⟩

/-- An assignment is read again. -/
theorem rereads_assignment {scope : AssignmentScope} {name : Identifier} {accessors : List Accessor}
    {op : AssignmentOperator} {value : Expression} {span : Span}
    (hname : IsReference name.name.toList) (haccessors : ∀ a ∈ accessors, RereadsAccessor d a)
    (hvalue : RereadsExpression d value) (hP : ¬ P) :
    RereadsElement d P (.assignment scope name (.ofList accessors) op value span) := by
  refine rereadsElement_of_keyword scope.keyword
    (fun indent => ' ' :: (name.name.toList ++ (accessorChars accessors indent
      ++ ' ' :: (op.spelling.toList ++ ' ' :: value.chars indent ""))))
    (fun g keyword => do
      let name ← bindingName
      let steps ← collect g.accessor
      let op ← assignmentOperator
      let value ← g.expression
      return .assignment scope name (.ofList steps) op value (keyword.span.upTo value.span.stop))
    (by cases scope <;> decide) (fun indent => ?_) (fun _ => .inr ⟨_, rfl⟩)
    (fun _ htext h => ?_) fun n ctx s keyword indent rest hroom hout hrest hs => ?_
  · have hsteps : ((Tree.ofList accessors).write indent "").toList
      = accessorChars accessors indent :=
      Tree.chars_ofList_flatMap (by simp) (by simp) accessors indent
    change (scope.keyword ++ " " ++ name.name ++ (Tree.ofList accessors).write indent "" ++ " "
      ++ op.spelling ++ " " ++ value.write indent "").toList = _
    simp only [String.toList_append, hsteps]
    simp [Tree.chars]
  · rw [wordStatement, htext]
    cases scope <;> exact h
  · have hends := endsAccessor_accessorChars haccessors indent
      (op.spelling.toList ++ ' ' :: (value.chars indent "" ++ rest))
    have hs : s.Shows name.name.toList (accessorChars accessors indent
        ++ ' ' :: (op.spelling.toList ++ ' ' :: (value.chars indent "" ++ rest))) :=
      .of_blank (by rw [hs]; simp)
    refine attains_onward (attains_bindingName hs hname hends.endsAtom) fun a t ha hle => ?_
    refine attains_onward (attains_accessors haccessors (hroom.shorter hle).above ha.2)
      fun as u has hle' => ?_
    have hop : Attains assignmentOperator ctx u fun op' v =>
        op' = op ∧ v.cursor.rest = ' ' :: (value.chars indent "" ++ rest) :=
      attains_look has.2.peekKind
        (attains_seq has.2.advance fun _ v hv => attains_pure ⟨rfl, hv.2.1⟩)
    refine attains_onward hop fun op' v hv hle'' => ?_
    refine attains_seq (hvalue.expression (((hroom.shorter hle).shorter hle').shorter hle'')
      (hrest.endsExpression hP hout) (.of_blank hv.2)).2 fun b w hb => attains_pure ⟨?_, hb.2⟩
    simp only [Tree.erase, Tree.erase_ofList, has.1, hb.1, hv.1,
      Identifier.erase_eq (ha.1.trans Identifier.toList_name)]

/-! ## Declarations of a source -/

namespace Grammar

variable {D : List Diagnostic} {g : Grammar} [g.Stepwise] (hg : g.KeepsExpressions D)
  (hq : Quiet ctx.limits D) (hout : ctx.inBrackets = false)
include hg hq

theorem keeps_nameAndValue : Ensures D g.nameAndValue ctx s fun p s' =>
    IsReference p.1.name.toList ∧ RereadsExpression ctx.definition p.2 ∧
      (s'.next .expression ctx).kind.binary? = none := by
  refine ensures_seq (keeps_bindingName _ _ hq) fun name s1 hname => ensures_skip fun _ s2 => ?_
  exact ensures_seq (hg hq) fun value s3 hvalue => ensures_pure.2 fun _ =>
    ⟨hname, hvalue.1.rereads, hvalue.2⟩

theorem keeps_accessor : Ensures D g.accessor ctx s fun r _ =>
    ∀ a ∈ r, RereadsAccessor ctx.definition a := by
  refine ensures_peekKind ?_
  split
  · refine ensures_skip fun _ s1 => ensures_seq (keeps_memberName _ _ hq) fun name s2 hname => ?_
    refine ensures_pure.2 fun _ => ?_
    rintro _ ⟨⟩
    exact rereads_memberAccessor hname
  · refine ensures_skip fun _ s1 => ensures_seq (keeps_enclosed hg _ _ hq) fun e s2 he => ?_
    refine ensures_position (ensures_pure.2 fun _ => ?_)
    rintro _ ⟨⟩
    exact rereads_indexAccessor he.rereads
  · exact ensures_none

include hout

theorem keeps_variableDeclaration : Ensures D g.variableDeclaration ctx s fun e s' =>
    RereadsElement ctx.definition s'.Pipes e := by
  refine ensures_skip fun keyword s1 => ensures_seq (keeps_nameAndValue hg hq) fun p s2 hp => ?_
  exact ensures_pure.2 fun _ => rereads_declaration hp.1 hp.2.1 (not_pipes hout hp.2.2)

theorem keeps_constantDeclaration : Ensures D g.constantDeclaration ctx s fun e s' =>
    RereadsElement ctx.definition s'.Pipes e := by
  refine ensures_skip fun keyword s1 => ensures_seq (keeps_nameAndValue hg hq) fun p s2 hp => ?_
  exact ensures_pure.2 fun _ => rereads_constant hp.1 hp.2.1 (not_pipes hout hp.2.2)

theorem keeps_shorthandConstant (hvalid : isValidName (s.next .command ctx).text = true)
    (hstart : (s.next .command ctx).text ∉ startWords)
    (hreturn : ¬ ((s.next .command ctx).text = "return" ∧ ctx.definition.isSome)) :
    Ensures D g.shorthandConstant ctx s fun e s' => RereadsElement ctx.definition s'.Pipes e := by
  refine ensures_next hq fun s1 _ => ensures_skip fun _ s2 => ?_
  exact ensures_seq (hg hq) fun value s3 hvalue => ensures_pure.2 fun _ =>
    rereads_shorthand hvalid hstart hreturn hvalue.1.rereads (not_pipes hout hvalue.2)

theorem keeps_assignment (scope : AssignmentScope) :
    Ensures D (g.assignment scope) ctx s fun e s' =>
    RereadsElement ctx.definition s'.Pipes e := by
  refine ensures_skip fun keyword s1 => ensures_seq (keeps_bindingName _ _ hq)
    fun name s2 hname => ?_
  refine ensures_seq (ensures_collect (P := RereadsAccessor ctx.definition) fun s =>
    keeps_accessor hg hq) fun steps s3 hsteps => ensures_skip fun op s4 => ?_
  exact ensures_seq (hg hq) fun value s5 hvalue => ensures_pure.2 fun _ =>
    rereads_assignment hname hsteps hvalue.1.rereads (not_pipes hout hvalue.2)

end Grammar

end Ysh
