import Mathlib.Data.List.TakeWhile
import Sml.Proofs.Grouping
import Sml.Proofs.ReadingScope
import Sml.Proofs.WrittenNames

/-!
# Phrases along the tokens

Types, patterns, expressions and signatures are read without a change of the
operators in force.  Declarations and structures change them as
`Decl.operatorsRead` and `StrExp.operatorsRead` say.

A reader makes up no type variables: those of a phrase are the texts of
tokens.  So what is known of all type variables among the tokens is known of
those that the phrase is written with.

Every phrase reads a token before it reads a phrase nested in it.  So the
readers of phrases do the same in a stretch if those of nested phrases do the
same from the next token on, and it does not matter how deep the readers nest
as long as there are no more tokens.
-/

namespace Sml

open Cursor List Option

variable {P : String → Prop} {stretch : Stretch} {reader reader' : Reader Decl}
  {first second : Phrases}

def Token.VariablesOf (P : String → Prop) (tokens : Array Token) : Prop :=
  ∀ token ∈ tokens, token.kind = .typeVariable → P token.text

section Told

variable (P : String → Prop) (tokens : Array Token) (before : OperatorTable)

/-- What a declaration is written with, and the operators after it. -/
def Decl.Told (declaration : Decl) (after : OperatorTable) : Prop :=
  declaration.WrittenWith P ∧ (StartsInOrder tokens.toList →
    after = declaration.operatorsRead (opens tokens) before)

def StrExp.Told (body : StrExp) (after : OperatorTable) : Prop :=
  body.WrittenWith P ∧ (StartsInOrder tokens.toList →
    after = body.operatorsRead (opens tokens) before)

def Decl.Quiet (declaration : Decl) : Prop := declaration.WrittenWith P ∧ ∀ before,
    declaration.operatorsRead (opens tokens) before = before

end Told

theorem Reader.Runs.of_quiet {before : OperatorTable} {reads : Decl → Prop}
    (h : Gives stretch reads (Decl.Quiet P stretch.tokens) reader reader') :
    Reads stretch before reads (Decl.Told P stretch.tokens before) reader
      reader' :=
  (of_gives h).mono (fun _ => id) fun _ _ hquiet =>
    ⟨hquiet.1.1, fun _ => hquiet.2.trans (hquiet.1.2 before).symm⟩

/-- In a stretch, the readers of two families do the same. -/
structure Phrases.Alike (P : String → Prop) (stretch : Stretch)
    (first second : Phrases) : Prop where
  type : Reader.Gives stretch ⊤ (TypeExpr.WrittenWith P) first.type second.type
  pattern : Reader.Agree stretch ⊤ first.pattern second.pattern
  expr : Reader.Gives stretch ⊤ (Expr.WrittenWith P) first.expr second.expr
  sigExp : Reader.Gives stretch ⊤ (SigExp.WrittenWith P) first.sigExp second.sigExp
  decl : ∀ before, Reader.Reads stretch before ⊥
    (Decl.Told P stretch.tokens before) first.decl second.decl
  strExp : ∀ before, Reader.Reads stretch before ⊤
    (StrExp.Told P stretch.tokens before) first.strExp second.strExp

theorem Phrases.Alike.of_next (h : first.Alike P stretch second) :
    first.Alike P stretch.next second where
  type := h.type.of_next
  pattern := h.pattern.of_next
  expr := h.expr.of_next
  sigExp := h.sigExp.of_next
  decl before := (h.decl before).of_next
  strExp before := (h.strExp before).of_next

namespace Reading

open Reader

variable {P : String → Prop} {stretch : Stretch}

section Variables

variable (htokens : Token.VariablesOf P stretch.tokens)
include htokens

theorem gives_typeVariable : Gives stretch ⊤ (fun read => P read.1) typeVariable typeVariable := by
  refine gives_token fun token htoken name hname => ?_
  split at hname
  · cases hname
    exact htokens token htoken ‹_›
  · cases hname

theorem gives_typeVariables : Gives stretch ⊥ (fun names => ∀ name ∈ names, P name) typeVariables
      typeVariables := by
  unfold typeVariables
  refine .look fun _ => .ite ?_ ?_
  · exact (gives_typeVariable htokens).bind fun read hread => .pure (by simpa using hread)
  · refine .look fun _ => .ite ?_ (.pure (by simp))
    refine .past moves_advance fun _ => ?_
    refine ((gives_typeVariable htokens).separatedByKind _).bind fun names hnames => ?_
    refine .past (moves_punctuation _ _) fun _ => .pure fun name hname => ?_
    obtain ⟨read, hread, rfl⟩ := mem_map.mp hname
    exact hnames read hread

end Variables

theorem moves_typeVariables : Moves stretch ⊥ typeVariables :=
  (gives_typeVariables (P := fun _ => True) fun _ _ _ => trivial).agree

/-! ## Types -/

variable {before : OperatorTable}

section Phrases

variable {nested nested' : Phrases}

section Types

variable (hnested : nested.Alike P stretch.next nested')
  (htokens : Token.VariablesOf P stretch.tokens)
include hnested htokens

theorem gives_atomicType : Gives stretch ⊤ (fun types => ∀ type ∈ types, type.WrittenWith P)
      (atomicType nested) (atomicType nested') := by
  unfold atomicType
  refine .look fun start => ?_
  refine .look fun _ => .ite ?_ ?_
  · refine (gives_typeVariable htokens).first fun read hread => .pure ?_
    simpa [TypeExpr.writtenWith_var] using hread
  refine .eat (moves_eatKind _) ?_ ?_
  · refine .look fun _ => ?_
    refine .joined (Q := fun fields : List (String × TypeExpr) =>
      ∀ field ∈ fields, field.2.WrittenWith P) (.pure (by simp))
      (.separated ?_ (moves_punctuation _ _)) fun fields hfields => ?_
    · refine .lead (moves_token _ _) fun _ _ => ?_
      refine .past (moves_word _) fun _ => ?_
      exact hnested.type.bind fun type htype => .pure htype
    · refine .past (moves_punctuation _ _) fun _ => ?_
      refine .look fun _ => .pure ?_
      rw [forall_mem_singleton, TypeExpr.writtenWith_record]
      exact hfields
  refine .eat (moves_eatKind _) ?_ ?_
  · refine (hnested.type.separatedByKind _).bind fun types htypes => ?_
    exact .past (moves_punctuation _ _) fun _ => .pure htypes
  refine .look fun _ => .ite ?_ (.failHere (by decide) _)
  refine .first (moves_token _ _) fun _ _ => .pure ?_
  simp [TypeExpr.writtenWith_con]

theorem gives_appliedType : Gives stretch ⊤ (TypeExpr.WrittenWith P) (appliedType nested)
      (appliedType nested') := by
  unfold appliedType
  refine (gives_atomicType hnested htokens).lead fun arguments harguments => ?_
  refine (Gives.whileSome (Q := fun types : List TypeExpr =>
    ∀ type ∈ types, type.WrittenWith P) harguments
    fun arguments harguments => ?_).bind fun applied happlied => ?_
  · refine .look fun _ => .ite ?_ (.nothing (by simp))
    refine .first (moves_token _ _) fun _ _ => .pure ?_
    rintro _ ⟨⟩
    rw [forall_mem_singleton, TypeExpr.writtenWith_con]
    exact harguments
  · split
    · exact .pure (happlied _ (by simp))
    · exact gives_typeSequence

theorem gives_type : Gives stretch ⊤ (TypeExpr.WrittenWith P) (type nested) (type nested') := by
  unfold type productType
  refine .lead (Q := TypeExpr.WrittenWith P) ?_ fun parameter hparameter => ?_
  · refine ((gives_appliedType hnested htokens).separatedByWord _).lead fun elements helements => ?_
    split
    · exact .pure (helements _ (by simp))
    · refine .look fun _ => .pure ?_
      exact TypeExpr.writtenWith_tuple.mpr helements
  · refine .eat (moves_eatWord _) ?_ (.pure hparameter)
    exact hnested.type.bind fun result hresult =>
      .pure (TypeExpr.writtenWith_arrow.mpr ⟨hparameter, hresult⟩)

end Types

/-! ## Patterns -/

theorem moves_atAtomicPattern : Moves stretch ⊥ atAtomicPattern := by
  unfold atAtomicPattern
  refine .look fun next? => ?_
  split
  · split
    · exact .pure trivial
    · exact .pure trivial
    · exact .pure trivial
    · exact .pure trivial
    · exact .look fun _ => .pure trivial
    · exact .look fun _ => .pure trivial
    · exact .pure trivial
  · exact .pure trivial

section Inside

variable (hnested : nested.Alike P stretch nested')
include hnested

theorem agree_patternList (closing : TokenKind) : Agree stretch ⊥ (patternList nested closing)
      (patternList nested' closing) :=
  .look fun _ => .ite (.pure trivial) (hnested.pattern.separatedByKind _).agree.maybe

theorem agree_fieldPattern : Agree stretch ⊤ (fieldPattern nested) (fieldPattern nested') := by
  unfold fieldPattern
  refine .lead (moves_token _ _) fun _ _ => ?_
  refine .past (moves_eatWord _) fun _ => .ite ?_ ?_
  · exact .past hnested.pattern fun _ => .pure trivial
  refine .bind (hnested.type.afterWord _) fun type _ => ?_
  refine .past (moves_eatWord _) fun _ => .ite ?_ ?_
  · refine .past hnested.pattern fun _ => ?_
    exact .look fun _ => .pure trivial
  split
  · exact .look fun _ => .pure trivial
  · exact .pure trivial

theorem agree_fieldPatterns : Agree stretch ⊥ (fieldPatterns nested) (fieldPatterns nested') := by
  unfold fieldPatterns
  refine .look fun _ => .ite (.pure trivial) ?_
  refine .past (.whileSome trivial fun state _ => ?_) fun _ => .pure trivial
  refine .ite (.nothing (by simp)) ?_
  refine .eat (moves_eatKind _) (.pure (by simp)) ?_
  refine (agree_fieldPattern hnested).lead fun _ _ => ?_
  exact .past (moves_eatKind _) fun _ => .pure (by simp)

end Inside

section Outside

variable (hnested : nested.Alike P stretch.next nested')
include hnested

theorem agree_atomicPattern : Agree stretch ⊤ (atomicPattern nested) (atomicPattern nested') := by
  unfold atomicPattern
  refine .look fun start => ?_
  refine .eat (moves_eatKind _) (.pure trivial) ?_
  refine .eat (moves_eatKind _) ?_ ?_
  · refine .past (agree_patternList hnested _) fun elements => ?_
    refine .past (moves_punctuation _ _) fun _ => ?_
    split
    · exact .pure trivial
    · exact .look fun _ => .pure trivial
  refine .eat (moves_eatKind _) ?_ ?_
  · refine .past (agree_patternList hnested _) fun elements => ?_
    refine .past (moves_punctuation _ _) fun _ => ?_
    exact .look fun _ => .pure trivial
  refine .eat (moves_eatKind _) ?_ ?_
  · refine .past (agree_fieldPatterns hnested) fun fields => ?_
    refine .past (moves_punctuation _ _) fun _ => ?_
    exact .look fun _ => .pure trivial
  refine .look fun _ => .ite ?_ ?_
  · exact .first moves_constant fun _ _ => .pure trivial
  refine .past (moves_eatWord _) fun explicit => ?_
  refine .look fun _ => .ite (.failHere (by decide) _) ?_
  refine .look fun _ => .ite (.failHere (by decide) _) ?_
  exact .first (moves_token _ _) fun _ _ => .pure trivial

theorem agree_appliedPattern :
    Agree stretch ⊤ (appliedPattern nested) (appliedPattern nested') := by
  unfold appliedPattern
  refine (agree_atomicPattern hnested).lead fun head _ => ?_
  refine .past moves_atAtomicPattern fun _ => .ite ?_ (.pure trivial)
  refine .past (agree_atomicPattern hnested) fun argument => ?_
  split
  · exact .pure trivial
  · exact .fail nofun

end Outside

/-- Operands with operators between them can always be grouped, and grouping
only joins them. -/
theorem gives_grouped {α : Type} {Q : α → Prop} {combine : Operator → α → α → α}
    (hcombine : ∀ {operator left right}, Q left → Q right → Q (combine operator left right))
    {first : α} (hfirst : Q first) {rest : List (Operator × α)}
    (hrest : ∀ entry ∈ rest, Q entry.2) :
    Gives stretch ⊥ Q (grouped combine first rest) (grouped combine first rest) := by
  have hlength : (first :: rest.map (·.2)).length = (rest.map (·.1)).length + 1 := by simp
  obtain ⟨tree, hgroup, hinorder, -⟩ := exists_groupOperators hlength Operator.fixity combine
  unfold grouped
  rw [hgroup]
  refine .pure (tree.fold_of hcombine fun value hvalue => ?_)
  rw [hinorder] at hvalue
  rcases mem_cons.mp (mem_of_mem_alternate hvalue) with rfl | hvalue
  · exact hfirst
  · obtain ⟨entry, hentry, rfl⟩ := mem_map.mp hvalue
    exact hrest entry hentry

section Outside

variable (hnested : nested.Alike P stretch.next nested')
include hnested

theorem agree_operatorPattern :
    Agree stretch ⊤ (operatorPattern nested) (operatorPattern nested') := by
  unfold operatorPattern
  refine (agree_appliedPattern hnested).lead fun first _ => ?_
  refine .bind (.many (Q := fun _ => True) ?_) fun rest _ =>
    gives_grouped (fun _ _ => trivial) trivial fun _ _ => trivial
  refine .look fun operator? => ?_
  cases operator? with
  | none => exact .nothing (by simp)
  | some operator =>
    refine .past moves_advance fun _ => ?_
    exact (agree_appliedPattern hnested).first fun _ _ => .pure (by simp)

theorem agree_layeredPattern? : Agree stretch (·.isSome = true) (layeredPattern? nested)
      (layeredPattern? nested') := by
  refine .orBack ?_
  refine .look fun start => ?_
  refine .past (moves_eatWord _) fun explicit => ?_
  refine .look fun _ => .ite (.nothing trivial) ?_
  refine .look fun _ => .ite (.nothing trivial) ?_
  refine (moves_token _ _).attempt.cases (fun name _ hname => ?_) fun name _ _ => ?_
  · cases name with
    | ok name => exact absurd ⟨name, rfl, trivial⟩ hname
    | error error => exact .nothing trivial
  cases name with
  | error error => exact .pure trivial
  | ok name =>
    refine .past (hnested.type.afterWord _).attempt fun type => ?_
    cases type with
    | error error => exact .pure trivial
    | ok type =>
      refine .past (moves_eatWord _) fun _ => .ite ?_ (.pure trivial)
      refine .past hnested.pattern fun _ => ?_
      exact .look fun _ => .pure trivial

theorem agree_pattern : Agree stretch ⊤ (pattern nested) (pattern nested') := by
  unfold pattern
  refine (agree_layeredPattern? hnested).cases (fun layered? _ hnone => ?_)
    fun layered? _ hsome => ?_
  · rw [not_isSome_iff_eq_none.mp hnone]
    refine (agree_operatorPattern hnested).lead fun first _ => ?_
    refine .whileSome trivial fun _ _ => ?_
    refine .eat (moves_eatWord _) ?_ (.nothing (by simp))
    exact hnested.type.bind fun _ _ => .pure (by simp)
  · obtain ⟨layered, rfl⟩ := isSome_iff_exists.mp hsome
    exact .pure trivial

end Outside

/-! ## Expressions -/

theorem moves_atAtomicExpr : Moves stretch ⊥ atAtomicExpr := by
  unfold atAtomicExpr
  refine .look fun next? => ?_
  split
  · split
    · exact .pure trivial
    · exact .pure trivial
    · exact .pure trivial
    · exact .look fun _ => .pure trivial
    · exact .look fun _ => .pure trivial
    · exact .pure trivial
  · exact .pure trivial

section Inside

variable (hnested : nested.Alike P stretch nested')
include hnested

theorem gives_matchRules : Gives stretch ⊤ (fun rules => ∀ rule ∈ Match.rules rules,
      rule.body.WrittenWith P) (matchRules nested) (matchRules nested') := by
  unfold matchRules
  refine .look fun start => ?_
  refine (Gives.separated (Q := fun rule : Rule Expr =>
    rule.body.WrittenWith P) ?_ (moves_word _)).lead fun rules hrules => ?_
  · refine hnested.pattern.lead fun _ _ => ?_
    refine .past (moves_word _) fun _ => ?_
    exact hnested.expr.bind fun body hbody => .pure hbody
  · exact .look fun _ => .pure hrules

theorem gives_parenthesized (start : Span) :
    Gives stretch ⊥ (Expr.WrittenWith P) (parenthesized nested start)
      (parenthesized nested' start) := by
  unfold parenthesized
  refine .past (moves_eatKind _) fun _ => .ite ?_ ?_
  · refine .look fun _ => .pure ?_
    rw [Expr.WrittenWith, Expr.allWrittenWith_iff]
    simp
  refine hnested.expr.bind fun first hfirst => ?_
  refine .look fun _ => .ite ?_ ?_
  · refine .bind (.many (hnested.expr.afterEat (moves_eatKind _))) fun rest hrest => ?_
    refine .past (moves_punctuation _ _) fun _ => ?_
    refine .look fun _ => .pure ?_
    rw [Expr.WrittenWith, Expr.allWrittenWith_iff]
    exact forall_mem_cons.mpr ⟨hfirst, hrest⟩
  refine .look fun _ => .ite ?_ ?_
  · refine .bind (.many (hnested.expr.afterEat (moves_eatKind _))) fun rest hrest => ?_
    refine .past (moves_punctuation _ _) fun _ => ?_
    refine .look fun _ => .pure ?_
    rw [Expr.WrittenWith, Expr.allWrittenWith_iff]
    exact forall_mem_cons.mpr ⟨hfirst, hrest⟩
  exact .past (moves_punctuation _ _) fun _ => .pure hfirst

theorem gives_exprSequence (start : Span) :
    Gives stretch ⊥ (Expr.WrittenWith P) (exprSequence nested start)
      (exprSequence nested' start) := by
  unfold exprSequence
  refine (hnested.expr.separated (moves_punctuation _ _)).bind fun exprs hexprs => ?_
  split
  · exact .pure (hexprs _ (by simp))
  · refine .look fun _ => .pure ?_
    rw [Expr.WrittenWith, Expr.allWrittenWith_iff]
    exact hexprs

theorem gives_letExpr (start : Span) : Gives stretch ⊥ (Expr.WrittenWith P) (letExpr nested start)
      (letExpr nested' start) := by
  unfold letExpr
  refine (Gives.withOperators (Q := fun read : Decl × Expr =>
    read.1.WrittenWith P ∧ read.2.WrittenWith P) ?_).bind fun read hread => .look fun _ => .pure ?_
  · refine fun before => (hnested.decl before).bind fun declaration _ hdeclaration => ?_
    refine .past (moves_word _) fun _ => ?_
    refine .bind_gives (gives_exprSequence hnested start) fun body hbody => ?_
    exact .past (moves_word _) fun _ => .pure ⟨hdeclaration.1, hbody⟩
  · rw [Expr.WrittenWith]
    exact hread

end Inside

section Outside

variable (hnested : nested.Alike P stretch.next nested')
include hnested

theorem gives_keywordForm : Gives stretch ⊤ (Expr.WrittenWith P) (keywordForm nested)
      (keywordForm nested') := by
  unfold keywordForm
  refine .look fun start => ?_
  refine .eat (moves_eatWord _) ?_ ?_
  · refine (gives_matchRules hnested).bind fun rules hrules => ?_
    refine .look fun _ => .pure ?_
    rw [Expr.WrittenWith, Expr.rulesWrittenWith_iff]
    exact hrules
  refine .eat (moves_eatWord _) ?_ ?_
  · refine hnested.expr.bind fun scrutinee hscrutinee => ?_
    refine .past (moves_word _) fun _ => ?_
    refine (gives_matchRules hnested).bind fun rules hrules => ?_
    refine .look fun _ => .pure ?_
    rw [Expr.WrittenWith, Expr.rulesWrittenWith_iff]
    exact ⟨hscrutinee, hrules⟩
  refine .eat (moves_eatWord _) ?_ ?_
  · refine hnested.expr.bind fun test htest => ?_
    refine .past (moves_word _) fun _ => ?_
    refine hnested.expr.bind fun yes hyes => ?_
    refine .past (moves_word _) fun _ => ?_
    refine hnested.expr.bind fun no hno => ?_
    refine .look fun _ => .pure ?_
    exact ⟨htest, hyes, hno⟩
  refine .eat (moves_eatWord _) ?_ ?_
  · refine hnested.expr.bind fun test htest => ?_
    refine .past (moves_word _) fun _ => ?_
    refine hnested.expr.bind fun body hbody => ?_
    refine .look fun _ => .pure ?_
    exact ⟨htest, hbody⟩
  refine .first (moves_word _) fun _ _ => ?_
  refine hnested.expr.bind fun exn hexn => ?_
  refine .look fun _ => .pure ?_
  exact hexn

theorem gives_atomicExpr : Gives stretch ⊤ (Expr.WrittenWith P) (atomicExpr nested)
      (atomicExpr nested') := by
  unfold atomicExpr
  refine .look fun start => ?_
  refine .eat (moves_eatKind _) (gives_parenthesized hnested _) ?_
  refine .eat (moves_eatKind _) ?_ ?_
  · refine .look fun _ => ?_
    refine .joined (.pure (by simp))
      (hnested.expr.separated (moves_punctuation _ _)) fun elements helements => ?_
    refine .past (moves_punctuation _ _) fun _ => ?_
    refine .look fun _ => .pure ?_
    rw [Expr.WrittenWith, Expr.allWrittenWith_iff]
    exact helements
  refine .eat (moves_eatKind _) ?_ ?_
  · refine .look fun _ => ?_
    refine .joined (Q := fun fields : List (String × Expr) =>
      ∀ field ∈ fields, field.2.WrittenWith P) (.pure (by simp))
      (.separated ?_ (moves_punctuation _ _)) fun fields hfields => ?_
    · refine .lead (moves_token _ _) fun _ _ => ?_
      refine .past (moves_word _) fun _ => ?_
      exact hnested.expr.bind fun expr hexpr => .pure hexpr
    · refine .past (moves_punctuation _ _) fun _ => ?_
      refine .look fun _ => .pure ?_
      rw [Expr.WrittenWith, Expr.fieldsWrittenWith_iff]
      exact hfields
  refine .look fun _ => .ite ?_ ?_
  · exact .first moves_constant fun _ _ => .pure trivial
  refine .eat (moves_eatWord _) ?_ ?_
  · refine .past (moves_token _ _) fun _ => ?_
    exact .look fun _ => .pure trivial
  refine .eat (moves_eatWord _) (gives_letExpr hnested _) ?_
  refine .past (moves_eatWord _) fun explicit => ?_
  refine .look fun _ => .ite (.failHere (by decide) _) ?_
  exact .first (moves_token _ _) fun _ _ => .pure trivial

theorem gives_appliedExpr : Gives stretch ⊤ (Expr.WrittenWith P) (appliedExpr nested)
      (appliedExpr nested') := by
  unfold appliedExpr
  refine (gives_atomicExpr hnested).lead fun head hhead => ?_
  refine .whileSome hhead fun function hfunction => ?_
  refine .past moves_atAtomicExpr fun _ => .ite ?_ ?_
  · refine (gives_atomicExpr hnested).first fun argument hargument => .pure ?_
    simpa [Expr.WrittenWith] using And.intro hfunction hargument
  refine .look fun _ => .ite ?_ (.nothing (by simp))
  refine (gives_keywordForm hnested).first fun argument hargument => .pure ?_
  simpa [Expr.WrittenWith] using And.intro hfunction hargument

theorem gives_operatorExpr : Gives stretch ⊤ (Expr.WrittenWith P) (operatorExpr nested)
      (operatorExpr nested') := by
  unfold operatorExpr
  refine (gives_appliedExpr hnested).lead fun first hfirst => ?_
  refine (Gives.whileSome (Q := fun state : List (Operator × Expr) × Bool =>
    ∀ entry ∈ state.1, entry.2.WrittenWith P) (by simp)
    fun state hstate => ?_).bind fun state hstate => ?_
  · obtain ⟨operands, more⟩ := state
    refine .ite (.nothing (by simp)) ?_
    refine .look fun operator? => ?_
    cases operator? with
    | none => exact .nothing (by simp)
    | some operator =>
      refine .past moves_advance fun _ => ?_
      refine .look fun _ => .ite ?_ ?_
      · refine (gives_keywordForm hnested).first fun operand hoperand => .pure ?_
        rintro _ ⟨⟩
        exact forall_mem_cons.mpr ⟨hoperand, hstate⟩
      · refine (gives_appliedExpr hnested).first fun operand hoperand => .pure ?_
        rintro _ ⟨⟩
        exact forall_mem_cons.mpr ⟨hoperand, hstate⟩
  · refine gives_grouped (fun {operator left right} hleft hright => ?_)
      hfirst fun entry hentry => hstate entry (mem_reverse.mp hentry)
    rw [combineExprs, Expr.WrittenWith, Expr.WrittenWith, Expr.WrittenWith, Expr.allWrittenWith_iff]
    exact ⟨trivial, by simp [hleft, hright]⟩

theorem gives_typedExpr : Gives stretch ⊤ (Expr.WrittenWith P) (typedExpr nested)
      (typedExpr nested') := by
  unfold typedExpr
  refine (gives_operatorExpr hnested).lead fun first hfirst => ?_
  refine .whileSome hfirst fun inner hinner => ?_
  refine .eat (moves_eatWord _) ?_ (.nothing (by simp))
  refine hnested.type.bind fun _ _ => .pure ?_
  rintro _ ⟨⟩
  rw [Expr.WrittenWith]
  exact hinner

theorem gives_connective (text : String) {join : Expr → Expr → Span → Expr}
    (hjoin : ∀ left right span, (join left right span).WrittenWith P ↔
      left.WrittenWith P ∧ right.WrittenWith P) {tighter tighter' : Reader Expr}
    (h : Gives stretch ⊤ (Expr.WrittenWith P) tighter tighter') :
    Gives stretch ⊤ (Expr.WrittenWith P) (connective nested text join tighter)
      (connective nested' text join tighter') := by
  unfold connective
  refine h.lead fun first hfirst => ?_
  refine .whileSome hfirst fun left hleft => ?_
  refine .eat (moves_eatWord _) ?_ (.nothing (by simp))
  refine .look fun _ => ?_
  refine .joined (gives_keywordForm hnested.of_next) h.of_next fun right hright => .pure ?_
  rintro _ ⟨⟩
  exact (hjoin left right _).mpr ⟨hleft, hright⟩

theorem gives_expr : Gives stretch ⊤ (Expr.WrittenWith P) (expr nested) (expr nested') := by
  unfold expr orElseExpr andAlsoExpr
  refine .look fun _ => .ite (gives_keywordForm hnested) ?_
  refine (gives_connective hnested _ (fun _ _ _ => by rw [Expr.WrittenWith])
    (gives_connective hnested _ (fun _ _ _ => by rw [Expr.WrittenWith])
      (gives_typedExpr hnested))).lead fun first hfirst => ?_
  refine .whileSome hfirst fun body hbody => ?_
  refine .eat (moves_eatWord _) ?_ (.nothing (by simp))
  refine (gives_matchRules hnested).bind fun rules hrules => .pure ?_
  rintro _ ⟨⟩
  rw [Expr.WrittenWith, Expr.rulesWrittenWith_iff]
  exact ⟨hbody, hrules⟩

end Outside

/-! ## Declarations that declare no operator -/

section Inside

variable (hnested : nested.Alike P stretch nested')
include hnested

theorem agree_headItems : Agree stretch ⊥ (headItems nested) (headItems nested') := by
  unfold headItems
  refine (Gives.many (Q := fun _ => True) ?_).agree
  refine .look fun _ => ?_
  refine .look fun _ => .ite (.nothing (by simp)) ?_
  refine gives_taken (fun cursor operator h => ?_) (fun operator => ⟨_, by simp, rfl, rfl⟩) ?_
  · obtain ⟨token, hpeek, -⟩ := bind_eq_some_iff.mp h
    exact ⟨token, hpeek⟩
  refine .past moves_atAtomicPattern fun _ => .ite ?_ (.nothing (by simp))
  exact (agree_atomicPattern hnested.of_next).first fun _ _ => .pure (by simp)

omit hnested in
theorem moves_headPatterns : ∀ items, Moves stretch ⊥ (headPatterns items)
  | [] => .pure trivial
  | .pattern _ :: rest =>
    .past (moves_headPatterns rest) fun _ => .pure trivial
  | .operator _ :: _ => .past moves_get fun cursor => .fail (by
      rw [cursor.fault_errorHere]
      exact nofun)

omit hnested in
theorem moves_clauseHead (start : Span) (items : List HeadItem) :
    Moves stretch ⊥ (clauseHead start items) := by
  have hmalformed : Moves stretch ⊥
      (do fail ⟨.malformedClause, [], none, some (← spanFrom start), 0⟩ :
        Reader (String × List Pat)) :=
    .look fun _ => .fail nofun
  unfold clauseHead
  split
  · exact .pure trivial
  · refine .look fun _ => .ite ?_ hmalformed
    exact .past (moves_headPatterns _) fun _ => .pure trivial
  · refine .ite ?_ hmalformed
    exact .past (moves_headPatterns _) fun _ => .pure trivial
  · exact hmalformed

theorem gives_clause : Gives stretch ⊤ (fun clause => clause.body.WrittenWith P) (clause nested)
      (clause nested') := by
  unfold clause
  refine .look fun start => ?_
  refine .past (agree_headItems hnested) fun items => ?_
  refine .past (moves_clauseHead start items) fun _ => ?_
  refine .bind (hnested.type.afterWord _) fun _ _ => ?_
  refine .lead (moves_word _) fun _ _ => ?_
  refine hnested.expr.bind fun body hbody => ?_
  exact .look fun _ => .pure hbody

omit hnested in
theorem clauseFault?_ne_nesting {binding : FunBind Expr} {clause : Clause Expr} {fault : ReadFault}
    (h : clauseFault? binding clause = some fault) : fault ≠ .nesting := by
  rintro rfl
  unfold clauseFault? at h
  split at h
  · cases h
  · split at h
    · cases h
    · cases h

theorem gives_funBind : Gives stretch ⊤ (fun binding => ∀ clause ∈ binding.clauses,
      clause.body.WrittenWith P) (funBind nested) (funBind nested') := by
  unfold funBind
  refine .look fun start => ?_
  refine ((gives_clause hnested).separatedByWord _).lead fun clauses hclauses => ?_
  refine .look fun _ => ?_
  refine .past (.forIn fun clause _ => ?_) fun _ => .pure hclauses
  split
  · rename_i fault hfault
    have hfail : Moves stretch ⊥ (fail ⟨fault, [], none, some clause.span, 0⟩ : Reader PUnit) :=
      .fail (clauseFault?_ne_nesting hfault)
    exact .past hfail fun _ => .pure trivial
  · exact .past (.pure trivial) fun _ => .pure trivial

theorem gives_datBinds (htokens : Token.VariablesOf P stretch.tokens) :
    Gives stretch ⊤ (fun bindings => ∀ binding ∈ bindings,
      ∀ name ∈ DatBind.parameters binding, P name)
      (separatedByWord "and" (datBind nested))
      (separatedByWord "and" (datBind nested')) := by
  refine .separatedByWord ?_ _
  unfold datBind conBind
  refine .look fun start => ?_
  refine .bind (gives_typeVariables htokens) fun parameters hparameters => ?_
  refine .lead (moves_token _ _) fun _ _ => ?_
  refine .past (moves_word _) fun _ => ?_
  refine .bind (.separatedByWord (Q := fun _ => True) ?_ _) fun _ _ => ?_
  · refine .look fun start => ?_
    refine .past (moves_eatWord _) fun _ => ?_
    refine .lead (moves_token _ _) fun _ _ => ?_
    refine .bind (hnested.type.afterWord _) fun _ _ => ?_
    exact .look fun _ => .pure trivial
  · exact .look fun _ => .pure hparameters

theorem agree_exnBind : Agree stretch ⊤ (exnBind nested) (exnBind nested') := by
  unfold exnBind
  refine .look fun start => ?_
  refine .past (moves_eatWord _) fun _ => ?_
  refine .lead (moves_token _ _) fun _ _ => ?_
  refine .past (moves_eatWord _) fun _ => .ite ?_ ?_
  · refine .past (moves_eatWord _) fun _ => ?_
    refine .past (moves_token _ _) fun _ => ?_
    exact .look fun _ => .pure trivial
  · refine .bind (hnested.type.afterWord _) fun _ _ => ?_
    exact .look fun _ => .pure trivial

end Inside

theorem moves_replication? : Moves stretch ⊥ replication? := by
  unfold replication?
  refine .look fun _ => .ite ?_ (.pure trivial)
  refine .past (moves_token _ _) fun _ => ?_
  refine .past (moves_word _) fun _ => ?_
  refine .past (moves_word _) fun _ => ?_
  exact .past (moves_token _ _) fun _ => .pure trivial

section Outside

variable (hnested : nested.Alike P stretch.next nested')
include hnested

theorem gives_valDecl (start : Span) :
    Gives stretch ⊤ (Decl.Quiet P stretch.tokens) (valDecl nested start)
      (valDecl nested' start) := by
  unfold valDecl valBind
  refine .first (moves_word _) fun _ _ => ?_
  refine .past moves_typeVariables fun _ => ?_
  refine .past (moves_eatWord _) fun _ => ?_
  refine (Gives.separatedByWord (Q := fun binding : ValBind Expr =>
    binding.body.WrittenWith P) ?_ _).bind fun bindings hbindings => ?_
  · refine .look fun start => ?_
    refine .past (moves_eatWord _) fun _ => ?_
    refine hnested.pattern.lead fun _ _ => ?_
    refine .past (moves_word _) fun _ => ?_
    refine hnested.expr.bind fun body hbody => ?_
    exact .look fun _ => .pure hbody
  · refine .look fun _ => .pure ?_
    rw [Decl.Quiet, Decl.WrittenWith, Decl.bindingsWrittenWith_iff]
    exact ⟨hbindings, fun _ => rfl⟩

theorem gives_funDecl (start : Span) :
    Gives stretch ⊤ (Decl.Quiet P stretch.tokens) (funDecl nested start)
      (funDecl nested' start) := by
  unfold funDecl
  refine .first (moves_word _) fun _ _ => ?_
  refine .past moves_typeVariables fun _ => ?_
  refine ((gives_funBind hnested).separatedByWord _).bind fun bindings hbindings => ?_
  refine .look fun _ => .pure ?_
  rw [Decl.Quiet, Decl.WrittenWith, Decl.functionsWrittenWith_iff]
  exact ⟨hbindings, fun _ => rfl⟩

theorem gives_datatypeDecl (htokens : Token.VariablesOf P stretch.tokens) (start : Span) :
    Gives stretch ⊤ (Decl.Quiet P stretch.tokens) (datatypeDecl nested start)
      (datatypeDecl nested' start) := by
  unfold datatypeDecl
  refine .first (moves_word _) fun _ _ => ?_
  refine .past moves_replication? fun replication => ?_
  cases replication with
  | some replication => exact .look fun _ => .pure ⟨trivial, fun _ => rfl⟩
  | none =>
    refine (gives_datBinds hnested htokens).bind fun bindings hbindings => ?_
    refine .look fun _ => .ite (.failHere (by decide) _) ?_
    exact .look fun _ => .pure ⟨hbindings, fun _ => rfl⟩

theorem gives_typeDecl (htokens : Token.VariablesOf P stretch.tokens) (start : Span) :
    Gives stretch ⊤ (Decl.Quiet P stretch.tokens) (do
        word "type"
        let bindings ← separatedByWord "and" (typeBind nested)
        return .types bindings (← spanFrom start))
      (do
        word "type"
        let bindings ← separatedByWord "and" (typeBind nested')
        return .types bindings (← spanFrom start)) := by
  refine .first (moves_word _) fun _ _ => ?_
  unfold typeBind
  refine (Gives.separatedByWord (Q := fun binding : TypeBind =>
    ∀ name ∈ binding.parameters, P name) ?_ _).bind
    fun bindings hbindings => ?_
  · refine .look fun start => ?_
    refine .bind (gives_typeVariables htokens) fun parameters hparameters => ?_
    refine .lead (moves_token _ _) fun _ _ => ?_
    refine .past (moves_word _) fun _ => ?_
    refine hnested.type.bind fun _ _ => ?_
    exact .look fun _ => .pure hparameters
  · exact .look fun _ => .pure ⟨hbindings, fun _ => rfl⟩

theorem gives_exceptionDecl (start : Span) : Gives stretch ⊤ (Decl.Quiet P stretch.tokens) (do
        word "exception"
        let bindings ← separatedByWord "and" (exnBind nested)
        return .exceptions bindings (← spanFrom start))
      (do
        word "exception"
        let bindings ← separatedByWord "and" (exnBind nested')
        return .exceptions bindings (← spanFrom start)) := by
  refine .first (moves_word _) fun _ _ => ?_
  refine ((agree_exnBind hnested).separatedByWord _).bind fun _ _ => ?_
  exact .look fun _ => .pure ⟨trivial, fun _ => rfl⟩

omit hnested in
theorem gives_openDecl (start : Span) :
    Gives stretch ⊤ (Decl.Quiet P stretch.tokens) (openDecl start) (openDecl start) := by
  unfold openDecl
  refine .first (moves_word _) fun _ _ => ?_
  refine .past (moves_token _ _) fun _ => ?_
  refine .bind (.many (Q := fun _ => True) ?_) fun _ _ => ?_
  · refine .look fun _ => .ite ?_ (.nothing (by simp))
    exact .first (moves_token _ _) fun _ _ => .pure (by simp)
  · exact .look fun _ => .pure ⟨trivial, fun _ => rfl⟩

/-! ## Signatures -/

theorem gives_ascription? : Gives stretch (·.isSome = true) (fun read => ∀ signature ∈ read,
      SigExp.WrittenWith P signature.2) (ascription? nested)
      (ascription? nested') := by
  unfold ascription?
  refine .eat (moves_eatWord _) ?_ ?_
  · exact hnested.sigExp.bind fun signature hsignature => .pure (by simpa using hsignature)
  refine .eat (moves_eatWord _) ?_ (.nothing (by simp))
  exact hnested.sigExp.bind fun signature hsignature => .pure (by simpa using hsignature)

theorem gives_signatureDecl (start : Span) :
    Gives stretch ⊤ (Decl.Quiet P stretch.tokens) (signatureDecl nested start)
      (signatureDecl nested' start) := by
  unfold signatureDecl sigBind
  refine .first (moves_word _) fun _ _ => ?_
  refine (Gives.separatedByWord (Q := fun binding : SigBind =>
    binding.body.WrittenWith P) ?_ _).bind fun bindings hbindings => ?_
  · refine .look fun start => ?_
    refine .lead (moves_token _ _) fun _ _ => ?_
    refine .past (moves_word _) fun _ => ?_
    refine hnested.sigExp.bind fun body hbody => ?_
    exact .look fun _ => .pure hbody
  · exact .look fun _ => .pure ⟨hbindings, fun _ => rfl⟩

end Outside

section Inside

variable (hnested : nested.Alike P stretch nested') (htokens : Token.VariablesOf P stretch.tokens)

include hnested in
theorem gives_valSpec :
    Gives stretch ⊤ (Spec.WrittenWith P) (valSpec nested) (valSpec nested') := by
  unfold valSpec
  refine .look fun start => ?_
  refine .past (moves_eatWord _) fun _ => ?_
  refine .lead (moves_token _ _) fun _ _ => ?_
  refine .past (moves_word _) fun _ => ?_
  refine hnested.type.bind fun type htype => ?_
  refine .look fun _ => .pure ?_
  rw [Spec.WrittenWith]
  exact htype

include hnested htokens in
theorem gives_typeSpec : Gives stretch ⊤ (Spec.WrittenWith P) (typeSpec nested)
      (typeSpec nested') := by
  unfold typeSpec
  refine .look fun start => ?_
  refine .bind (gives_typeVariables htokens) fun parameters hparameters => ?_
  refine .lead (moves_token _ _) fun _ _ => ?_
  refine .bind (hnested.type.afterWord _) fun _ _ => ?_
  refine .look fun _ => .pure ?_
  rw [Spec.WrittenWith]
  exact hparameters

include htokens in
theorem gives_eqtypeSpec : Gives stretch ⊤ (Spec.WrittenWith P) eqtypeSpec eqtypeSpec := by
  unfold eqtypeSpec
  refine .look fun start => ?_
  refine .bind (gives_typeVariables htokens) fun parameters hparameters => ?_
  refine .lead (moves_token _ _) fun _ _ => ?_
  refine .look fun _ => .pure ?_
  rw [Spec.WrittenWith]
  exact hparameters

include hnested in
theorem gives_strSpec :
    Gives stretch ⊤ (Spec.WrittenWith P) (strSpec nested) (strSpec nested') := by
  unfold strSpec
  refine .look fun start => ?_
  refine .lead (moves_token _ _) fun _ _ => ?_
  refine .past (moves_word _) fun _ => ?_
  refine hnested.sigExp.bind fun signature hsignature => ?_
  refine .look fun _ => .pure ?_
  rw [Spec.WrittenWith]
  exact hsignature

include hnested in
theorem gives_exnSpec :
    Gives stretch ⊤ (Spec.WrittenWith P) (exnSpec nested) (exnSpec nested') := by
  unfold exnSpec
  refine .look fun start => ?_
  refine .past (moves_eatWord _) fun _ => ?_
  refine .lead (moves_token _ _) fun _ _ => ?_
  refine .bind (hnested.type.afterWord _) fun _ _ => ?_
  exact .look fun _ => .pure trivial

end Inside

theorem moves_atRefinement : Moves stretch ⊥ atRefinement := by
  unfold atRefinement
  refine .look fun _ => .ite (.pure trivial) ?_
  refine .look fun _ => ?_
  exact .look fun _ => .pure trivial

section Outside

variable (hnested : nested.Alike P stretch.next nested')
  (htokens : Token.VariablesOf P stretch.tokens)
include hnested htokens

theorem gives_specGroup? : Gives stretch (·.isSome = true) (fun read => ∀ specs ∈ read,
      ∀ spec ∈ specs, Spec.WrittenWith P spec) (specGroup? nested)
      (specGroup? nested') := by
  have hgroup : ∀ {item item' : Reader Spec}, Gives stretch.next ⊤ (Spec.WrittenWith P) item item' →
      Gives stretch.next ⊥ (fun read => ∀ specs ∈ read, ∀ spec ∈ specs, Spec.WrittenWith P spec)
        (do return some (← separatedByWord "and" item))
        (do return some (← separatedByWord "and" item')) :=
    fun hitem => (hitem.separatedByWord "and").bind
      fun specs hspecs => .pure (by simpa using hspecs)
  unfold specGroup?
  refine .past moves_skipSemicolons fun _ => ?_
  refine .look fun start => ?_
  refine .eat (moves_eatWord _) (hgroup (gives_valSpec hnested)) ?_
  refine .eat (moves_eatWord _) (hgroup (gives_typeSpec hnested htokens)) ?_
  refine .eat (moves_eatWord _) (hgroup (gives_eqtypeSpec htokens)) ?_
  refine .eat (moves_eatWord _) ?_ ?_
  · refine .past moves_replication? fun replication => ?_
    cases replication with
    | some replication => exact .look fun _ => .pure (by simp [Spec.WrittenWith])
    | none =>
      refine (gives_datBinds hnested htokens).bind fun bindings hbindings => ?_
      refine .look fun _ => .pure ?_
      simpa [Spec.WrittenWith] using hbindings
  refine .eat (moves_eatWord _) (hgroup (gives_exnSpec hnested)) ?_
  refine .eat (moves_eatWord _) (hgroup (gives_strSpec hnested)) ?_
  refine .eat (moves_eatWord _) ?_ ?_
  · refine hnested.sigExp.bind fun signature hsignature => ?_
    refine .look fun _ => .pure ?_
    simpa [Spec.WrittenWith] using hsignature
  exact .look fun _ => .ite (.failHere (by decide) _) (.nothing (by simp))

theorem gives_refined (start : Span) {first : SigExp} (hfirst : first.WrittenWith P) :
    Gives stretch ⊥ (SigExp.WrittenWith P) (whileSome first fun signature => do
        if ← atRefinement then
          advance
          word "type"
          let parameters ← typeVariables
          let read ← longName
          word "="
          let type ← nested.type
          return some (.whereType signature parameters read.1 type (← spanFrom start))
        else return none)
      (whileSome first fun signature => do
        if ← atRefinement then
          advance
          word "type"
          let parameters ← typeVariables
          let read ← longName
          word "="
          let type ← nested'.type
          return some (.whereType signature parameters read.1 type (← spanFrom start))
        else return none) := by
  refine .whileSome hfirst fun signature hsignature => ?_
  refine .past moves_atRefinement fun _ => .ite ?_ (.nothing (by simp))
  refine .past moves_advance fun _ => ?_
  refine .first (moves_word _) fun _ _ => ?_
  refine .bind (gives_typeVariables htokens) fun parameters hparameters => ?_
  refine .past (moves_token _ _) fun _ => ?_
  refine .past (moves_word _) fun _ => ?_
  refine hnested.type.bind fun _ _ => ?_
  refine .look fun _ => .pure ?_
  rintro _ ⟨⟩
  rw [SigExp.WrittenWith]
  exact ⟨hsignature, hparameters⟩

theorem gives_sigExp : Gives stretch ⊤ (SigExp.WrittenWith P) (sigExp nested) (sigExp nested') := by
  unfold sigExp
  refine .look fun start => ?_
  refine .eat (moves_eatWord _) ?_ ?_
  · refine .bind (.many (gives_specGroup? hnested.of_next htokens)) fun groups hgroups => ?_
    refine .past (moves_word _) fun _ => ?_
    refine .look fun _ => ?_
    refine .bind (Q := SigExp.WrittenWith P) (.pure ?_) fun _ hfirst =>
      gives_refined hnested.of_next htokens start hfirst
    rw [SigExp.WrittenWith, Spec.allWrittenWith_iff]
    intro spec hspec
    obtain ⟨group, hgroup, hspec⟩ := mem_flatten.mp hspec
    exact hgroups group hgroup spec hspec
  · refine .lead (moves_token _ _) fun _ _ => ?_
    exact .bind (.pure trivial) fun _ hfirst => gives_refined hnested htokens start hfirst

end Outside

/-! ## Fixity and `local` -/

theorem moves_precedence : Moves stretch ⊥ precedence := by
  unfold precedence
  refine .look fun next? => ?_
  split
  · refine .ite ?_ (.pure trivial)
    split
    · exact .past moves_advance fun _ => .pure trivial
    · exact .failHere (by decide) _
  · exact .pure trivial

theorem reads_insertAll (names : List String) (fixity : Fixity) : Reads stretch before ⊥
      (fun _ after => after = Table.insertAll before names fixity)
      (modify fun cursor => { cursor with
        operators := names.foldl (fun table name => Table.insert table name fixity)
          cursor.operators })
      (modify fun cursor => { cursor with
        operators := names.foldl (fun table name => Table.insert table name fixity)
          cursor.operators }) :=
  fun _ hcursor => ⟨rfl, ⟨rfl, le_rfl, le_max_left _ _⟩, False.elim, hcursor.operators ▸ rfl⟩

theorem moves_names : Moves stretch ⊥ names := by
  unfold names
  refine (Gives.many (Q := fun _ => True) ?_).agree
  refine gives_taken (fun cursor name h => ?_)
    (fun name => ⟨_, by simp, rfl, rfl⟩) (.nothing (by simp))
  obtain ⟨token, hpeek, -⟩ := bind_eq_some_iff.mp h
  exact ⟨token, hpeek⟩

theorem reads_fixityDecl (keyword : String) (start : Span) (before : OperatorTable) :
    Reads stretch before ⊤ (Decl.Told P stretch.tokens before)
      (fixityDecl keyword start) (fixityDecl keyword start) := by
  unfold fixityDecl
  refine .start (moves_word _) fun _ => ?_
  refine .joined (.pure trivial) moves_precedence fun precedence => ?_
  refine .past moves_names fun names => ?_
  refine .ite (.failHere (by decide) _) ?_
  refine (reads_insertAll names _).bind fun _ after hafter => ?_
  exact .look fun _ => .pure ⟨trivial, fun _ => hafter⟩

section Outside

variable (hnested : nested.Alike P stretch.next nested')
include hnested

theorem reads_localDecl (start : Span) (before : OperatorTable) :
    Reads stretch before ⊤ (Decl.Told P stretch.tokens before)
      (localDecl nested start) (localDecl nested' start) := by
  unfold localDecl
  refine .start (moves_word _) fun _ => ?_
  refine .operators_bind ?_
  refine (hnested.decl before).bind fun hidden between hhidden => ?_
  refine .past (moves_word _) fun _ => ?_
  refine .operators_bind ?_
  refine (hnested.decl between).bind fun body last hbody => ?_
  refine .past (moves_word _) fun _ => ?_
  refine .operators_bind ?_
  refine (Runs.restore _).bind fun _ after hafter => ?_
  refine .look fun _ => .pure ⟨?_, fun hordered => ?_⟩
  · rw [Decl.WrittenWith]
    exact ⟨hhidden.1, hbody.1⟩
  · rw [hafter, hbody.2 hordered, hhidden.2 hordered]
    rfl

end Outside

/-! ## Structures and functors -/

theorem told_ascribe {tokens : Array Token} {after : OperatorTable} {body : StrExp}
    (hbody : body.Told P tokens before after) {signature? : Option (Bool × SigExp)}
    (h : ∀ signature ∈ signature?, signature.2.WrittenWith P) :
    (ascribe body signature?).Told P tokens before after := by
  cases signature? with
  | none => exact hbody
  | some signature =>
    exact ⟨⟨hbody.1, h signature rfl⟩, hbody.2⟩

section Inside

variable (hnested : nested.Alike P stretch nested')
include hnested

theorem reads_functorArgument (before : OperatorTable) :
    Reads stretch before ⊥ (StrExp.Told P stretch.tokens before)
      (functorArgument nested) (functorArgument nested') := by
  unfold functorArgument
  refine reads_start_leftParen fun start hstart => ?_
  refine .look fun _ => ?_
  refine .look fun _ => .ite ?_ ?_
  · refine (hnested.decl before).bind fun declaration middle hmiddle => ?_
    refine reads_spanFrom start fun span hspan => .pure_bind ?_
    refine .past (moves_punctuation _ _) fun _ => .pure ?_
    rw [StrExp.Told, StrExp.WrittenWith, StrExp.operatorsRead, hspan, hstart, if_pos rfl]
    exact hmiddle
  · refine (hnested.strExp before).bind fun argument middle hmiddle => ?_
    exact .past (moves_punctuation _ _) fun _ => .pure hmiddle

theorem gives_structBody : Gives stretch ⊥ (Decl.WrittenWith P) (withOperators do
        let declaration ← nested.decl
        word "end"
        return declaration)
      (withOperators do
        let declaration ← nested'.decl
        word "end"
        return declaration) :=
  .withOperators fun before => (hnested.decl before).bind
    fun _ _ hdeclaration => .past (moves_word _) fun _ => .pure hdeclaration.1

theorem gives_letBody : Gives stretch ⊥ (fun read => read.1.WrittenWith P ∧ read.2.WrittenWith P)
      (withOperators do
        let declaration ← nested.decl
        word "in"
        let body ← nested.strExp
        word "end"
        return (declaration, body))
      (withOperators do
        let declaration ← nested'.decl
        word "in"
        let body ← nested'.strExp
        word "end"
        return (declaration, body)) := by
  refine .withOperators fun before => ?_
  refine (hnested.decl before).bind fun declaration middle hdeclaration => ?_
  refine .past (moves_word _) fun _ => ?_
  refine (hnested.strExp middle).bind fun body after hbody => ?_
  exact .past (moves_word _) fun _ => .pure ⟨hdeclaration.1, hbody.1⟩

theorem reads_strBind (before : OperatorTable) : Reads stretch before ⊤
      (fun binding after => binding.body.Told P stretch.tokens before after)
      (strBind nested) (strBind nested') := by
  unfold strBind
  refine .look fun start => ?_
  refine .start (moves_token _ _) fun _ => ?_
  refine .bind_gives (gives_ascription? hnested.of_next.of_next) fun signature? hsignature => ?_
  refine .past (moves_word _) fun _ => ?_
  refine (hnested.of_next.strExp before).bind fun body middle hmiddle => ?_
  exact .look fun _ => .pure (told_ascribe hmiddle hsignature)

theorem reads_functorBind (before : OperatorTable) : Reads stretch before ⊤ (fun binding after =>
        (binding.parameter.WrittenWith P ∧ binding.body.WrittenWith P) ∧
          (StartsInOrder stretch.tokens.toList → after =
            binding.body.operatorsRead (opens stretch.tokens) before))
      (functorBind nested) (functorBind nested') := by
  unfold functorBind
  refine .look fun start => ?_
  refine .start (moves_token _ _) fun _ => ?_
  refine .past (moves_punctuation _ _) fun _ => ?_
  refine .past (moves_token _ _) fun _ => ?_
  refine .past (moves_word _) fun _ => ?_
  refine .bind_gives hnested.of_next.sigExp fun parameter hparameter => ?_
  refine .past (moves_punctuation _ _) fun _ => ?_
  refine .bind_gives (gives_ascription? hnested.of_next.of_next) fun signature? hsignature => ?_
  refine .past (moves_word _) fun _ => ?_
  refine (hnested.of_next.strExp before).bind fun body middle hmiddle => ?_
  obtain ⟨hbody, hafter⟩ := told_ascribe hmiddle hsignature
  exact .look fun _ => .pure ⟨⟨hparameter, hbody⟩, hafter⟩

end Inside

section Outside

variable (hnested : nested.Alike P stretch.next nested')
include hnested

theorem reads_atomicStrExp (before : OperatorTable) :
    Reads stretch before ⊤ (StrExp.Told P stretch.tokens before)
      (atomicStrExp nested) (atomicStrExp nested') := by
  unfold atomicStrExp
  refine reads_start_eatWord "struct" (fun start hstart => ?_) fun start => ?_
  · refine .bind_gives (gives_structBody hnested) fun declaration hdeclaration => ?_
    refine reads_spanFrom start fun span hspan => .pure ?_
    refine ⟨hdeclaration, fun hordered => ?_⟩
    have hspan : opens stretch.tokens span = false := hspan.trans (hstart hordered)
    rw [StrExp.operatorsRead, hspan]
    rfl
  · refine .eat (moves_eatWord _) ?_ ?_
    · refine .bind_gives (gives_letBody hnested) fun read hread => ?_
      refine .look fun _ => .pure ?_
      exact ⟨hread, fun _ => rfl⟩
    refine .start (moves_token _ _) fun name => ?_
    refine .look fun _ => .ite ?_ (.pure ⟨trivial, fun _ => rfl⟩)
    refine (reads_functorArgument hnested before).bind fun argument middle hmiddle => ?_
    refine .look fun _ => .pure ?_
    exact hmiddle

theorem reads_strExp (before : OperatorTable) :
    Reads stretch before ⊤ (StrExp.Told P stretch.tokens before)
      (strExp nested) (strExp nested') := by
  unfold strExp
  refine (reads_atomicStrExp hnested before).lead fun first middle hmiddle => ?_
  refine .whileSome (fun body middle hmiddle => ?_) hmiddle
  refine (Runs.of_gives (gives_ascription? hnested)).cases ?_ ?_
  · rintro signature? _ ⟨-, rfl⟩ hnone
    rw [not_isSome_iff_eq_none.mp hnone]
    exact .nothing hmiddle
  · rintro signature? _ ⟨hsignature, rfl⟩ hsome
    obtain ⟨signature, rfl⟩ := isSome_iff_exists.mp hsome
    exact .pure (told_ascribe hmiddle hsignature)

theorem reads_structureDecl (start : Span) (before : OperatorTable) :
    Reads stretch before ⊤ (Decl.Told P stretch.tokens before)
      (structureDecl nested start) (structureDecl nested' start) := by
  unfold structureDecl
  refine .start (moves_word _) fun _ => ?_
  refine (Runs.separatedByWord "and" (reads_strBind hnested) before).bind
    fun bindings middle hmiddle => ?_
  refine .look fun _ => .pure ?_
  rw [Decl.Told, Decl.WrittenWith, Decl.structuresWrittenWith_iff,
    Decl.operatorsRead, Decl.operatorsReadInStructures_eq]
  exact hmiddle

theorem reads_functorDecl (start : Span) (before : OperatorTable) :
    Reads stretch before ⊤ (Decl.Told P stretch.tokens before)
      (functorDecl nested start) (functorDecl nested' start) := by
  unfold functorDecl
  refine .start (moves_word _) fun _ => ?_
  refine (Runs.separatedByWord "and" (reads_functorBind hnested) before).bind
    fun bindings middle hmiddle => ?_
  refine .look fun _ => .pure ?_
  rw [Decl.Told, Decl.WrittenWith, Decl.functorsWrittenWith_iff,
    Decl.operatorsRead, Decl.operatorsReadInFunctors_eq]
  exact hmiddle

end Outside

/-! ## All declarations -/

theorem reads_some (h : Reads stretch before ⊤ (Decl.Told P stretch.tokens before) reader reader') :
    Reads stretch before (·.isSome = true)
      (fun next? after => (∀ next ∈ next?, next.WrittenWith P) ∧
        (StartsInOrder stretch.tokens.toList →
          after = (next?.map fun declaration => declaration.operatorsRead
            (opens stretch.tokens) before).getD before))
      (do return some (← reader)) (do return some (← reader')) :=
  h.first fun _ _ hafter => .pure (by simpa [Decl.Told] using hafter)

section Outside

variable (hnested : nested.Alike P stretch.next nested')
  (htokens : Token.VariablesOf P stretch.tokens)
include hnested htokens

theorem reads_declaration (before : OperatorTable) :
    Reads stretch before ⊤ (Decl.Told P stretch.tokens before)
      (declaration nested) (declaration nested') := by
  unfold declaration
  refine .look fun start => ?_
  refine .look fun next? => ?_
  split
  · exact .of_quiet (gives_valDecl hnested start)
  · exact .of_quiet (gives_funDecl hnested start)
  · exact .of_quiet (gives_typeDecl hnested htokens start)
  · exact .of_quiet (gives_datatypeDecl hnested htokens start)
  · exact .of_quiet (gives_exceptionDecl hnested start)
  · exact reads_localDecl hnested start before
  · exact .of_quiet (gives_openDecl start)
  · exact reads_fixityDecl _ start before
  · exact reads_fixityDecl _ start before
  · exact reads_fixityDecl _ start before
  · exact reads_structureDecl hnested start before
  · exact .of_quiet (gives_signatureDecl hnested start)
  · exact reads_functorDecl hnested start before
  · exact .failHere (by decide) _

theorem reads_declarations (before : OperatorTable) :
    Reads stretch before ⊥ (Decl.Told P stretch.tokens before)
      (declarations nested) (declarations nested') := by
  unfold declarations
  refine .look fun start => ?_
  refine (Runs.many (Q := Decl.WrittenWith P) (StartsInOrder stretch.tokens.toList)
    (fun before declaration => declaration.operatorsRead (opens stretch.tokens) before)
    (fun before => ?_) before).bind fun items middle hmiddle => ?_
  · refine .past moves_skipSemicolons fun _ => ?_
    refine .look fun _ => .ite ?_ (.nothing (by simp))
    exact reads_some (reads_declaration hnested htokens before)
  split
  · exact .pure ⟨hmiddle.1 _ (by simp), hmiddle.2⟩
  · refine .look fun _ => .pure ?_
    rw [Decl.Told, Decl.WrittenWith, Decl.allWrittenWith_iff,
      Decl.operatorsRead, Decl.operatorsReadInList_eq]
    exact hmiddle

end Outside

/-- The operators after a program are those of its declarations, as they are
read one after the other. -/
theorem reads_program (hnested : nested.Alike P stretch nested')
    (htokens : Token.VariablesOf P stretch.tokens) (before : OperatorTable) :
    Reads stretch before ⊥ (fun program after =>
        (∀ declaration ∈ program.declarations, declaration.WrittenWith P) ∧
          (StartsInOrder stretch.tokens.toList → after =
            program.operatorsRead (opens stretch.tokens) before))
      (program nested) (program nested') := by
  unfold program topLevel
  refine (Runs.many (Q := Decl.WrittenWith P) (StartsInOrder stretch.tokens.toList)
    (fun before declaration => declaration.operatorsRead (opens stretch.tokens) before)
    (fun before => ?_) before).bind fun items after hafter => .pure ?_
  · refine .past moves_skipSemicolons fun _ => ?_
    refine .look fun _ => .ite (.nothing (by simp)) ?_
    refine .look fun _ => .ite ?_ ?_
    · exact reads_some (reads_declaration hnested.of_next htokens before)
    refine (Runs.of_gives hnested.expr).first ?_
    rintro body _ ⟨hbody, rfl⟩
    refine .look fun _ => ?_
    refine .look fun _ => .ite (.failHere (by decide) _) ?_
    refine .pure ⟨?_, fun _ => rfl⟩
    rintro _ ⟨⟩
    rw [Decl.WrittenWith, Decl.bindingsWrittenWith_iff]
    simpa using hbody
  · rw [Program.operatorsRead, Decl.operatorsReadInList_eq]
    exact hafter

end Phrases

end Reading

/-! ## Depth -/

/-- The readers of one family read the phrases in which those of the other are
nested. -/
structure Phrases.Over (outer inner : Phrases) : Prop where
  type : outer.type = Reading.type inner
  pattern : outer.pattern = Reading.pattern inner
  expr : outer.expr = Reading.expr inner
  decl : outer.decl = Reading.declarations inner
  strExp : outer.strExp = Reading.strExp inner
  sigExp : outer.sigExp = Reading.sigExp inner

def Phrases.Deep : Nat → Phrases → Prop
  | 0, _ => True
  | depth + 1, outer => ∃ inner, inner.Deep depth ∧ outer.Over inner

namespace Reading

variable {P : String → Prop}

theorem over_phrases (depth : Nat) : (phrases (depth + 1)).Over (phrases depth) :=
  ⟨rfl, rfl, rfl, rfl, rfl, rfl⟩

theorem deep_phrases (depth : Nat) : (phrases depth).Deep depth := by
  induction depth with
  | zero => trivial
  | succ depth ih => exact ⟨phrases depth, ih, over_phrases depth⟩

theorem alike_of_over {outer outer' inner inner' : Phrases} (houter : outer.Over inner)
    (houter' : outer'.Over inner') (h : inner.Alike P stretch.next inner')
    (htokens : Token.VariablesOf P stretch.tokens) : outer.Alike P stretch outer' where
  type := by
    rw [houter.type, houter'.type]
    exact gives_type h htokens
  pattern := by
    rw [houter.pattern, houter'.pattern]
    exact agree_pattern h
  expr := by
    rw [houter.expr, houter'.expr]
    exact gives_expr h
  sigExp := by
    rw [houter.sigExp, houter'.sigExp]
    exact gives_sigExp h htokens
  decl before := by
    rw [houter.decl, houter'.decl]
    exact reads_declarations h htokens before
  strExp before := by
    rw [houter.strExp, houter'.strExp]
    exact reads_strExp h before

variable {tokens : Array Token} (htokens : Token.VariablesOf P tokens)
include htokens

theorem alike_of_deep {depth start : Nat} (hfirst : first.Deep depth) (hsecond : second.Deep depth)
    (hdepth : tokens.size < start + depth) : first.Alike P ⟨tokens, start, true⟩ second := by
  induction depth generalizing start first second with
  | zero =>
    have hnone : ∀ {cursor : Cursor} {operators : OperatorTable},
        ¬ cursor.In ⟨tokens, start, true⟩ operators := by
      intro cursor operators hcursor
      have hstart : start ≤ cursor.index := hcursor.start
      have hinside : cursor.index ≤ tokens.size := hcursor.inside rfl
      omega
    exact
      { type := fun _ _ hcursor => absurd hcursor hnone
        pattern := fun _ _ hcursor => absurd hcursor hnone
        expr := fun _ _ hcursor => absurd hcursor hnone
        sigExp := fun _ _ hcursor => absurd hcursor hnone
        decl := fun _ _ hcursor => absurd hcursor hnone
        strExp := fun _ _ hcursor => absurd hcursor hnone }
  | succ depth ih =>
    obtain ⟨inner, hinner, houter⟩ := hfirst
    obtain ⟨inner', hinner', houter'⟩ := hsecond
    refine alike_of_over houter houter' (ih hinner hinner' ?_) htokens
    change tokens.size < start + 1 + depth
    omega

theorem alike_of_deep_size (start : Nat) (hfirst : first.Deep (tokens.size + 1))
    (hsecond : second.Deep (tokens.size + 1)) : first.Alike P ⟨tokens, start, false⟩ second := by
  obtain ⟨inner, hinner, houter⟩ := hfirst
  obtain ⟨inner', hinner', houter'⟩ := hsecond
  refine alike_of_over houter houter' ?_ htokens
  refine alike_of_deep htokens hinner hinner' ?_
  change tokens.size < start + 1 + tokens.size
  omega

end Reading

/-! ## Programs -/

namespace Reading

section ReadProgram

variable {P : String → Prop} {tokens : List Token} {operators : OperatorTable}
  {result : Program} {cursor : Cursor}

theorem readProgram_told (htokens : Token.VariablesOf P tokens.toArray)
    (h : readProgram (start tokens operators) = .ok result cursor) :
    (∀ declaration ∈ result.declarations, declaration.WrittenWith P) ∧
      (StartsInOrder tokens → cursor.operators =
        result.operatorsRead (opens tokens.toArray) operators) := by
  have hnested := alike_of_deep_size htokens 0
    (deep_phrases (tokens.toArray.size + 1)) (deep_phrases _)
  have hread := (reads_program hnested htokens operators
    (start tokens operators) ⟨rfl, le_rfl, nofun, rfl⟩).2
  unfold readProgram at h
  cases hresult : program (phrases (tokens.toArray.size + 1)) (start tokens operators) with
  | ok program after =>
    rw [hresult] at hread
    simp only [show (start tokens operators).tokens = tokens.toArray from rfl, hresult] at h
    split at h
    · cases h
    · cases h
      exact hread.2.2
  | error error after =>
    simp only [show (start tokens operators).tokens = tokens.toArray from rfl, hresult] at h
    cases h

/-- The operators after a program are those of its declarations, as they are
read one after the other. -/
theorem readProgram_operators (hordered : StartsInOrder tokens)
    (h : readProgram (start tokens operators) = .ok result cursor) :
    cursor.operators = result.operatorsRead (opens tokens.toArray) operators :=
  (readProgram_told (P := fun _ => True) (fun _ _ _ => trivial) h).2 hordered

end ReadProgram

end Reading

/-! ## The texts of type variables -/

theorem tokenize_variables {text : String} {tokens : List Token} (h : tokenize text = .ok tokens) :
    Token.VariablesOf (fun name => '*' ∉ name.toList) tokens.toArray := by
  intro token htoken hkind
  refine tokensFrom_of_match? (Q := fun kind lexeme =>
    kind = .typeVariable → '*' ∉ lexeme) ?_ h token (by simpa using htoken) hkind
  rintro kind text length hmatch rfl
  simp only [TokenKind.match?, matchTypeVariable] at hmatch
  split at hmatch
  · rename_i rest
    obtain ⟨count, hcount, rfl⟩ := map_eq_some_iff.mp hmatch
    have hlength : count = (rest.takeWhile isNameTail).length := by
      unfold atLeastOne countWhile at hcount
      split at hcount
      · cases hcount
      · exact (Option.some.inj hcount).symm
    have hname := prefix_iff_eq_take.mp (rest.takeWhile_prefix isNameTail)
    rw [hlength, Nat.add_comm, take_succ_cons, ← hname, mem_cons]
    rintro (hquote | htail)
    · simp at hquote
    · exact absurd (mem_takeWhile_imp htail) (by decide)
  · cases hmatch

end Sml
