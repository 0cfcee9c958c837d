import Sml.Proofs.PrintedTypes

/-!
# Reading written expressions

Constants, names, and expressions in parentheses, brackets and braces are
read from their words.  Before a comma or a closing mark such an expression,
or one applied to another, is read as a whole.
-/

namespace Sml

open Lexeme List OperatorTable Option

open Reader

variable {word : Lexeme} {Q : Expr → Prop}

namespace Reading

variable {operators : OperatorTable} {nested : Phrases} {words rest : List Lexeme}

/-! ## Where expressions begin and end -/

def StartsAtomic (operators : OperatorTable) (word : Lexeme) : Prop :=
  word.kind ∈ [.leftParen, .leftBracket, .leftBrace, .integer, .stringLiteral, .charLiteral] ∨
  word.kind = .identifier ∧ isReserved word.text = false ∧
    operator? operators word.text = none

def Starts (operators : OperatorTable) (words : List Lexeme) : Prop :=
  ∃ word tail, words = word :: tail ∧ StartsAtomic operators word

/-- What follows closes the phrase around the expression. -/
def EndsExpr (rest : List Lexeme) : Prop := ∀ word ∈ rest.head?,
    word.kind ∈ [.comma, .rightParen, .rightBracket, .rightBrace]

theorem EndsExpr.name? (h : EndsExpr rest) : rest.head?.bind Lexeme.name? = none := by
  cases hhead : rest.head? with
  | none => rfl
  | some word =>
    have hkind := h word hhead
    simp only [List.mem_cons, List.not_mem_nil, or_false] at hkind
    rcases hkind with hkind | hkind | hkind | hkind <;> simp [Lexeme.name?, hkind]

theorem consumes_exprOperator?
    (h : ∀ word ∈ rest.head?, ∀ name ∈ word.name?, operator? operators name = none) :
    Consumes operators exprOperator? [] rest (· = none) := by
  refine .of_view fun cursor hcursor => ?_
  have hpeek := hcursor.peek?
  unfold Cursor.operator?
  cases hnext : cursor.peek? with
  | none => rfl
  | some token =>
    rw [hnext, map_some] at hpeek
    simp only [bind_eq_bind, bind_some]
    cases hname : token.shortIdentifier? <|> token.freeSymbol? with
    | none => rfl
    | some name =>
      have hfound : token.lexeme.name? = some name := by
        simp only [Token.shortIdentifier?, Token.freeSymbol?] at hname
        split at hname <;> simp_all [name?, Token.lexeme]
      have hoperator := h token.lexeme hpeek.symm name hfound
      rw [← hcursor.operators] at hoperator
      simp [hoperator]

theorem consumes_atKeywordForm
    (h : ∀ word ∈ rest.head?, ∀ name ∈ word.name?, keywordForms.contains name = false) :
    Consumes operators atKeywordForm [] rest (· = false) := by
  refine .of_view fun cursor hcursor => ?_
  have hname : cursor.peek?.bind Token.name? = rest.head?.bind name? := by
    rw [← hcursor.peek?, bind_map]
    rfl
  rw [hname]
  split
  · rename_i name hfound
    obtain ⟨word, hword, hfound⟩ := bind_eq_some_iff.mp hfound
    exact h word hword name hfound
  · rfl

theorem consumes_atAtomicExpr (h : Starts operators words) :
    Consumes operators atAtomicExpr [] (words ++ rest) (· = true) := by
  obtain ⟨word, tail, rfl, h⟩ := h
  refine consumes_peek?.look fun next? hnext => ?_
  obtain ⟨⟨kind, text, span⟩, rfl, rfl⟩ := map_eq_some_iff.mp hnext
  rcases h with hkind | ⟨hkind, hreserved, hoperator⟩
  · simp only [Token.lexeme, List.mem_cons, List.not_mem_nil, or_false] at hkind
    rcases hkind with rfl | rfl | rfl | rfl | rfl | rfl
    · exact .pure rfl
    · exact .pure rfl
    · exact .pure rfl
    · refine .pure ?_
      simp only [Token.constant?]
      split <;> rfl
    · exact .pure rfl
    · exact .pure rfl
  · simp only [Token.lexeme] at hkind hreserved hoperator
    subst hkind
    refine (consumes_exprOperator? ?_).look fun found hfound => .pure ?_
    · rintro word ⟨⟩ name ⟨⟩
      exact hoperator
    · simp [hfound, hreserved]

theorem consumes_atAtomicExpr_ne (h : EndsExpr rest) :
    Consumes operators atAtomicExpr [] rest (· = false) := by
  refine consumes_peek?.look fun next? hnext => ?_
  rw [nil_append] at hnext
  cases next? with
  | none => exact .pure rfl
  | some token =>
    obtain ⟨kind, text, span⟩ := token
    have hkind := h _ hnext.symm
    simp only [Token.lexeme, List.mem_cons, List.not_mem_nil, or_false] at hkind
    rcases hkind with rfl | rfl | rfl | rfl <;> exact .pure rfl

theorem StartsAtomic.unreserved (h : StartsAtomic operators word)
    {name : String} (hname : word.name? = some name) :
    isReserved name = false ∧ operator? operators name = none := by
  obtain ⟨kind, text⟩ := word
  rcases h with hkind | ⟨hkind, hreserved, hoperator⟩
  · simp only [List.mem_cons, List.not_mem_nil, or_false] at hkind
    rcases hkind with rfl | rfl | rfl | rfl | rfl | rfl <;> cases hname
  · simp only at hkind
    subst hkind
    cases hname
    exact ⟨hreserved, hoperator⟩

theorem StartsAtomic.kind_ne (h : StartsAtomic operators word) {kind : TokenKind}
    (hkind : kind ∈ [.rightParen, .rightBracket, .rightBrace]) : (word.kind == kind) = false := by
  rw [beq_eq_false_iff_ne]
  rintro rfl
  rcases h with h | ⟨h, -⟩
  · revert h hkind
    cases word.kind <;> decide
  · rw [h] at hkind
    revert hkind
    decide

theorem consumes_expr_applied (h : Consumes operators (appliedExpr nested) words rest Q)
    (hstarts : Starts operators words) (hrest : EndsExpr rest) :
    Consumes operators (expr nested) words rest Q := by
  have hword : ∀ text, rest.head?.bind name? ≠ some text := fun text => by simp [hrest.name?]
  have hoperator : Consumes operators (operatorExpr nested) words rest Q := by
    refine h.last fun first hfirst => ?_
    refine (consumes_whileSome_none ?_).look fun last hlast => ?_
    · refine (consumes_exprOperator? fun next hnext name hname => ?_).look fun found hfound => ?_
      · exact absurd (bind_eq_some_iff.mpr ⟨next, hnext, hname⟩) (hword name)
      · rw [hfound]
        exact .pure rfl
    · rw [hlast]
      exact .pure hfirst
  have htyped : Consumes operators (typedExpr nested) words rest Q :=
    hoperator.last fun _ => consumes_whileWord_none (hword ":")
  have handAlso : Consumes operators (andAlsoExpr nested) words rest Q :=
    htyped.last fun _ => consumes_whileWord_none (hword "andalso")
  have horElse : Consumes operators (orElseExpr nested) words rest Q :=
    handAlso.last fun _ => consumes_whileWord_none (hword "orelse")
  refine (consumes_atKeywordForm ?_).lookNo ?_
  · obtain ⟨word, tail, rfl, hfirst⟩ := hstarts
    rintro _ ⟨⟩ name hname
    have hreserved := (hfirst.unreserved hname).1
    have hforms : ∀ form ∈ keywordForms, isReserved form = true := by decide
    by_contra hform
    have hform := hforms name (contains_iff_mem.mp (Bool.of_not_eq_false hform))
    rw [hreserved] at hform
    cases hform
  · exact horElse.last fun _ => consumes_whileWord_none (hword "handle")

/-! ## Atomic expressions -/

theorem consumes_expr_atomic (h : Consumes operators (atomicExpr nested) words rest Q)
    (hstarts : Starts operators words) (hrest : EndsExpr rest) :
    Consumes operators (expr nested) words rest Q := by
  refine consumes_expr_applied ?_ hstarts hrest
  refine h.last fun head hhead => ?_
  refine (consumes_whileSome_none ?_).mono fun last hlast => ?_
  · refine (consumes_atAtomicExpr_ne hrest).lookNo ?_
    refine (consumes_atWord ?_).lookNo (.pure rfl)
    simp [hrest.name?]
  · rw [hlast]
    exact hhead

theorem consumes_expr_app {P : Expr → Prop} {others : List Lexeme}
    (hfunction : Consumes operators (atomicExpr nested) words (others ++ rest) P)
    (hargument : Consumes operators (atomicExpr nested) others rest Q)
    (hwords : Starts operators words) (hothers : Starts operators others) (hrest : EndsExpr rest) :
    Consumes operators (expr nested) (words ++ others) rest fun expr => ∃ function argument span,
        expr = .app function argument span ∧ P function ∧ Q argument := by
  have hstarts : Starts operators (words ++ others) := by
    obtain ⟨word, tail, rfl, hword⟩ := hwords
    exact ⟨word, tail ++ others, rfl, hword⟩
  have hnil : others ≠ [] := by
    obtain ⟨word, tail, rfl, -⟩ := hothers
    simp
  refine consumes_expr_applied ?_ hstarts hrest
  refine hfunction.bind fun function hfunction' => ?_
  refine Loops.whileSome ?_
  rw [← append_nil others]
  refine .next (P := fun expr => ∃ argument span,
    expr = .app function argument span ∧ Q argument) hnil ?_ ?_
  · refine (consumes_atAtomicExpr hothers).lookYes ?_
    exact hargument.last fun argument hargument' => .pure ⟨_, rfl, argument, _, rfl, hargument'⟩
  · rintro _ ⟨argument, span, rfl, hargument'⟩
    refine .done ?_ ⟨function, argument, span, rfl, hfunction', hargument'⟩
    refine (consumes_atAtomicExpr_ne hrest).lookNo ?_
    refine (consumes_atWord ?_).lookNo (.pure rfl)
    simp [hrest.name?]

theorem consumes_atomicExpr_const {value : Constant}
    (hkind : word.kind ∈ [.integer, .stringLiteral, .charLiteral])
    (h : ∀ token : Token, token.lexeme = word → token.constant? = some (.ok value)) :
    Consumes operators (atomicExpr nested) [word] rest
      fun expr => ∃ span, expr = .const value span := by
  have hne : ∀ kind ∈ [TokenKind.leftParen, .leftBracket, .leftBrace],
      ([word] ++ rest).head?.any (·.kind == kind) = false := by
    intro kind hmark
    rw [singleton_append, head?_cons, any_some, beq_eq_false_iff_ne]
    rintro rfl
    revert hmark hkind
    cases word.kind <;> decide
  refine consumes_currentSpan.look fun start _ => ?_
  refine (consumes_eatKind_ne (hne _ (by simp))).lookNo ?_
  refine (consumes_eatKind_ne (hne _ (by simp))).lookNo ?_
  refine (consumes_eatKind_ne (hne _ (by simp))).lookNo ?_
  have hat : Consumes operators atConstant [] ([word] ++ rest) (· = true) := by
    refine .of_view fun cursor hcursor => ?_
    obtain ⟨token, hpeek, htoken⟩ := hcursor.exists_peek?
    simp [hpeek, h token htoken]
  refine hat.lookYes ?_
  have hread : Consumes operators constant [word] rest (·.1 = value) := by
    refine consumes_peek?.look fun next? hnext => ?_
    obtain ⟨token, rfl, htoken⟩ := map_eq_some_iff.mp hnext
    simp only [h token htoken]
    exact consumes_advance.last fun _ _ => .pure rfl
  refine hread.last fun found hfound => ?_
  obtain ⟨_, span⟩ := found
  cases hfound
  exact .pure ⟨span, rfl⟩

theorem consumes_atomicExpr_name {name : String} (hname : isAlphanumeric name = true)
    (hreserved : isReserved name = false) (hoperator : operator? operators name = none) :
    Consumes operators (atomicExpr nested) [.identifier name] rest
      fun expr => ∃ span, expr = .name (.simple name) span := by
  have hword : ∀ text, isReserved text = true →
      (([identifier name] ++ rest).head?.bind name?) ≠ some text := by
    rintro text htext ⟨⟩
    exact Bool.false_ne_true (hreserved.symm.trans htext)
  refine consumes_currentSpan.look fun start _ => ?_
  refine (consumes_eatKind_ne rfl).lookNo ?_
  refine (consumes_eatKind_ne rfl).lookNo ?_
  refine (consumes_eatKind_ne rfl).lookNo ?_
  have hat : Consumes operators atConstant [] ([.identifier name] ++ rest) (· = false) := by
    refine .of_view fun cursor hcursor => ?_
    obtain ⟨token, hpeek, htoken⟩ := hcursor.exists_peek?
    have hkind : token.kind = .identifier := (Lexeme.mk.inj htoken).1
    simp [hpeek, Token.constant?, hkind]
  refine hat.lookNo ?_
  refine (consumes_eatWord_ne (hword "#" (by decide))).lookNo ?_
  refine (consumes_eatWord_ne (hword "let" (by decide))).lookNo ?_
  refine (consumes_eatWord_ne (hword "op" (by decide))).look fun explicit hexplicit => ?_
  refine (consumes_exprOperator? ?_).look fun found hfound => ?_
  · rintro word ⟨⟩ name ⟨⟩
    exact hoperator
  · rw [hexplicit, hfound]
    have hlong := @consumes_longName { name } operators rest (by simpa using hname)
      (by simpa [TyCon.fullName] using hreserved)
    simp only [TyCon.fullName, nil_append, String.intercalate_singleton] at hlong
    refine hlong.last fun value hvalue => ?_
    obtain ⟨_, span⟩ := value
    cases hvalue
    exact .pure ⟨span, rfl⟩

/-! ## Parentheses, brackets and braces -/

theorem endsExpr_cons (word : Lexeme) (h : word.kind ∈ [.comma, .rightParen, .rightBracket,
    .rightBrace]) (rest : List Lexeme) : EndsExpr (word :: rest) := by
  simpa [EndsExpr] using h

theorem consumes_atomicExpr_unit :
    Consumes operators (atomicExpr nested) [.leftParen, .rightParen] rest
      fun expr => ∃ span, expr = .tuple [] span := by
  refine consumes_currentSpan.look fun start _ => ?_
  refine (consumes_eatKind rfl).firstYes ?_
  refine (consumes_eatKind rfl).firstYes ?_
  exact (consumes_spanFrom start).look fun span _ => .pure ⟨span, rfl⟩

theorem consumes_atomicExpr_parens (hstarts : Starts operators words)
    (h : ∀ rest, EndsExpr rest → Consumes operators nested.expr words rest Q) :
    Consumes operators (atomicExpr nested) (.leftParen :: words ++ [.rightParen]) rest Q := by
  refine consumes_currentSpan.look fun start _ => ?_
  refine (consumes_eatKind rfl).firstYes ?_
  refine (consumes_eatKind_ne ?_).lookNo ?_
  · obtain ⟨word, tail, rfl, hword⟩ := hstarts
    exact hword.kind_ne (by decide)
  refine (h _ (endsExpr_cons .rightParen (by decide) rest)).bind fun expr hexpr => ?_
  refine (consumes_atKind rfl).lookNo ?_
  refine (consumes_atKind rfl).lookNo ?_
  exact consumes_rightParen.first fun _ _ => .pure hexpr

theorem consumes_atomicExpr_nil :
    Consumes operators (atomicExpr nested) [.leftBracket, .rightBracket] rest
      fun expr => ∃ span, expr = .list [] span := by
  refine consumes_currentSpan.look fun start _ => ?_
  refine (consumes_eatKind_ne rfl).lookNo ?_
  refine (consumes_eatKind rfl).firstYes ?_
  refine (consumes_atKind rfl).lookYes ?_
  refine consumes_rightBracket.first fun _ _ => ?_
  exact (consumes_spanFrom start).look fun span _ => .pure ⟨span, rfl⟩

section Items

variable {ι : Type} {items : List ι} {spelled : ι → List Lexeme} {R : ι → Expr → Prop}
  (h : ∀ item ∈ items, ∀ rest, EndsExpr rest →
    Consumes operators nested.expr (spelled item) rest (R item))
include h

theorem consumes_atomicExpr_tuple (hlength : 2 ≤ items.length)
    (hstarts : ∀ item ∈ items, Starts operators (spelled item)) :
    Consumes operators (atomicExpr nested)
      (.leftParen :: listed .comma spelled items ++ [.rightParen]) rest
      fun expr => ∃ exprs span, expr = .tuple exprs span ∧ List.Forall₂ R items exprs := by
  obtain ⟨first, items, rfl⟩ := exists_cons_of_length_pos (l := items) (by omega)
  obtain ⟨second, items, rfl⟩ := exists_cons_of_length_pos (l := items)
    (by simp only [length_cons] at hlength; omega)
  obtain ⟨word, tail, hword, hfirst⟩ := hstarts first (by simp)
  rw [listed, cons_append, append_assoc]
  refine consumes_currentSpan.look fun start _ => ?_
  refine (consumes_eatKind rfl).firstYes ?_
  refine (consumes_eatKind_ne ?_).lookNo ?_
  · simpa [hword] using hfirst.kind_ne (by decide)
  refine (h first (by simp) _ (endsExpr_cons .comma (by decide) _)).bind fun expr hexpr => ?_
  refine (consumes_atKind rfl).lookYes ?_
  have hmany : Consumes operators (many do
        if ← eatKind .comma then return some (← nested.expr) else return none)
      ((second :: items).flatMap fun item => .comma :: spelled item)
      (.rightParen :: rest) (List.Forall₂ R (second :: items)) := by
    refine consumes_many (fun item hitem => ⟨by simp, fun rest hrest => ?_⟩)
      (endsExpr_cons .rightParen (by decide) rest) ((consumes_eatKind_ne rfl).lookNo (.pure rfl))
    refine ⟨endsExpr_cons .comma (by decide) _, (consumes_eatKind rfl).firstYes ?_⟩
    exact (h item (mem_cons_of_mem _ hitem) rest hrest).some
  refine hmany.bind fun exprs hexprs => ?_
  refine consumes_rightParen.first fun _ _ => ?_
  exact (consumes_spanFrom start).look fun span _ => .pure ⟨_, span, rfl, .cons hexpr hexprs⟩

theorem consumes_atomicExpr_list (hnil : items ≠ [])
    (hstarts : ∀ item ∈ items, Starts operators (spelled item)) :
    Consumes operators (atomicExpr nested)
      (.leftBracket :: listed .comma spelled items ++ [.rightBracket]) rest
      fun expr => ∃ exprs span, expr = .list exprs span ∧ List.Forall₂ R items exprs := by
  refine consumes_currentSpan.look fun start _ => ?_
  refine (consumes_eatKind_ne rfl).lookNo ?_
  refine (consumes_eatKind rfl).firstYes ?_
  refine (consumes_atKind ?_).lookNo ?_
  · obtain ⟨first, items, rfl⟩ := exists_cons_of_ne_nil hnil
    obtain ⟨word, tail, hword, hfirst⟩ := hstarts first (by simp)
    simpa [listed, hword] using hfirst.kind_ne (by decide)
  have hlist := consumes_separated h hnil (endsExpr_cons .comma (by decide))
    (endsExpr_cons .rightBracket (by decide) rest) rfl
  refine hlist.bind fun exprs hexprs => ?_
  refine consumes_rightBracket.first fun _ _ => ?_
  exact (consumes_spanFrom start).look fun span _ => .pure ⟨exprs, span, rfl, hexprs⟩

theorem consumes_atomicExpr_record {label : ι → String} (hnil : items ≠ [])
    (hlabels : ∀ item ∈ items, isLabel (label item) = true) :
    Consumes operators (atomicExpr nested) (.leftBrace :: listed .comma
        (fun item => [.label (label item)] ++ .symbol "=" :: spelled item) items ++
        [.rightBrace]) rest
      fun expr => ∃ exprs span, expr = .record exprs span ∧
        List.Forall₂ (fun item field => field.1 = label item ∧ R item field.2) items exprs := by
  refine consumes_currentSpan.look fun start _ => ?_
  refine (consumes_eatKind_ne rfl).lookNo ?_
  refine (consumes_eatKind_ne rfl).lookNo ?_
  refine (consumes_eatKind rfl).firstYes ?_
  refine (consumes_atKind ?_).lookNo ?_
  · obtain ⟨first, items, rfl⟩ := exists_cons_of_ne_nil hnil
    simp only [listed, cons_append, Lexeme.label]
    split <;> rfl
  have hlist := consumes_fields "=" rfl hlabels h hnil (endsExpr_cons .comma (by decide))
    (endsExpr_cons .rightBrace (by decide) rest) rfl
  refine hlist.bind fun exprs hexprs => ?_
  refine consumes_rightBrace.first fun _ _ => ?_
  exact (consumes_spanFrom start).look fun span _ => .pure ⟨exprs, span, rfl, hexprs⟩

end Items

end Reading

end Sml
