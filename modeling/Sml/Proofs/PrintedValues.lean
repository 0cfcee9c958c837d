import Sml.Evaluation.Eval
import Sml.Proofs.Advance
import Sml.Proofs.AtomicExpressions

/-!
# Printed values are read back

The text of a first-order value is scanned and read as one expression, and
that expression evaluates to the value again.  Texts that stand where an
argument is expected are atomic expressions; others may be applications.
-/

namespace Sml

open Lexeme List OperatorTable Option Table Ty Wording

/-! ## Evaluating what was read -/

variable {name : String} {entry : DynamicValue}
variable {f : Expr → Eval Value} {values : List (String × Value)} {exprs : List (String × Expr)}
  {argument : Value} {word : Lexeme}

namespace Eval

variable {scope : Scope} {tree : ScopeTree} {steps : Nat}

/-- From so many steps on, the expression evaluates to the value and leaves
the state as it is. -/
def Evaluates (scope : Scope) (tree : ScopeTree) (steps : Nat) (value : Value)
    (expr : Expr) : Prop :=
  ∀ more, steps ≤ more → evalExpr more scope expr tree = .ok value tree

theorem Evaluates.mono {value : Value} {expr : Expr} {more : Nat}
    (h : Evaluates scope tree steps value expr) (hle : steps ≤ more) :
    Evaluates scope tree more value expr :=
  fun most hmost => h most (by omega)

theorem evaluates_succ {value : Value} {expr : Expr} (h : ∀ more, steps ≤ more →
      evalExpr (more + 1) scope expr tree = .ok value tree) :
    Evaluates scope tree (steps + 1) value expr := by
  intro more hmore
  obtain ⟨more, rfl⟩ := Nat.exists_eq_succ_of_ne_zero (by omega : more ≠ 0)
  exact h more (by omega)

theorem mapM_eq_ok {values : List Value} {exprs : List Expr}
    (h : List.Forall₂ (fun value expr => f expr tree = .ok value tree) values exprs) :
    exprs.mapM f tree = .ok values tree := by
  induction h with
  | nil => rfl
  | cons hfirst _ ih =>
    rw [mapM_cons, bind_apply_of_ok hfirst, bind_apply_of_ok ih]
    rfl

theorem fields_eq_ok (h : List.Forall₂ (fun field expr => expr.1 = field.1 ∧
      f expr.2 tree = .ok field.2 tree) values exprs) (before : Table Value) :
    fields f exprs before tree =
      .ok (values.foldl (fun table field => Table.insert table field.1 field.2) before) tree := by
  induction h generalizing before with
  | nil => rfl
  | cons hfirst _ ih =>
    rw [fields, bind_apply_of_ok hfirst.2, hfirst.1]
    exact ih _

section Constructs

-- Makes the equations once for all constructs.
attribute [local simp] evalExpr applyValue

theorem evaluates_const (hsteps : 0 < steps) (value : Constant) (span : Span) :
    Evaluates scope tree steps (constantValue value) (.const value span) := by
  intro more hmore
  obtain ⟨more, rfl⟩ := Nat.exists_eq_succ_of_ne_zero (by omega : more ≠ 0)
  rw [evalExpr]
  rfl

theorem evaluates_name (hsteps : 0 < steps) (h : tree.dynamicValue? scope [] name = some entry)
    (span : Span) : Evaluates scope tree steps entry.value (.name (.simple name) span) := by
  intro more hmore
  obtain ⟨more, rfl⟩ := Nat.exists_eq_succ_of_ne_zero (by omega : more ≠ 0)
  have hlook : (look fun tree => tree.dynamicValue? scope [] name) tree =
      .ok (some entry) tree := by
    change EStateM.Result.ok (tree.dynamicValue? scope [] name) tree = _
    rw [h]
  rw [evalExpr]
  exact bind_apply_of_ok hlook

theorem evaluates_tuple {values : List Value} {exprs : List Expr}
    (h : List.Forall₂ (Evaluates scope tree steps) values exprs) (span : Span) :
    Evaluates scope tree (steps + 1) (.tuple values) (.tuple exprs span) := by
  refine evaluates_succ fun more hmore => ?_
  rw [evalExpr, bind_apply_of_ok (mapM_eq_ok (h.imp fun _ _ h => h more hmore))]
  rfl

theorem evaluates_list {values : List Value} {exprs : List Expr}
    (h : List.Forall₂ (Evaluates scope tree steps) values exprs) (span : Span) :
    Evaluates scope tree (steps + 1) (.list values) (.list exprs span) := by
  refine evaluates_succ fun more hmore => ?_
  rw [evalExpr, bind_apply_of_ok (mapM_eq_ok (h.imp fun _ _ h => h more hmore))]
  rfl

theorem evaluates_record (h : List.Forall₂ (fun field expr => expr.1 = field.1 ∧
      Evaluates scope tree steps field.2 expr.2) values exprs) (span : Span) :
    Evaluates scope tree (steps + 1) (.record (ofList values)) (.record exprs span) := by
  refine evaluates_succ fun more hmore => ?_
  rw [evalExpr, bind_apply_of_ok (fields_eq_ok (h.imp fun _ _ h => ⟨h.1, h.2 more hmore⟩) [])]
  rfl

theorem evaluates_app {function expr : Expr} (hsteps : 0 < steps)
    (hfunction : Evaluates scope tree steps (.constructor name) function)
    (hargument : Evaluates scope tree steps argument expr) (span : Span) :
    Evaluates scope tree (steps + 1) (.constructed name (some argument))
      (.app function expr span) := by
  refine evaluates_succ fun more hmore => ?_
  obtain ⟨more, rfl⟩ := Nat.exists_eq_succ_of_ne_zero (by omega : more ≠ 0)
  rw [evalExpr, bind_apply_of_ok (hfunction _ hmore), bind_apply_of_ok (hargument _ hmore),
    applyValue]
  rfl

end Constructs

end Eval

/-! ## Texts of values -/

variable {elements : List Value} {fields : List (String × Value)}

namespace Value

open Reading Reader Eval

theorem commas_eq_some {ι : Type} {items : List ι} {written : ι → Option String}
    {text : ι → String} (h : ∀ item ∈ items, written item = some (text item)) :
    commas (items.map written) = some (", ".intercalate (items.map text)) := by
  have hmap : items.map written = (items.map text).map some := by
    rw [List.map_map]
    exact map_congr_left h
  have hall : ∀ texts : List String, (texts.map some).mapM id = some texts := by
    intro texts
    induction texts with
    | nil => rfl
    | cons text texts ih => simp [ih]
  rw [commas, hmap, hall, map_some]

/-- First-order values whose constructors are bound to themselves: integers,
strings, characters, records, lists, and values of constructors with and
without argument. -/
inductive Printable (operators : OperatorTable) (scope : Scope)
    (tree : ScopeTree) : Value → Prop where
  | int (value : Int64) : Printable operators scope tree (.int value)
  | string (value : String) : Printable operators scope tree (.string value)
  | char (value : Char) : Printable operators scope tree (.char value)
  | record {fields : List (String × Value)} (hordered : Ordered fields)
      (hlabels : ∀ field ∈ fields, isLabel field.1 = true)
      (hfields : ∀ field ∈ fields, Printable operators scope tree field.2) :
      Printable operators scope tree (.record fields)
  | list {elements : List Value}
      (helements : ∀ element ∈ elements, Printable operators scope tree element) :
      Printable operators scope tree (.list elements)
  | nullary {name : String} {entry : DynamicValue}
      (hname : isAlphanumeric name = true) (hreserved : isReserved name = false)
      (hoperator : operator? operators name = none)
      (hentry : tree.dynamicValue? scope [] name = some entry)
      (hvalue : entry.value = .constructed name none) :
      Printable operators scope tree (.constructed name none)
  | unary {name : String} {entry : DynamicValue} {argument : Value}
      (hname : isAlphanumeric name = true) (hreserved : isReserved name = false)
      (hoperator : operator? operators name = none)
      (hentry : tree.dynamicValue? scope [] name = some entry)
      (hvalue : entry.value = .constructor name)
      (hargument : Printable operators scope tree argument) :
      Printable operators scope tree (.constructed name (some argument))

section Write

variable (cell : (address : Nat) → (nested : Bool) → Option String)

attribute [local simp] writeWith writeFields writeList writeHead writeTail

theorem writeFields_eq (fields : List (String × Value)) : writeFields cell fields =
      Table.mapValues (fun value => writeWith cell value false) fields := by
  induction fields with
  | nil => simp [Table.mapValues]
  | cons field fields ih =>
    rw [writeFields, ih]
    rfl

theorem tuple_pair (first second : Value) :
    Value.tuple [first, second] = .record [("1", first), ("2", second)] := by
  have hne : ¬toString 2 = toString 1 := by decide
  have hlt : ¬toString 2 < toString 1 := by decide
  simp only [tuple, numbered, ofList, foldl, Table.insert,
    Nat.reduceAdd, if_neg hne, if_neg hlt]
  rfl

theorem writeList_list (elements : List Value) : writeList cell (list elements) =
      some (elements.map fun element => writeWith cell element false) := by
  induction elements with
  | nil => simp [list, nil]
  | cons element elements ih =>
    change writeList cell (.constructed "::" (some (.tuple [element, list elements]))) = _
    rw [tuple_pair, writeList, if_pos rfl, writeCons]
    simp [ih]

theorem writeWith_cons (element : Value) (elements : List Value) (nested : Bool) :
    writeWith cell (list (element :: elements)) nested =
      (commas ((element :: elements).map fun element =>
        writeWith cell element false)).map fun text => "[" ++ text ++ "]" := by
  have hlist := writeList_list cell (element :: elements)
  change writeWith cell (.constructed "::" (some (.tuple [element, list elements]))) nested = _
  change writeList cell (.constructed "::" (some (.tuple [element, list elements]))) = _ at hlist
  rw [writeList, if_pos rfl] at hlist
  rw [writeWith, if_pos rfl, hlist]

end Write

/-! ## Values in their places -/

/-- The words of a value are read as an expression that evaluates to it: an
atomic one where the value is nested. -/
def ReadsIn (operators : OperatorTable) (scope : Scope) (tree : ScopeTree)
    (value : Value) (words : List Lexeme) : (nested : Bool) → Prop
  | true => ∀ depth, words.length ≤ depth + 1 → ∀ rest,
      Consumes operators (atomicExpr (phrases depth)) words rest
        (Evaluates scope tree words.length value)
  | false => ∀ depth, words.length ≤ depth + 1 → ∀ rest, EndsExpr rest →
      Consumes operators (Reading.expr (phrases depth)) words rest
        (Evaluates scope tree words.length value)

/-- The value has a text in each place, and is read back from its words. -/
def Legible (operators : OperatorTable) (scope : Scope) (tree : ScopeTree)
    (cell : (address : Nat) → (nested : Bool) → Option String) (value : Value) : Prop :=
  ∀ nested, ∃ text words, writeWith cell value nested = some text ∧
    Wording text words ∧ Starts operators words ∧
    ReadsIn operators scope tree value words nested

variable {operators : OperatorTable} {scope : Scope} {tree : ScopeTree}
  {cell : (address : Nat) → (nested : Bool) → Option String}
  {value : Value} {words rest : List Lexeme}

theorem ReadsIn.inside (h : ReadsIn operators scope tree value words false) (hnil : words ≠ [])
    {depth : Nat} (hdepth : words.length ≤ depth) (hrest : EndsExpr rest) :
    Consumes operators (phrases depth).expr words rest
      (Evaluates scope tree words.length value) := by
  have hpos := length_pos_iff.mpr hnil
  obtain ⟨depth, rfl⟩ := Nat.exists_eq_succ_of_ne_zero (by omega : depth ≠ 0)
  exact h depth hdepth rest hrest

theorem legible_of_atomic {text : String}
    (htext : ∀ nested, writeWith cell value nested = some text) (hwords : Wording text words)
    (hstarts : Starts operators words) (h : ReadsIn operators scope tree value words true) :
    Legible operators scope tree cell value := by
  intro nested
  refine ⟨text, words, htext nested, hwords, hstarts, ?_⟩
  cases nested with
  | true => exact h
  | false =>
    exact fun depth hdepth rest hrest => consumes_expr_atomic (h depth hdepth rest) hstarts hrest

theorem legible_constant {constant : Constant}
    (hkind : word.kind ∈ [.integer, .stringLiteral, .charLiteral])
    (hvalue : constantValue constant = value)
    (htext : ∀ nested, writeWith cell value nested = some word.text)
    (hword : Wording word.text [word])
    (h : ∀ token : Token, token.lexeme = word → token.constant? = some (.ok constant)) :
    Legible operators scope tree cell value := by
  refine legible_of_atomic htext hword ?_ fun depth _ rest => ?_
  · refine ⟨word, [], rfl, .inl ?_⟩
    revert hkind
    cases word.kind <;> decide
  · refine (consumes_atomicExpr_const hkind h).mono ?_
    rintro _ ⟨span, rfl⟩
    rw [← hvalue]
    exact evaluates_const (by simp) constant span

theorem wording_intText (value : Int64) : Wording (intText value) [⟨.integer, intText value⟩] := by
  have htext : (intText value).toList =
      sign (decide (value.toInt < 0)) ++ decimal value.toInt.natAbs := by
    simp [toList_intText, sign]
  have hdigit := fun c => @isDigit_of_mem_decimal value.toInt.natAbs c
  have hstands : ∀ after, Delimited after → Stands ⟨.integer, intText value⟩ after :=
    fun _ => stands_integer htext Nat.toDigits_ne_nil hdigit
  obtain ⟨first, digits, hdigits⟩ : ∃ first digits, decimal value.toInt.natAbs = first :: digits :=
    exists_cons_of_ne_nil Nat.toDigits_ne_nil
  rw [hdigits] at htext hdigit
  cases hsign : decide (value.toInt < 0) with
  | true =>
    rw [hsign] at htext
    exact .of_stands hstands htext (by decide)
  | false =>
    rw [hsign] at htext
    refine .of_stands hstands htext ?_
    rintro rfl
    exact absurd (hdigit '*' (by simp)) (by decide)

theorem legible_int (value : Int64) : Legible operators scope tree cell (.int value) :=
  legible_constant (by simp) rfl (fun _ => by rw [writeWith])
    (wording_intText value) fun token htoken =>
      Token.constant?_int (mk.inj htoken).1 (mk.inj htoken).2

theorem legible_string (value : String) : Legible operators scope tree cell (.string value) := by
  have hword := of_stands (fun after _ => stands_string value after)
    (toList_stringText value) (by decide)
  exact legible_constant (by simp) rfl (fun _ => by rw [writeWith]) hword
    fun token htoken => Token.constant?_string (mk.inj htoken).1 (mk.inj htoken).2

theorem legible_char (value : Char) : Legible operators scope tree cell (.char value) := by
  have hword := of_stands (fun after _ => stands_char value after)
    (toList_charText value) (by decide)
  exact legible_constant (by simp) rfl (fun _ => by rw [writeWith]) hword
    fun token htoken => Token.constant?_char (mk.inj htoken).1 (mk.inj htoken).2

/-! ## Constructors and lists -/

theorem starts_mark (h : word.kind ∈ [.leftParen, .leftBracket, .leftBrace]) :
    Starts operators (word :: words) := by
  refine ⟨word, words, rfl, .inl ?_⟩
  revert h
  cases word.kind <;> decide

theorem starts_name (hreserved : isReserved name = false)
    (hoperator : operator? operators name = none) : Starts operators (.identifier name :: words) :=
  ⟨_, _, rfl, .inr ⟨rfl, hreserved, hoperator⟩⟩

theorem wording_name (h : isAlphanumeric name = true) : Wording name [.identifier name] := by
  have hword := @Wording.qualified [name] (by simp) (by simpa using h)
  rwa [String.intercalate_singleton] at hword

theorem wording_nil : Wording "[]" [.leftBracket, .rightBracket] where
  spells after _ := (Spells.word (stands_closed .leftBracket (by decide) _)).append
      (.word (stands_closed .rightBracket (by decide) after))
  opens after := by simp

theorem legible_nil : Legible operators scope tree cell .nil := by
  refine legible_of_atomic (fun _ => by rw [nil, writeWith, if_pos rfl]) wording_nil
    (starts_mark (by decide)) fun depth _ rest => ?_
  refine consumes_atomicExpr_nil.mono ?_
  rintro _ ⟨span, rfl⟩
  exact @evaluates_list scope tree 1 [] [] .nil span

section Constructors

variable (hname : isAlphanumeric name = true) (hreserved : isReserved name = false)
  (hoperator : operator? operators name = none)
  (hentry : tree.dynamicValue? scope [] name = some entry)
include hname hreserved hoperator hentry

theorem legible_nullary (hvalue : entry.value = .constructed name none) :
    Legible operators scope tree cell (.constructed name none) := by
  -- The empty list has a text of its own.
  by_cases hnil : name = "nil"
  · subst hnil
    exact legible_nil
  · refine legible_of_atomic (fun _ => by rw [writeWith, if_neg hnil])
      (wording_name hname) (starts_name hreserved hoperator) fun depth _ rest => ?_
    refine (consumes_atomicExpr_name hname hreserved hoperator).mono ?_
    rintro _ ⟨span, rfl⟩
    rw [← hvalue]
    exact evaluates_name (by simp) hentry span

theorem legible_unary (hvalue : entry.value = .constructor name)
    (h : Legible operators scope tree cell argument) :
    Legible operators scope tree cell (.constructed name (some argument)) := by
  obtain ⟨text, words, htext, hwords, hstarts, hread⟩ := h true
  have hcons : name ≠ "::" := by
    rintro rfl
    exact absurd hname (by decide)
  have hwrite : ∀ nested, writeWith cell (.constructed name (some argument)) nested =
      applied nested name (some text) := by
    intro nested
    rw [writeWith, if_neg hcons, htext]
  have hword := (wording_name hname).space hwords
  have hloose : ReadsIn operators scope tree (.constructed name (some argument))
      ([.identifier name] ++ words) false := by
    intro depth hdepth rest hrest
    rw [length_append, length_singleton] at hdepth
    have hfunction := @consumes_atomicExpr_name operators (phrases depth)
      (words ++ rest) name hname hreserved hoperator
    refine (consumes_expr_app hfunction (hread depth (by omega) rest)
      (starts_name hreserved hoperator) hstarts hrest).mono ?_
    rintro _ ⟨_, expr, span, rfl, ⟨place, rfl⟩, hexpr⟩
    have hpos : 0 < words.length := by
      obtain ⟨word, tail, rfl, -⟩ := hstarts
      simp
    have hconstructor := evaluates_name hpos hentry place
    rw [hvalue] at hconstructor
    exact (evaluates_app hpos hconstructor hexpr span).mono (by simp)
  intro nested
  cases nested with
  | false => exact ⟨_, _, hwrite false, hword, starts_name hreserved hoperator, hloose⟩
  | true =>
    refine ⟨_, _, hwrite true, hword.parens, starts_mark (by decide), ?_⟩
    intro depth hdepth rest
    rw [cons_append, length_cons, length_append] at hdepth
    have hinner : ∀ rest, EndsExpr rest → Consumes operators (phrases depth).expr
        ([.identifier name] ++ words) rest _ :=
      fun rest hrest => hloose.inside (by simp) (by omega) hrest
    refine (consumes_atomicExpr_parens (starts_name hreserved hoperator)
      hinner).mono fun expr hexpr => ?_
    refine hexpr.mono ?_
    simp only [length_append, length_cons]
    omega

end Constructors

/-- Parts of a phrase are read where the phrase is, and evaluate in as many
steps as it has words. -/
theorem ReadsIn.parts {ι : Type} {items : List ι} {part : ι → Value} {spelled : ι → List Lexeme}
    {size depth : Nat}
    (h : ∀ item ∈ items, ReadsIn operators scope tree (part item) (spelled item) false)
    (hstarts : ∀ item ∈ items, Starts operators (spelled item))
    (hsize : ∀ item ∈ items, (spelled item).length ≤ size) (hdepth : size ≤ depth) :
    ∀ item ∈ items, ∀ rest, EndsExpr rest →
      Consumes operators (phrases depth).expr (spelled item) rest
        (Evaluates scope tree size (part item)) := by
  intro item hitem rest hrest
  have hle := hsize item hitem
  have hnil : spelled item ≠ [] := by
    obtain ⟨word, tail, hwords, -⟩ := hstarts item hitem
    simp [hwords]
  exact ((h item hitem).inside hnil (by omega) hrest).mono fun expr hexpr => hexpr.mono hle

theorem legible_list (h : ∀ element ∈ elements, Legible operators scope tree cell element) :
    Legible operators scope tree cell (.list elements) := by
  cases elements with
  | nil => exact legible_nil
  | cons element elements =>
    choose! text words htext hwords hstarts hread using
      fun element helement => h element helement false
    have hlist := listed separator_comma (by simp) hwords
    refine legible_of_atomic (fun nested => ?_) hlist.brackets (starts_mark (by decide)) ?_
    · rw [writeWith_cons, commas_eq_some htext, map_some]
    · intro depth hdepth rest
      rw [cons_append, length_cons, length_append] at hdepth ⊢
      have hparts := ReadsIn.parts hread hstarts (fun element => length_le_listed .comma words)
        (by omega : _ ≤ depth)
      refine (consumes_atomicExpr_list hparts (by simp) hstarts).mono ?_
      rintro _ ⟨exprs, span, rfl, hexprs⟩
      exact (evaluates_list hexprs span).mono (by omega)

/-! ## Records -/

theorem wording_unit : Wording "()" [.leftParen, .rightParen] where
  spells after _ := by
    have hopen : leftParen.Stands (')' :: after) := stands_leftParen (by simp)
    exact (Spells.word hopen).append (.word (stands_closed .rightParen (by decide) after))
  opens after := by simp

theorem legible_unit : Legible operators scope tree cell .unit := by
  refine legible_of_atomic (fun _ => by rw [unit, writeWith]; rfl) wording_unit
    (starts_mark (by decide)) fun depth _ rest => ?_
  refine consumes_atomicExpr_unit.mono ?_
  rintro _ ⟨span, rfl⟩
  exact @evaluates_tuple scope tree 1 [] [] .nil span

theorem writeWith_tuple (hlength : 2 ≤ elements.length) (nested : Bool) :
    writeWith cell (.tuple elements) nested =
      (commas (elements.map fun element => writeWith cell element false)).map
        fun text => "(" ++ text ++ ")" := by
  have hordered := ordered_ofList (numbered 1 elements)
  have hfields := (perm_numbered elements).length_eq
  rw [length_numbered] at hfields
  have hempty : (ofList (numbered 1 elements)).isEmpty = false := by
    rw [isEmpty_eq_false_iff, ← length_pos_iff]
    omega
  rw [tuple, writeWith]
  simp only [writeFields_eq, mapM_get?_mapValues, hempty,
    (mapM_range_eq_some hordered).mpr rfl, map_some, length_map]
  rw [if_neg Bool.false_ne_true, if_pos (by omega)]

theorem writeWith_braces (hnil : fields ≠ []) (hordered : Ordered fields)
    (htuple : ∀ elements : List Value, 2 ≤ elements.length →
      fields ≠ ofList (numbered 1 elements)) (nested : Bool) :
    writeWith cell (.record fields) nested =
      (commas (fields.map fun field => (writeWith cell field.2 false).map
        fun text => field.1 ++ " = " ++ text)).map fun text => "\x7b " ++ text ++ " \x7d" := by
  have hbraced : writeWith cell (.record fields) nested =
      writeWith.braced (writeFields cell fields) := by
    rw [writeWith, if_neg (by simpa using hnil)]
    simp only [writeFields_eq, mapM_get?_mapValues]
    cases helements : (List.range fields.length).mapM fun index =>
        Table.get? fields (toString (index + 1)) with
    | none => rfl
    | some elements =>
      have hfields := (mapM_range_eq_some hordered).mp helements
      have hshort : ¬1 < elements.length := fun hlength => htuple elements hlength hfields
      simp [hshort]
  rw [hbraced, writeWith.braced, writeFields_eq, Table.mapValues, List.map_map]
  rfl

theorem legible_tuple (hlength : 2 ≤ elements.length)
    (h : ∀ element ∈ elements, Legible operators scope tree cell element) :
    Legible operators scope tree cell (.tuple elements) := by
  choose! text words htext hwords hstarts hread using
    fun element helement => h element helement false
  have hnil : elements ≠ [] := by
    rintro rfl
    cases hlength
  have hlist := listed separator_comma hnil hwords
  refine legible_of_atomic (fun nested => ?_) hlist.parens (starts_mark (by decide)) ?_
  · rw [writeWith_tuple hlength, commas_eq_some htext, map_some]
  · intro depth hdepth rest
    rw [cons_append, length_cons, length_append] at hdepth ⊢
    have hparts := ReadsIn.parts hread hstarts (fun element => length_le_listed .comma words)
      (by omega : _ ≤ depth)
    refine (consumes_atomicExpr_tuple hparts hlength hstarts).mono ?_
    rintro _ ⟨exprs, span, rfl, hexprs⟩
    exact (evaluates_tuple hexprs span).mono (by omega)

theorem legible_braces (hnil : fields ≠ []) (hordered : Ordered fields)
    (htuple : ∀ elements : List Value, 2 ≤ elements.length →
      fields ≠ ofList (numbered 1 elements)) (hlabels : ∀ field ∈ fields, isLabel field.1 = true)
    (h : ∀ field ∈ fields, Legible operators scope tree cell field.2) :
    Legible operators scope tree cell (.record fields) := by
  choose! text words htext hwords hstarts hread using fun field hfield => h field hfield false
  have hfields := fun field hfield =>
    (label (hlabels field hfield)).join separator_equals (hwords field hfield)
  have hlist := (listed separator_comma hnil hfields).spacedBraces
  refine legible_of_atomic (fun nested => ?_) hlist (starts_mark (by decide)) ?_
  · rw [writeWith_braces hnil hordered htuple, commas_eq_some, map_some]
    intro field hfield
    rw [htext field hfield, map_some]
  · intro depth hdepth rest
    rw [cons_append, length_cons, length_append] at hdepth ⊢
    have hsize : ∀ field ∈ fields, (words field).length ≤ (listed .comma
        (fun field => [.label field.1] ++ .symbol "=" :: words field)
        fields).length := by
      intro field hfield
      have hle := length_le_listed .comma
        (fun field => [.label field.1] ++ .symbol "=" :: words field) hfield
      simp only [length_append, length_cons] at hle
      omega
    have hparts := ReadsIn.parts hread hstarts hsize (by omega : _ ≤ depth)
    refine (consumes_atomicExpr_record hparts hnil hlabels).mono ?_
    rintro _ ⟨exprs, span, rfl, hexprs⟩
    have hrecord := evaluates_record hexprs span
    rw [ofList_of_ordered hordered] at hrecord
    exact hrecord.mono (by omega)

theorem legible_record (hordered : Ordered fields)
    (hlabels : ∀ field ∈ fields, isLabel field.1 = true)
    (h : ∀ field ∈ fields, Legible operators scope tree cell field.2) :
    Legible operators scope tree cell (.record fields) := by
  by_cases hnil : fields = []
  · subst hnil
    exact legible_unit
  · by_cases htuple : ∃ elements : List Value, 2 ≤ elements.length ∧
        fields = ofList (numbered 1 elements)
    · obtain ⟨elements, hlength, rfl⟩ := htuple
      refine legible_tuple hlength fun element helement => ?_
      obtain ⟨entry, hentry, rfl⟩ := exists_mem_numbered 1 helement
      exact h entry ((mem_ofList (nodup_numbered elements 1)).mpr hentry)
    · push Not at htuple
      exact legible_braces hnil hordered htuple hlabels h

theorem legible_of_printable (h : Printable operators scope tree value) :
    Legible operators scope tree cell value := by
  induction h with
  | int value => exact legible_int value
  | string value => exact legible_string value
  | char value => exact legible_char value
  | record hordered hlabels _ hfields => exact legible_record hordered hlabels hfields
  | list _ helements => exact legible_list helements
  | nullary hname hreserved hoperator hentry hvalue =>
    exact legible_nullary hname hreserved hoperator hentry hvalue
  | unary hname hreserved hoperator hentry hvalue _ hargument =>
    exact legible_unary hname hreserved hoperator hentry hvalue hargument

/-- The text of a value has no comments, is scanned without failure and read
to the last token as one expression, and the expression evaluates to the
value and changes nothing. -/
theorem eval_value_text (h : Printable operators scope tree value) :
    ∃ text tokens expr cursor, value.text? tree.memory = some text ∧
      stripComments text = .ok text ∧ tokenize text = .ok tokens ∧
      read (·.expr) (start tokens operators) = .ok expr cursor ∧
      cursor.index = tokens.length ∧
      ∀ steps, tokens.length ≤ steps → evalExpr steps scope expr tree = .ok value tree := by
  obtain ⟨text, words, htext, hwords, hstarts, hread⟩ := legible_of_printable h false
  have hspells := hwords.spells [] delimited_nil
  obtain ⟨tokens, htokens, hlexemes⟩ := hspells.tokenize_eq
  have hlength : words.length = tokens.length := by
    rw [← hlexemes, length_map]
  have hfaces : (start tokens operators).Faces operators (words ++ []) := by
    rw [append_nil, ← hlexemes]
    exact faces_start operators
  obtain ⟨expr, cursor, hok, hend, hsame, hexpr⟩ :=
    hread tokens.length (by omega) [] (by simp [EndsExpr]) _ hfaces
  refine ⟨text, tokens, expr, cursor, htext, hspells.stripComments_eq, htokens,
    hok, ?_, fun steps hsteps => hexpr steps (by omega)⟩
  rw [hend.at_end, hsame]
  simp [start]

def nodes : ScopeTree where
  frames := #[{ dynamics := { values :=
    [("Leaf", { value := .constructed "Leaf" none, status := .constructor }),
      ("Node", { value := .constructor "Node", status := .constructor })] } }]

/-- The text has a constructor under a constructor, a negative number, and
quotes and the beginning of a comment in a string. -/
def nestedValue : Value := .constructed "Node" (some (.list
    [.record [("1", .constructed "Leaf" none),
      ("2", .constructed "Node" (some (.constructed "Node" (some .nil))))],
    .record [("1", .int (-1)), ("s", .string "\"(*\\")]]))

example : nestedValue.text? nodes.memory =
    some "Node [(Leaf, Node (Node [])), \x7b 1 = ~1, s = \"\\\"(*\\\\\" \x7d]" := by
  cbv

theorem eval_value_text_nested : Printable [] [0] nodes nestedValue ∧
      ∃ text tokens expr cursor, nestedValue.text? nodes.memory = some text ∧
        stripComments text = .ok text ∧ tokenize text = .ok tokens ∧
        read (·.expr) (start tokens []) = .ok expr cursor ∧
        cursor.index = tokens.length ∧
        ∀ steps, tokens.length ≤ steps → evalExpr steps [0] expr nodes = .ok nestedValue nodes := by
  have hnode : ∀ argument, Printable [] [0] nodes argument →
      Printable [] [0] nodes (.constructed "Node" (some argument)) :=
    fun argument => .unary (by decide) (by decide) rfl rfl rfl
  have hleaf : Printable [] [0] nodes (.constructed "Leaf" none) :=
    .nullary (by decide) (by decide) rfl rfl rfl
  have hnil : Printable [] [0] nodes .nil := @Printable.list [] [0] nodes [] (by simp)
  have h : Printable [] [0] nodes nestedValue := by
    refine hnode _ (.list ?_)
    simp only [forall_mem_cons]
    refine ⟨.record (by decide) (by decide) ?_, .record (by decide) (by decide) ?_,
      by simp⟩
    · simp only [forall_mem_cons]
      exact ⟨hleaf, hnode _ (hnode _ hnil), by simp⟩
    · simp only [forall_mem_cons]
      exact ⟨.int _, .string _, by simp⟩
  exact ⟨h, eval_value_text h⟩

end Value

end Sml
