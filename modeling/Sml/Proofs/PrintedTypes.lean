import Mathlib.Tactic.Choose
import Sml.Proofs.Consumption
import Sml.Proofs.TupleFields
import Sml.Reading.Program

/-!
# Printed types are read back

A type is written with parentheses that depend on its place: on its own or as
a result, as a parameter, or as an argument of a type constructor or of a
product.  In each place the text is read as words, and the reader of that
place reads from them the expression that has the structure of the type.
-/

namespace Sml

open Lexeme List Table Ty

open Reader

/-! ## The expression of a type -/

variable {fields : List (String × Ty)} {elements : List Ty}

namespace Ty

/-- The type expression that has the structure of a type, wherever it was
read: a complete record labelled `1`, …, `n` is a tuple if `n` is at least
two, and the empty record is `unit`. -/
inductive ExpressedBy : Ty → TypeExpr → Prop where
  | var {name : String} {domain : List Ty} {free : Bool} (span : Span) :
      ExpressedBy (.var name domain free) (.var name span)
  | arrow {parameter result : Ty} {first second : TypeExpr} (span : Span)
      (hparameter : ExpressedBy parameter first)
      (hresult : ExpressedBy result second) :
      ExpressedBy (.arrow parameter result) (.arrow first second span)
  | con {head : TyCon} {arguments : List Ty} {exprs : List TypeExpr}
      (span : Span) (harguments : List.Forall₂ ExpressedBy arguments exprs) :
      ExpressedBy (.con head arguments) (.con ⟨head.path, head.name⟩ exprs span)
  | unit (span : Span) :
      ExpressedBy (.record [] true) (.con (.simple "unit") [] span)
  | product {elements : List Ty} {exprs : List TypeExpr} (span : Span)
      (hlength : 2 ≤ elements.length)
      (helements : List.Forall₂ ExpressedBy elements exprs) :
      ExpressedBy (.record (ofList (numbered 1 elements)) true) (.tuple exprs span)
  | record {fields : List (String × Ty)} {exprs : List (String × TypeExpr)}
      (span : Span) (hnil : fields ≠ [])
      (hproduct : ∀ elements : List Ty, 2 ≤ elements.length →
        fields ≠ ofList (numbered 1 elements))
      (hlabels : keys exprs = keys fields)
      (hfields : List.Forall₂ ExpressedBy (values fields) (values exprs)) :
      ExpressedBy (.record fields true) (.record exprs span)
  | tuple {elements : List Ty} {expr : TypeExpr}
      (h : ExpressedBy (.record (ofList (numbered 1 elements)) true) expr) :
      ExpressedBy (.tuple elements) expr

/-- Types that can be written: without binders, with all fields of their
records known, and with names and labels that can be read. -/
inductive Writable : Ty → Prop where
  | var {name : String} (domain : List Ty) (free : Bool)
      (h : isVariable name = true) : Writable (.var name domain free)
  | arrow {parameter result : Ty} (hparameter : Writable parameter)
      (hresult : Writable result) : Writable (.arrow parameter result)
  | con {head : TyCon} {arguments : List Ty}
      (hparts : ∀ part ∈ head.path ++ [head.name], isAlphanumeric part = true)
      (hreserved : isReserved head.fullName = false)
      (harguments : ∀ argument ∈ arguments, Writable argument) :
      Writable (.con head arguments)
  | record {fields : List (String × Ty)} (hordered : Ordered fields)
      (hlabels : ∀ field ∈ fields, isLabel field.1 = true)
      (hfields : ∀ field ∈ fields, Writable field.2) :
      Writable (.record fields true)
  | tuple {elements : List Ty}
      (helements : ∀ element ∈ elements, Writable element) :
      Writable (.tuple elements)

/-! ## Texts in a place -/

def textIn (type : Ty) (place : Place) : String := (fold write type).inPlace place

theorem textIn_con_many (head : TyCon) (first second : Ty) (others : List Ty) (place : Place) :
    (con head (first :: second :: others)).textIn place = "(" ++ ", ".intercalate
          ((first :: second :: others).map (·.textIn .loose)) ++ ")" ++ " " ++
        head.fullName := by
  have hspace : ") " = ")" ++ " " := rfl
  change "(" ++ ", ".intercalate
      ((foldList write (first :: second :: others)).map (·.inPlace .loose)) ++
    ") " ++ head.fullName = _
  rw [foldList_eq_map, map_map, hspace, ← String.append_assoc]
  rfl

private theorem textIn_record_eq (fields : List (String × Ty)) (place : Place) :
    (record fields true).textIn place =
      writeRecord (mapValues (fold write) fields) true place := by
  rw [← foldFields_eq_map]
  rfl

theorem textIn_product (h : tupleElements? fields true = some elements) (place : Place) :
    (record fields true).textIn place = parenthesize (place == .argument)
        (" * ".intercalate (elements.map (·.textIn .argument))) := by
  have hnil : mapValues (fold write) fields ≠ [] := by
    intro hnil
    rw [mapValues, map_eq_nil_iff] at hnil
    subst hnil
    cases h
  rw [textIn_record_eq, writeRecord, if_neg (by simpa using hnil), tupleElements?_mapValues, h]
  simp only [Option.map_some, map_map]
  rfl

theorem textIn_record (hnil : fields ≠ []) (h : tupleElements? fields true = none) (place : Place) :
    (record fields true).textIn place = "\x7b" ++ ", ".intercalate
        (fields.map fun field => field.1 ++ ": " ++ field.2.textIn .loose) ++
        "\x7d" := by
  rw [textIn_record_eq, writeRecord,
    if_neg (by simpa [mapValues] using hnil), tupleElements?_mapValues, h]
  simp only [Option.map_none, if_true, String.append_empty, mapValues, map_map]
  rfl

theorem textIn_tuple (elements : List Ty) (place : Place) : (tuple elements).textIn place =
      (record (ofList (numbered 1 elements)) true).textIn place := by
  have hfields : ofList (numbered 1 (foldList write elements)) =
      mapValues (fold write) (ofList (numbered 1 elements)) := by
    rw [foldList_eq_map, numbered_map, mapValues_ofList]
  rw [textIn_record_eq, ← hfields]
  rfl

end Ty

/-! ## Reading a type -/

variable {types : List Ty}
variable {spelled : Ty → List Lexeme} {head : TyCon} {parameter result : Ty}

namespace Reading

variable {operators : OperatorTable} {nested : Phrases} {words rest : List Lexeme}

def EndsApplied (rest : List Lexeme) : Prop := ∀ word ∈ rest.head?, word.kind ≠ .identifier

def EndsProduct (rest : List Lexeme) : Prop :=
  EndsApplied rest ∧ rest.head?.bind name? ≠ some "*"

def EndsType (rest : List Lexeme) : Prop :=
  EndsProduct rest ∧ rest.head?.bind name? ≠ some "->"

theorem endsType_nil : EndsType [] := by
  simp [EndsType, EndsProduct, EndsApplied]

theorem endsType_cons (word : Lexeme) (h : word.name? = none) (rest : List Lexeme) :
    EndsType (word :: rest) := by
  have hkind : word.kind ≠ .identifier := by
    intro hkind
    simp [name?, hkind] at h
  simp [EndsType, EndsProduct, EndsApplied, h, hkind]

theorem consumes_atTypeConstructor {found : Bool}
    (h : (rest.head?.any fun word => word.kind == .identifier && !isReserved word.text) = found) :
    Consumes operators atTypeConstructor [] rest (· = found) := by
  refine .of_view fun cursor hcursor => ?_
  rw [← h, ← hcursor.peek?, Option.any_map]
  congr 1
  funext token
  simp only [Token.longIdentifier?, Token.lexeme]
  split <;> simp_all

section Names

variable (hparts : ∀ part ∈ head.path ++ [head.name], isAlphanumeric part = true)
  (hreserved : isReserved head.fullName = false)
include hparts hreserved

theorem consumes_longName :
    Consumes operators longName [.identifier head.fullName] rest
      (·.1 = ⟨head.path, head.name⟩) := by
  refine consumes_token (fun token htoken => ?_) .identifier
  obtain ⟨hkind, htext⟩ := Lexeme.mk.inj htoken
  have hname : LongName.ofText head.fullName = ⟨head.path, head.name⟩ :=
    @LongName.ofText_text ⟨head.path, head.name⟩ fun part hpart => point_not_mem (hparts part hpart)
  simp [Token.longIdentifier?, hkind, htext, hreserved, hname]

omit hparts hreserved in
theorem consumes_atomicType_var (name : String) (domain : List Ty) (free : Bool) :
    Consumes operators (atomicType nested) [.typeVariable name] rest
      (List.Forall₂ Ty.ExpressedBy [.var name domain free]) := by
  refine consumes_currentSpan.look fun start _ => ?_
  refine (consumes_atKind rfl).lookYes ?_
  have hname : Consumes operators typeVariable [.typeVariable name] rest (·.1 = name) := by
    refine consumes_token (fun token htoken => ?_) .typeVariable
    obtain ⟨hkind, htext⟩ := Lexeme.mk.inj htoken
    simp [hkind, htext]
  refine hname.last fun value hvalue => ?_
  obtain ⟨_, span⟩ := value
  cases hvalue
  exact .pure (.cons (.var span) .nil)

theorem consumes_atomicType_con :
    Consumes operators (atomicType nested) [.identifier head.fullName] rest
      fun exprs => ∃ span, exprs = [.con ⟨head.path, head.name⟩ [] span] := by
  refine consumes_currentSpan.look fun start _ => ?_
  refine (consumes_atKind rfl).lookNo ?_
  refine (consumes_eatKind_ne rfl).lookNo ?_
  refine (consumes_eatKind_ne rfl).lookNo ?_
  refine (consumes_atTypeConstructor ?_).lookYes ?_
  · simp [identifier, hreserved]
  · refine (consumes_longName hparts hreserved).last fun value hvalue => ?_
    obtain ⟨_, span⟩ := value
    cases hvalue
    exact .pure ⟨span, rfl⟩

omit hparts hreserved in
theorem consumes_atomicType_parens (hnil : types ≠ []) (h : ∀ type ∈ types, ∀ rest, EndsType rest →
      Consumes operators nested.type (spelled type) rest type.ExpressedBy) :
    Consumes operators (atomicType nested)
      (.leftParen :: listed .comma spelled types ++ [.rightParen]) rest
      (List.Forall₂ Ty.ExpressedBy types) := by
  refine consumes_currentSpan.look fun start _ => ?_
  refine (consumes_atKind rfl).lookNo ?_
  refine (consumes_eatKind_ne rfl).lookNo ?_
  refine (consumes_eatKind rfl).firstYes ?_
  have hlist : Consumes operators (separatedByKind .comma nested.type)
      (listed .comma spelled types) (.rightParen :: rest)
      (List.Forall₂ Ty.ExpressedBy types) :=
    consumes_separatedByKind h hnil (endsType_cons .comma rfl)
      (endsType_cons .rightParen rfl rest) rfl rfl
  refine hlist.bind fun exprs hexprs => ?_
  exact consumes_rightParen.first fun _ _ => .pure hexprs

omit hparts hreserved in
theorem consumes_atomicType_record {spelled : String × Ty → List Lexeme}
    (hnil : fields ≠ []) (hlabels : ∀ field ∈ fields, isLabel field.1 = true)
    (h : ∀ field ∈ fields, ∀ rest, EndsType rest →
      Consumes operators nested.type (spelled field) rest field.2.ExpressedBy) :
    Consumes operators (atomicType nested) (.leftBrace :: listed .comma
        (fun field => .label field.1 :: .symbol ":" :: spelled field) fields ++
        [.rightBrace]) rest
      fun exprs => ∃ found span, exprs = [.record found span] ∧
        List.Forall₂ (fun field expr => expr.1 = field.1 ∧
          Ty.ExpressedBy field.2 expr.2) fields found := by
  refine consumes_currentSpan.look fun start _ => ?_
  refine (consumes_atKind rfl).lookNo ?_
  refine (consumes_eatKind rfl).firstYes ?_
  refine (consumes_atKind ?_).lookNo ?_
  · obtain ⟨field, others, rfl⟩ := exists_cons_of_ne_nil hnil
    simp only [Lexeme.listed, cons_append, Lexeme.label]
    split <;> rfl
  have hlist := consumes_fields ":" rfl hlabels h hnil (endsType_cons .comma rfl)
    (endsType_cons .rightBrace rfl rest) rfl
  refine hlist.bind fun found hfound => ?_
  refine consumes_rightBrace.first fun _ _ => ?_
  exact (consumes_spanFrom start).look fun span _ => .pure ⟨found, span, rfl, hfound⟩

/-! ## Applied types -/

def applyNext (start : Span) (arguments : List TypeExpr) : Reader (Option (List TypeExpr)) := do
  if ← atTypeConstructor then
    let (name, stop) ← longName
    return some [.con name arguments (start.merge stop)]
  else return none

/-- Words of an unapplied type and of the type constructors after it. -/
inductive Spine (operators : OperatorTable) (nested : Phrases) : List Lexeme → List Ty → Prop where
  | atomic {words : List Lexeme} {types : List Ty}
      (h : ∀ rest, Consumes operators (atomicType nested) words rest
        (List.Forall₂ Ty.ExpressedBy types)) : Spine operators nested words types
  | apply {words : List Lexeme} {types : List Ty} {head : TyCon}
      (h : Spine operators nested words types)
      (hparts : ∀ part ∈ head.path ++ [head.name], isAlphanumeric part = true)
      (hreserved : isReserved head.fullName = false) :
      Spine operators nested (words ++ [.identifier head.fullName]) [.con head types]

theorem consumes_applyNext {exprs : List TypeExpr}
    (hexprs : List.Forall₂ Ty.ExpressedBy types exprs) (start : Span) :
    Consumes operators (applyNext start exprs) [.identifier head.fullName] rest
      fun next? => ∃ next ∈ next?, List.Forall₂ Ty.ExpressedBy [.con head types] next := by
  refine (consumes_atTypeConstructor ?_).lookYes ?_
  · simp [identifier, hreserved]
  · refine (consumes_longName hparts hreserved).last fun value hvalue => ?_
    obtain ⟨_, stop⟩ := value
    cases hvalue
    exact .pure ⟨_, rfl, .cons (.con _ hexprs) .nil⟩

end Names

theorem Spine.consumes_loop {β : Type} (h : Spine operators nested words types) {more : List Lexeme}
    {Q : List TypeExpr → Prop} {R : β → Prop} {finish : List TypeExpr → Reader β}
    (hmore : ∀ start exprs, List.Forall₂ Ty.ExpressedBy types exprs →
      Loops operators (applyNext start) exprs more rest Q)
    (hfinish : ∀ exprs, Q exprs → Consumes operators (finish exprs) [] rest R) :
    Consumes operators (do
        let arguments ← atomicType nested
        let start := (arguments.head?.map TypeExpr.span).getD {}
        let applied ← whileSome arguments (applyNext start)
        finish applied)
      (words ++ more) rest R := by
  induction h generalizing more with
  | atomic h =>
    exact (h _).bind fun exprs hexprs => (hmore _ exprs hexprs).whileSome.last hfinish
  | apply h hparts hreserved ih =>
    rw [append_assoc]
    refine ih fun start exprs hexprs => ?_
    exact .next (by simp) (consumes_applyNext hparts hreserved hexprs start)
      fun next hnext => hmore start next hnext

theorem Spine.consumes_appliedType {type : Ty}
    (h : Spine operators nested words [type]) (hrest : EndsApplied rest) :
    Consumes operators (appliedType nested) words rest type.ExpressedBy := by
  rw [← append_nil words]
  refine h.consumes_loop (Q := List.Forall₂ Ty.ExpressedBy [type])
    (fun start exprs hexprs => .done ?_ hexprs) fun exprs hexprs => ?_
  · refine (consumes_atTypeConstructor ?_).lookNo (.pure rfl)
    cases hhead : rest.head? with
    | none => simp [hhead]
    | some word => simp [hhead, hrest word hhead]
  · obtain ⟨expr, _, hexpr, hnil, rfl⟩ := forall₂_cons_left_iff.mp hexprs
    obtain rfl := forall₂_nil_left_iff.mp hnil
    exact .pure hexpr

/-! ## Products and arrows -/

theorem endsApplied_star (rest : List Lexeme) : EndsApplied (.symbol "*" :: rest) := by
  simp [EndsApplied, symbol]

theorem Spine.consumes_productType {type : Ty}
    (h : Spine operators nested words [type]) (hrest : EndsProduct rest) :
    Consumes operators (productType nested) words rest type.ExpressedBy := by
  have hlist : Consumes operators (separatedByWord "*" (appliedType nested))
      (listed (.symbol "*") (fun _ : Ty => words) [type]) rest
      (List.Forall₂ Ty.ExpressedBy [type]) := by
    refine consumes_separatedByWord ?_ (by simp) endsApplied_star hrest.1 rfl hrest.2
    intro entry hentry rest hrest
    rw [mem_singleton.mp hentry]
    exact h.consumes_appliedType hrest
  simp only [listed, flatMap_nil, append_nil] at hlist
  refine hlist.last fun exprs hexprs => ?_
  obtain ⟨expr, _, hexpr, hnil, rfl⟩ := forall₂_cons_left_iff.mp hexprs
  obtain rfl := forall₂_nil_left_iff.mp hnil
  exact .pure hexpr

theorem consumes_productType (hlength : 2 ≤ elements.length)
    (h : ∀ element ∈ elements, Spine operators nested (spelled element) [element])
    (hrest : EndsProduct rest) :
    Consumes operators (productType nested) (listed (.symbol "*") spelled elements) rest
      fun expr => ∃ exprs span, expr = .tuple exprs span ∧
        List.Forall₂ Ty.ExpressedBy elements exprs := by
  have hnil : elements ≠ [] := by
    rintro rfl
    cases hlength
  have hlist : Consumes operators (separatedByWord "*" (appliedType nested))
      (listed (.symbol "*") spelled elements) rest
      (List.Forall₂ Ty.ExpressedBy elements) :=
    consumes_separatedByWord
      (fun element helement rest hrest => (h element helement).consumes_appliedType hrest)
      hnil endsApplied_star hrest.1 rfl hrest.2
  refine hlist.last fun exprs hexprs => ?_
  have hsame := hexprs.length_eq
  obtain ⟨first, exprs, rfl⟩ := exists_cons_of_length_pos (l := exprs) (by omega)
  obtain ⟨second, exprs, rfl⟩ := exists_cons_of_length_pos (l := exprs)
    (by simp only [length_cons] at hsame; omega)
  exact (consumes_spanFrom _).look fun span _ => .pure ⟨_, span, rfl, hexprs⟩

theorem consumes_type_product {Q : TypeExpr → Prop}
    (h : Consumes operators (productType nested) words rest Q)
    (hrest : EndsType rest) : Consumes operators (type nested) words rest Q :=
  h.last fun _ hexpr => (consumes_eatWord_ne hrest.2).lookNo (.pure hexpr)

theorem consumes_type_arrow {others : List Lexeme}
    (hparameter : Consumes operators (productType nested) words
      (.symbol "->" :: (others ++ rest)) parameter.ExpressedBy)
    (hresult : Consumes operators nested.type others rest result.ExpressedBy) :
    Consumes operators (type nested) (words ++ .symbol "->" :: others) rest
      (Ty.arrow parameter result).ExpressedBy := by
  refine hparameter.bind fun first hfirst => ?_
  refine (consumes_eatWord rfl).firstYes ?_
  exact hresult.last fun second hsecond => .pure (.arrow _ hfirst hsecond)

/-! ## Types in their places -/

/-- In its place the type is read from these words, when others may nest as
deep as there are words. -/
def ReadsIn (operators : OperatorTable) (type : Ty) (words : List Lexeme) : Ty.Place → Prop
  | .argument => ∀ depth, words.length ≤ depth + 1 →
      Spine operators (phrases depth) words [type]
  | .parameter => ∀ depth, words.length ≤ depth + 1 → ∀ rest, EndsProduct rest →
      Consumes operators (productType (phrases depth)) words rest type.ExpressedBy
  | .loose => ∀ depth, words.length ≤ depth + 1 → ∀ rest, EndsType rest →
      Consumes operators (Reading.type (phrases depth)) words rest type.ExpressedBy

namespace ReadsIn

variable {type : Ty}

theorem of_parameter (h : ReadsIn operators type words .parameter) :
    ReadsIn operators type words .loose :=
  fun depth hdepth rest hrest => consumes_type_product (h depth hdepth rest hrest.1) hrest

theorem of_argument (h : ReadsIn operators type words .argument)
    (place : Ty.Place) : ReadsIn operators type words place := by
  have hparameter : ReadsIn operators type words .parameter :=
    fun depth hdepth rest hrest => (h depth hdepth).consumes_productType hrest
  cases place with
  | argument => exact h
  | parameter => exact hparameter
  | loose => exact hparameter.of_parameter

theorem inside (h : ReadsIn operators type words .loose) (hnil : words ≠ [])
    {depth : Nat} (hdepth : words.length ≤ depth) (hrest : EndsType rest) :
    Consumes operators (phrases depth).type words rest type.ExpressedBy := by
  have hpos := length_pos_iff.mpr hnil
  obtain ⟨depth, rfl⟩ := Nat.exists_eq_succ_of_ne_zero (by omega : depth ≠ 0)
  exact h depth hdepth rest hrest

theorem parens (h : ReadsIn operators type words .loose) (hnil : words ≠ []) :
    ReadsIn operators type (.leftParen :: words ++ [.rightParen]) .argument := by
  intro depth hdepth
  refine .atomic fun rest => ?_
  have hlisted : listed .comma (fun _ : Ty => words) [type] = words := by
    simp [listed]
  rw [← hlisted]
  refine consumes_atomicType_parens (by simp) fun entry hentry rest hrest => ?_
  rw [mem_singleton.mp hentry]
  refine h.inside hnil ?_ hrest
  simp only [cons_append, length_cons, length_append] at hdepth
  omega

end ReadsIn

/-- In every place the type is written in words from which it is read. -/
def Legible (operators : OperatorTable) (type : Ty) : Prop :=
  ∀ place, ∃ words, words ≠ [] ∧ Wording (type.textIn place) words ∧
    ReadsIn operators type words place

theorem legible_var {name : String} (domain : List Ty) (free : Bool)
    (h : isVariable name = true) : Legible operators (.var name domain free) := by
  intro place
  refine ⟨[.typeVariable name], by simp, ?_, .of_argument (fun depth _ => ?_) place⟩
  · exact .typeVariable h
  · exact .atomic fun rest => consumes_atomicType_var name domain free

theorem legible_arrow (hparameter : Legible operators parameter)
    (hresult : Legible operators result) : Legible operators (.arrow parameter result) := by
  obtain ⟨words, hwords, htext, hread⟩ := hparameter .parameter
  obtain ⟨others, hothers, hmore, hrest⟩ := hresult .loose
  have hnil : words ++ .symbol "->" :: others ≠ [] := by simp
  have hloose : ReadsIn operators (.arrow parameter result)
      (words ++ .symbol "->" :: others) .loose := by
    intro depth hdepth rest hends
    simp only [length_append, length_cons] at hdepth
    refine consumes_type_arrow (hread depth (by omega) _ ?_) (hrest.inside hothers ?_ hends)
    · simp [EndsProduct, EndsApplied, symbol, name?]
    · have hpos := length_pos_iff.mpr hwords
      omega
  have hargument := hloose.parens hnil
  have htext := htext.join separator_arrow hmore
  intro place
  cases place with
  | loose => exact ⟨_, hnil, htext, hloose⟩
  | parameter => exact ⟨_, by simp, htext.parens, .of_argument hargument _⟩
  | argument => exact ⟨_, by simp, htext.parens, hargument⟩

theorem legible_con {arguments : List Ty}
    (hparts : ∀ part ∈ head.path ++ [head.name], isAlphanumeric part = true)
    (hreserved : isReserved head.fullName = false)
    (h : ∀ argument ∈ arguments, Legible operators argument) :
    Legible operators (.con head arguments) := by
  have hname : Wording head.fullName [.identifier head.fullName] := .qualified (by simp) hparts
  intro place
  cases arguments with
  | nil =>
    refine ⟨_, by simp, hname, .of_argument (fun depth _ => ?_) place⟩
    refine .atomic fun rest => (consumes_atomicType_con hparts hreserved).mono ?_
    rintro _ ⟨span, rfl⟩
    exact .cons (.con span .nil) .nil
  | cons first others =>
    cases others with
    | nil =>
      obtain ⟨words, hnil, htext, hread⟩ := h first (by simp) .argument
      refine ⟨_, by simp, htext.space hname, .of_argument ?_ place⟩
      intro depth hdepth
      simp only [length_append] at hdepth
      exact .apply (hread depth (by omega)) hparts hreserved
    | cons second others =>
      choose! words hnil htext hread using fun argument hargument => h argument hargument .loose
      have hlist := (Wording.listed separator_comma (by simp) htext).parens.space hname
      rw [← textIn_con_many head first second others place] at hlist
      refine ⟨_, by simp, hlist, .of_argument ?_ place⟩
      intro depth hdepth
      refine .apply (.atomic fun rest => ?_) hparts hreserved
      refine consumes_atomicType_parens (by simp) fun argument hargument rest hrest => ?_
      refine (hread argument hargument).inside (hnil argument hargument) ?_ hrest
      have hle := length_le_listed .comma words hargument
      simp only [length_append, length_cons] at hdepth
      omega

theorem legible_unit : Legible operators (.record [] true) := by
  intro place
  have hunit : ∀ part ∈ [] ++ ["unit"], isAlphanumeric part = true := by decide
  refine ⟨[.identifier "unit"], by simp, .qualified (by simp) hunit,
    .of_argument (fun depth _ => .atomic fun rest => ?_) place⟩
  have hread := @consumes_atomicType_con { name := "unit" } operators (phrases depth)
    rest hunit (by decide)
  refine hread.mono ?_
  rintro _ ⟨span, rfl⟩
  exact .cons (.unit span) .nil

theorem legible_product (hlength : 2 ≤ elements.length)
    (h : ∀ element ∈ elements, Legible operators element) :
    Legible operators (.record (ofList (Ty.numbered 1 elements)) true) := by
  have helements := (tupleElements?_eq_some (ordered_ofList (Ty.numbered 1 elements))).mpr
      ⟨hlength, rfl⟩
  have hnil : elements ≠ [] := by
    rintro rfl
    cases hlength
  choose! words hwords htext hread using fun element helement => h element helement .argument
  have hlist := Wording.listed separator_star hnil htext
  have hlisted : listed (.symbol "*") words elements ≠ [] := by
    obtain ⟨first, others, rfl⟩ := exists_cons_of_ne_nil hnil
    simp [listed, hwords first (by simp)]
  have hparameter : ReadsIn operators (.record (ofList (Ty.numbered 1 elements)) true)
      (listed (.symbol "*") words elements) .parameter := by
    intro depth hdepth rest hrest
    refine (consumes_productType hlength (fun element helement => ?_) hrest).mono ?_
    · have hle := length_le_listed (.symbol "*") words helement
      exact hread element helement depth (by omega)
    · rintro _ ⟨exprs, span, rfl, hexprs⟩
      exact .product span hlength hexprs
  intro place
  rw [textIn_product helements]
  cases place with
  | loose => exact ⟨_, hlisted, hlist, hparameter.of_parameter⟩
  | parameter => exact ⟨_, hlisted, hlist, hparameter⟩
  | argument => exact ⟨_, by simp, hlist.parens, hparameter.of_parameter.parens hlisted⟩

theorem forall₂_fields {α β : Type} {R : α → β → Prop}
    {fields : List (String × α)} {exprs : List (String × β)}
    (h : List.Forall₂ (fun field expr => expr.1 = field.1 ∧ R field.2 expr.2) fields exprs) :
    keys exprs = keys fields ∧
      List.Forall₂ R (values fields) (values exprs) := by
  induction h with
  | nil => exact ⟨rfl, .nil⟩
  | cons hfirst _ ih => exact ⟨by simp [hfirst.1, ih.1], .cons hfirst.2 ih.2⟩

theorem legible_braces (hnil : fields ≠ []) (hproduct : Ty.tupleElements? fields true = none)
    (hordered : Ordered fields) (hlabels : ∀ field ∈ fields, isLabel field.1 = true)
    (h : ∀ field ∈ fields, Legible operators field.2) :
    Legible operators (.record fields true) := by
  choose! words hwords htext hread using fun field hfield => h field hfield .loose
  have hfields := fun field hfield =>
    (Wording.label (hlabels field hfield)).join separator_colon (htext field hfield)
  have hlist := (Wording.listed separator_comma hnil hfields).braces
  intro place
  rw [textIn_record hnil hproduct]
  refine ⟨_, by simp, hlist, .of_argument (fun depth hdepth => ?_) place⟩
  refine .atomic fun rest => ?_
  have hbraces : Consumes operators (atomicType (phrases depth)) _ rest _ :=
    consumes_atomicType_record hnil hlabels fun field hfield rest hrest => by
      refine (hread field hfield).inside (hwords field hfield) ?_ hrest
      have hle := length_le_listed .comma
        (fun field => [.label field.1] ++ .symbol ":" :: words field) hfield
      simp only [length_append, length_cons] at hdepth hle
      omega
  refine hbraces.mono ?_
  rintro _ ⟨exprs, span, rfl, hexprs⟩
  obtain ⟨hkeys, hvalues⟩ := forall₂_fields hexprs
  refine .cons (.record span hnil ?_ hkeys hvalues) .nil
  rintro elements hlength rfl
  rw [(tupleElements?_eq_some hordered).mpr ⟨hlength, rfl⟩] at hproduct
  cases hproduct

theorem legible_record (hordered : Ordered fields)
    (hlabels : ∀ field ∈ fields, isLabel field.1 = true)
    (h : ∀ field ∈ fields, Legible operators field.2) :
    Legible operators (.record fields true) := by
  by_cases hnil : fields = []
  · subst hnil
    exact legible_unit
  · cases hproduct : Ty.tupleElements? fields true with
    | none => exact legible_braces hnil hproduct hordered hlabels h
    | some elements =>
      obtain ⟨hlength, rfl⟩ := (tupleElements?_eq_some hordered).mp hproduct
      refine legible_product hlength fun element helement => ?_
      obtain ⟨entry, hentry, rfl⟩ := exists_mem_numbered 1 helement
      exact h entry ((mem_ofList (nodup_numbered elements 1)).mpr hentry)

theorem legible_tuple (h : ∀ element ∈ elements, Legible operators element) :
    Legible operators (.tuple elements) := by
  have hrecord : Legible operators (.record (ofList (Ty.numbered 1 elements)) true) := by
    refine legible_record (ordered_ofList _) ?_ ?_
    · exact fun field hfield => isLabel_of_mem_numbered Nat.one_pos (mem_of_mem_ofList hfield)
    · exact fun field hfield => h field.2 (mem_of_mem_numbered (mem_of_mem_ofList hfield))
  intro place
  obtain ⟨words, hnil, htext, hread⟩ := hrecord place
  rw [← textIn_tuple] at htext
  refine ⟨words, hnil, htext, ?_⟩
  cases place with
  | loose | parameter =>
    exact fun depth hdepth rest hrest => (hread depth hdepth rest hrest).mono fun _ => .tuple
  | argument =>
    intro depth hdepth
    cases hread depth hdepth with
    | atomic h =>
      refine .atomic fun rest => (h rest).mono fun exprs hexprs => ?_
      obtain ⟨expr, _, hexpr, hnil, rfl⟩ := forall₂_cons_left_iff.mp hexprs
      exact .cons (.tuple hexpr) (by rwa [forall₂_nil_left_iff] at hnil ⊢)

theorem legible_of_writable {type : Ty} (h : type.Writable) : Legible operators type := by
  induction h with
  | var domain free h => exact legible_var domain free h
  | arrow _ _ hparameter hresult => exact legible_arrow hparameter hresult
  | con hparts hreserved _ harguments => exact legible_con hparts hreserved harguments
  | record hordered hlabels _ hfields => exact legible_record hordered hlabels hfields
  | tuple _ helements => exact legible_tuple helements

theorem faces_start {tokens : List Token} (operators : OperatorTable) :
    (start tokens operators).Faces operators (tokens.map Token.lexeme) :=
  ⟨by simp [start], rfl, Nat.zero_le _⟩

/-- The text of a type is scanned without failure, all of its tokens are read
as one type expression, and that expression has the structure of the type. -/
theorem read_type_text {type : Ty} (h : type.Writable) (operators : OperatorTable) :
    ∃ tokens expr cursor, tokenize type.text = .ok tokens ∧
      read (·.type) (start tokens operators) = .ok expr cursor ∧
      cursor.index = tokens.length ∧ type.ExpressedBy expr := by
  obtain ⟨words, hnil, htext, hread⟩ := @legible_of_writable operators _ h .loose
  obtain ⟨tokens, htokens, hwords⟩ := (htext.spells [] Wording.delimited_nil).tokenize_eq
  have hfaces : (start tokens operators).Faces operators (words ++ []) := by
    rw [append_nil, ← hwords]
    exact faces_start operators
  have hdepth : words.length ≤ tokens.length + 1 := by
    rw [← hwords, length_map]
    omega
  obtain ⟨expr, cursor, hok, hend, hsame, hexpr⟩ :=
    hread tokens.length hdepth [] endsType_nil _ hfaces
  refine ⟨tokens, expr, cursor, htokens, hok, ?_, hexpr⟩
  rw [hend.at_end, hsame]
  simp [start]

def nestedType : Ty := .arrow (.tuple [.con { name := "list" } [.arrow (.var "'a" [] false) .unit],
      .record [("1", .int), ("b", .tuple [.int, .int])] true])
    (.arrow (.con { name := "t", path := ["M", "N"] }
      [.var "''b_1" [] true, .con { name := "list" } [.con { name := "list" } [.int]]])
      .unit)

example : nestedType.text = "('a -> unit) list * \x7b1: int, b: int * int\x7d -> " ++
      "(''b_1, int list list) M.N.t -> unit" := by
  decide

theorem read_type_text_nested : nestedType.Writable ∧
      ∃ tokens expr cursor, tokenize nestedType.text = .ok tokens ∧
        read (·.type) (start tokens []) = .ok expr cursor ∧
        cursor.index = tokens.length ∧ nestedType.ExpressedBy expr := by
  have hint : Ty.int.Writable := .con (by decide) (by decide) (by simp)
  have hunit : Ty.unit.Writable := .record (by decide) (by simp) (by simp)
  have hlist : ∀ type : Ty, type.Writable → (Ty.con { name := "list" } [type]).Writable :=
    fun type htype => .con (by decide) (by decide) (by simpa)
  have h : nestedType.Writable := by
    refine .arrow (.tuple ?_) (.arrow (.con (by decide) (by decide) ?_) hunit)
    · simp only [forall_mem_cons]
      refine ⟨hlist _ (.arrow (.var _ _ (by decide)) hunit), ?_, by simp⟩
      refine .record (by decide) (by decide) ?_
      simp only [forall_mem_cons]
      exact ⟨hint, .tuple (by simpa using hint), by simp⟩
    · simp only [forall_mem_cons]
      exact ⟨.var _ _ (by decide), hlist _ (hlist _ hint), by simp⟩
  exact ⟨h, read_type_text h []⟩

end Reading

end Sml
