import Sml.Elaboration.Monad

/-!
# Types as written

The type that a type expression stands for.  Abbreviations are unfolded on
the spot.
-/

namespace Sml

/-- Where the variables of a type expression come from. -/
inductive VariableMode where
  /-- Only these may occur. -/
  | parameters (names : List String)
  /-- The explicit type variables in scope. -/
  | explicit
  /-- Any, taken as written. -/
  | verbatim

namespace Elab

def applyAbbreviation (abbreviation : Abbreviation) (arguments : List Ty) : Ty :=
  let types := (abbreviation.parameters.zip arguments).filterMap
    fun (parameter, argument) =>
      match parameter with
      | .var name _ _ => some (name, argument)
      | _ => none
  abbreviation.body.substitute (Table.ofList types)

def applyType (info : TypeInfo) (arguments : List Ty) : Ty :=
  match info.abbreviation? with
  | some abbreviation => applyAbbreviation abbreviation arguments
  | none =>
    match info.type with
    | .con head _ => .con head arguments
    | other => other

section TypeOf

variable (types : LongName → Option TypeInfo)
variable (meaning : String → Option String)

mutual

def typeOf : TypeExpr → Except ElabError Ty
  | .var name span =>
    match meaning name with
    | some name => .ok (.plain name)
    | none => .error { cause := .unguarded name, span }
  | .record fields span => do
    return .record (← typeOfFields span fields []) true
  | .tuple elements _ => do
    return .tuple (← typeOfList elements)
  | .arrow parameter result _ => do
    let parameter ← typeOf parameter
    let result ← typeOf result
    return .arrow parameter result
  | .con name arguments span => do
    let arguments ← typeOfList arguments
    match types name with
    | none => .error { cause := .unbound .type name.text, span }
    | some info =>
      if info.arity = arguments.length then return applyType info arguments
      else
        .error
          { cause := .type (.arity name.text info.arity arguments.length)
            span }

def typeOfList : List TypeExpr → Except ElabError (List Ty)
  | [] => .ok []
  | type :: rest => do
    let type ← typeOf type
    let rest ← typeOfList rest
    return type :: rest

def typeOfFields (span : Span) : List (String × TypeExpr) → Table Ty →
    Except ElabError (Table Ty)
  | [], fields => .ok fields
  | (label, type) :: rest, fields => do
    let type ← typeOf type
    if Table.contains fields label then
      .error { cause := .invalid (.labelTwice label .type), span }
    else typeOfFields span rest (Table.insert fields label type)

end

end TypeOf

def type (scope : Scope) (mode : VariableMode) (type : TypeExpr) : Elab Ty := do
  let state ← get
  let meaning (name : String) : Option String :=
    match mode with
    | .parameters names => if names.contains name then some name else none
    | .explicit => findExplicit? state.explicit name
    | .verbatim => some name
  match typeOf (fun name => state.tree.staticType? scope name.path name.name)
      meaning type with
  | .ok type => return type
  | .error error => throw error

end Elab

end Sml
