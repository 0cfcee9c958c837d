import Sml.Elaboration.TypeExpr

/-!
# Patterns

The type of a pattern and the variables it binds, in order of appearance.
-/

namespace Sml.Elab

abbrev Bound := List (String × Ty)

def bindVariable (bound : Bound) (name : String) (type : Ty) (span : Span) :
    Elab Bound :=
  if bound.any fun entry => entry.1 == name then
    invalid span (.variableTwice name)
  else return bound ++ [(name, type)]

mutual

def patternFrom (scope : Scope) : Pat → Bound → Elab (Ty × Bound)
  | .wildcard _, bound => do return (← fresh, bound)
  | .const value span, bound =>
    match value with
    | .int _ => return (.int, bound)
    | .string _ => return (.string, bound)
    | .char _ => return (.char, bound)
    | .real _ => invalid span .realPattern
  | .name long span, bound => do
    match (← value? scope long).filter (·.status.isConstructor) with
    | some value =>
      match ← instantiateScheme value.type with
      | .arrow _ _ => invalid span (.argumentMissing long)
      | type => return (type, bound)
    | none =>
      if long.isSimple then
        let type ← fresh
        return (type, ← bindVariable bound long.name type span)
      else unbound span .constructor long.text
  | .record fields complete span, bound => do
    let (fields, bound) ← patternFields scope span fields [] bound
    if complete then return (.record fields true, bound)
    else return (← freshRecord fields span, bound)
  | .tuple elements _, bound => do
    let (types, bound) ← patternList scope elements bound
    return (if types.isEmpty then .unit else .tuple types, bound)
  | .list elements _, bound => do
    let element ← fresh
    let bound ← patternElements scope element elements bound
    return (.list element, bound)
  | .con long argument span, bound => do
    match ← value? scope long with
    | none => unbound span .constructor long.text
    | some value =>
      if value.status.isConstructor then
        let type ← instantiateScheme value.type
        let (argument, bound) ← patternFrom scope argument bound
        let result ← fresh
        let _ ← unify scope type (.arrow argument result) span
          (.constructorArgument long)
        return (result, bound)
      else invalid span (.notConstructor long)
  | .typed pattern annotation span, bound => do
    let (inner, bound) ← patternFrom scope pattern bound
    let annotation ← type scope .explicit annotation
    return (← unify scope inner annotation span .typedPattern, bound)
  | .layered name annotation pattern span, bound => do
    if (← value? scope (.simple name)).any (·.status.isConstructor) then
      failAt span (.rebind name)
    else
      let (inner, bound) ← patternFrom scope pattern bound
      let inner ← match annotation with
        | some annotation => do
          let annotation ← type scope .explicit annotation
          unify scope inner annotation span .typedPattern
        | none => pure inner
      return (inner, ← bindVariable bound name inner span)

def patternList (scope : Scope) : List Pat → Bound → Elab (List Ty × Bound)
  | [], bound => return ([], bound)
  | pattern :: rest, bound => do
    let (type, bound) ← patternFrom scope pattern bound
    let (types, bound) ← patternList scope rest bound
    return (type :: types, bound)

def patternElements (scope : Scope) (element : Ty) :
    List Pat → Bound → Elab Bound
  | [], bound => return bound
  | pattern :: rest, bound => do
    let (type, bound) ← patternFrom scope pattern bound
    let _ ← unify scope element type pattern.span .listElements
    patternElements scope element rest bound

def patternFields (scope : Scope) (span : Span) :
    List (String × Pat) → Table Ty → Bound → Elab (Table Ty × Bound)
  | [], fields, bound => return (fields, bound)
  | (label, pattern) :: rest, fields, bound => do
    let (type, bound) ← patternFrom scope pattern bound
    if Table.contains fields label then
      invalid span (.labelTwice label .pattern)
    else patternFields scope span rest (Table.insert fields label type) bound

end

def pattern (scope : Scope) (pattern : Pat) : Elab (Ty × Bound) :=
  patternFrom scope pattern []

end Sml.Elab
