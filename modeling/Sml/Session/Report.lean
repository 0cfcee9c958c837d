import Sml.Session.Interpret

/-!
# What an input changed, in words
-/

namespace Sml

private def typeLine (name : String) (info : TypeInfo) : String :=
  let keyword :=
    if info.isAbbreviation then "type"
    else if !info.constructors.isEmpty then "datatype"
    else if info.equality then "eqtype"
    else "type"
  keyword ++ " " ++ name

private def valueLine (tree : ScopeTree) (dynamics : DynamicBasis)
    (name : String) (value : StaticValue) : Option String :=
  let type := value.type.pretty
  if value.status.isConstructor then some ("con " ++ name ++ " : " ++ type)
  else
    match Table.get? dynamics.values name with
    | some dynamic =>
      (dynamic.value.text? tree.memory).map fun text =>
        "val " ++ name ++ " = " ++ text ++ " : " ++ type
    | none => some ("val " ++ name ++ " : " ++ type)

/-- One line for each name that the scope `after` declares on top of
`before`, by kinds and then by names.  There is no answer if a value has no
text. -/
def describeChanges (tree : ScopeTree) (before after : Scope) :
    Option (List String) :=
  let limit := tree.level before + 1
  if tree.level after < limit then some []
  else do
    let changes := tree.changesSince after limit
    let statics := changes.statics
    let types := statics.types.map fun (name, info) => typeLine name info
    let values ← statics.values.mapM fun (name, value) =>
      valueLine tree changes.dynamics name value
    let untyped ← (changes.dynamics.values.filter fun (name, _) =>
        !Table.contains statics.values name).mapM fun (name, value) =>
      (value.value.text? tree.memory).map fun text =>
        "val " ++ name ++ " = " ++ text
    return types ++ values ++ untyped ++
      (Table.keys statics.structures).map ("structure " ++ ·) ++
      (Table.keys statics.signatures).map ("signature " ++ ·) ++
      (Table.keys statics.functors).map ("functor " ++ ·)

end Sml
