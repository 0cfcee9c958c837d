import Sml.Scope.Tree

/-!
# What every program starts with

The root frame with the basic types, the constructors of `bool`, `list` and
`ref`, the basic exceptions, the primitive functions and the standard
operators.
-/

namespace Sml.Initial

private def forAll (name : String) (domain : List Ty) (body : Ty) : Ty :=
  .bind name domain false body

private def alpha : Ty := .plain "'a"

private def pair (left right : Ty) : Ty := .tuple [left, right]

/-! ## Types -/

/-- Name, parameters, whether values can be compared, and constructors. -/
def types : List (String × List String × Bool × List String) :=
  [ ("int", [], true, []),
    ("real", [], false, []),
    ("string", [], true, []),
    ("char", [], true, []),
    ("bool", [], true, ["false", "true"]),
    ("list", ["'a"], true, ["nil", "::"]),
    ("ref", ["'a"], true, ["ref"]),
    ("exn", [], false, []) ]

private def addType (tree : ScopeTree) (name : String) (constructors : List String)
    (info : Nat → TypeInfo) : ScopeTree :=
  let (id, tree) := tree.newTypeId name
  tree.write .root fun frame =>
    (frame.setStaticType name (info id)).setDynamicType name { constructors }

private def addTypes (tree : ScopeTree) : ScopeTree :=
  let tree := types.foldl
    (fun tree (name, parameters, equality, constructors) =>
      addType tree name constructors fun id =>
        { type := .con { name, id } (parameters.map .plain)
          constructors
          arity := parameters.length
          equality })
    tree
  addType tree "unit" [] fun id => .ofAbbreviation ⟨{ name := "unit", id }, [], .unit⟩

/-! ## Values -/

private def define (status : IdStatus) (tree : ScopeTree) (name : String)
    (type : Ty) (value : Value) : ScopeTree :=
  tree.write .root fun frame =>
    (frame.setStaticValue name { type, status }).setDynamicValue name
      { value, status }

def constructors : List (String × Ty × Value) :=
  [ ("false", .bool, .bool false),
    ("true", .bool, .bool true),
    ("nil", forAll "'a" [] (.list alpha), .nil),
    ("::", forAll "'a" [] (.arrow (pair alpha (.list alpha)) (.list alpha)),
      .constructor "::"),
    ("ref", forAll "'a" [] (.arrow alpha (.ref alpha)), .makeRef) ]

private def addConstructors (tree : ScopeTree) : ScopeTree :=
  constructors.foldl
    (fun tree (name, type, value) => define .constructor tree name type value)
    tree

private def addExceptions (tree : ScopeTree) : ScopeTree :=
  BasicExn.all.foldl
    (fun tree exn =>
      let (id, tree) := tree.newExceptionId
      match exn with
      | .fail =>
        define .exception tree exn.name (.arrow .string .exn)
          (.exnConstructor exn.name id)
      | _ => define .exception tree exn.name .exn (.exn exn.name id none))
    tree

/-- The types of the primitive functions.  Arithmetic is for `int` and
`real`, and for `int` where nothing tells which. -/
def primitives : List (Primitive × Ty) :=
  let numbers := [Ty.int, .real]
  let ordered := [Ty.int, .real, .string, .char]
  let binary := forAll "'a" numbers (.arrow (pair alpha alpha) alpha)
  let unary := forAll "'a" numbers (.arrow alpha alpha)
  let comparison := forAll "'a" ordered (.arrow (pair alpha alpha) .bool)
  let equality := forAll "''a" []
    (.arrow (pair (.plain "''a") (.plain "''a")) .bool)
  let integral := Ty.arrow (pair .int .int) .int
  [ (.add, binary),
    (.subtract, binary),
    (.multiply, binary),
    (.divide, .arrow (pair .real .real) .real),
    (.div, integral),
    (.mod, integral),
    (.negate, unary),
    (.abs, unary),
    (.less, comparison),
    (.greater, comparison),
    (.lessEqual, comparison),
    (.greaterEqual, comparison),
    (.equal, equality),
    (.notEqual, equality),
    (.concat, .arrow (pair .string .string) .string),
    (.size, .arrow .string .int),
    (.print, .arrow .string .unit),
    (.dereference, forAll "'a" [] (.arrow (.ref alpha) alpha)),
    (.assign, forAll "'a" [] (.arrow (pair (.ref alpha) alpha) .unit)),
    (.toReal, .arrow .int .real),
    (.floor, .arrow .real .int),
    (.ceil, .arrow .real .int),
    (.round, .arrow .real .int),
    (.trunc, .arrow .real .int),
    (.chr, .arrow .int .char),
    (.ord, .arrow .char .int),
    (.str, .arrow .char .string),
    (.explode, .arrow .string (.list .char)),
    (.implode, .arrow (.list .char) .string),
    (.intToString, .arrow .int .string),
    (.realToString, .arrow .real .string) ]

private def addPrimitives (tree : ScopeTree) : ScopeTree :=
  primitives.foldl
    (fun tree (primitive, type) =>
      define .value tree primitive.name type (.primitive primitive))
    tree

def tree : ScopeTree :=
  let tree := addPrimitives (addExceptions (addConstructors (addTypes {})))
  tree.write .root fun frame => { frame with fixity := OperatorTable.standard }

end Sml.Initial
