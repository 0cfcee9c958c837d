import Sml.Elaboration.Decl

/-!
# Elaboration of programs

Top-level declarations are finished one at a time: records have to be known
completely, overloading that is left open takes the first type of its domain,
and only what is known about free variables is kept.
-/

namespace Sml

mutual

def elabExpr : (height : Nat) → Scope → Expr → Elab Ty
  | 0, _, expr => Elab.failAt expr.span .tooDeep
  | height + 1, scope, expr =>
    Elab.exprRule ⟨elabExpr height, elabDecl height, elabStr height⟩ scope expr

def elabDecl : (height : Nat) → Scope → Decl → Elab Scope
  | 0, _, declaration => Elab.failAt declaration.span .tooDeep
  | height + 1, scope, declaration =>
    Elab.declRule ⟨elabExpr height, elabDecl height, elabStr height⟩ scope
      declaration

def elabStr : (height : Nat) → Scope → StrExp → Elab StaticBasis
  | 0, _, body => Elab.failAt body.span .tooDeep
  | height + 1, scope, body =>
    Elab.structureRule ⟨elabExpr height, elabDecl height, elabStr height⟩ scope
      body

end

def elabComplete (scope : Scope) (declaration : Decl) : Elab Scope := do
  let inner ← elabDecl declaration.height scope declaration
  Elab.checkFlexible inner
  return inner

def Elab.settle (scope inner : Scope) (changes : Changes) : Elab Scope := do
  let statics ← resolveBasis inner Ty.defaultDomains changes.statics
  let result ← withChanges scope { changes with statics }
  modify fun state => { state with store := state.store.freeOnly }
  let state ← get
  write result fun frame =>
    { frame with context := some (state.store, state.supply) }
  return result

/-- Elaborates a declaration at top level.  Gives the scope with what it
declares in one frame. -/
def elabTopLevel (scope : Scope) (declaration : Decl) : Elab Scope := do
  modify fun state => { state with level := 0 }
  let group ← Elab.nested scope
  let inner ← elabComplete group declaration
  let changes ← Elab.look fun tree => tree.changesSince inner (tree.level group)
  Elab.settle scope inner changes

def elabProgram (scope : Scope) (program : Program) : Elab Scope :=
  program.declarations.foldlM elabTopLevel scope

def ElabState.start (tree : ScopeTree) (scope : Scope) (strict : Bool) :
    ElabState :=
  let (store, supply) := tree.context scope
  { tree, store, supply, strict }

end Sml
