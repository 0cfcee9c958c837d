import Sml.Reading.Word

/-!
# Nested phrases

The readers of types, patterns, expressions, declarations, structures and
signatures call each other.  Each is written against the readers of the
phrases nested inside it, so that none of them refers to itself.
-/

namespace Sml

/-- Readers of the phrases that may be nested in a phrase. -/
structure Phrases where
  type : Reader TypeExpr
  pattern : Reader Pat
  expr : Reader Expr
  decl : Reader Decl
  strExp : Reader StrExp
  sigExp : Reader SigExp

namespace Phrases

def none : Phrases :=
  let stop {α : Type} : Reader α := throw ⟨.nesting, [], .none, .none, 0⟩
  ⟨stop, stop, stop, stop, stop, stop⟩

end Phrases

end Sml
