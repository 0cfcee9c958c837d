import Sml.Static.TyText

/-!
# Why types do not go together
-/

namespace Sml

inductive Disagreement where
  | domains
  | noEquality
  | outsideDomain
  | notRecord
  | notFunction
  | members
  | heads
deriving DecidableEq, Repr

def Disagreement.text : Disagreement → String
  | .domains => "Type variable domains do not agree"
  | .noEquality => "Type does not admit equality"
  | .outsideDomain => "Type is not in the domain of the type variable"
  | .notRecord => "Cannot merge a record with"
  | .notFunction => "Cannot merge a function with"
  | .members => "Records don't agree on members"
  | .heads => "Cannot merge"

structure Mismatch where
  reason : Disagreement
  left : Ty
  right : Ty

/-- Both types are written with one choice of variable names. -/
def Mismatch.message (mismatch : Mismatch) : String :=
  let pair := Ty.tuple [mismatch.left, mismatch.right]
  let names := Ty.shownNames (Table.contains (pair.variableDomains true))
    pair.variableNames 0
  mismatch.reason.text ++ ": " ++ (mismatch.left.rename names).text ++
    " and " ++ (mismatch.right.rename names).text

inductive TypeFault where
  /-- A variable would have to contain itself. -/
  | circular (name : String) (type : Ty)
  | arity (name : String) (expected found : Nat)
  /-- An abbreviation does not fit the arguments it is given. -/
  | expansion (name : String) (mismatch : Mismatch)
  /-- More unfolding than types ever need. -/
  | endless

namespace TypeFault

def message : TypeFault → String
  | .circular name type =>
    "type clash, " ++ name ++ " occurs in " ++ type.text ++
      " because of circularity"
  | .arity name expected found =>
    "arity mismatch for " ++ name ++ ": expected " ++ toString expected ++
      " arguments, found " ++ toString found
  | .expansion name mismatch =>
    "cannot expand type " ++ name ++ ": " ++ mismatch.message
  | .endless => "type is not well-founded"

end TypeFault

/-- Why two types cannot be merged.  A mismatch leaves room for another
attempt, a fault does not. -/
inductive MergeFault where
  | mismatch (mismatch : Mismatch)
  | fault (fault : TypeFault)

end Sml
