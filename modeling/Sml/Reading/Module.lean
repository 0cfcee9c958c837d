import Sml.Reading.Decl

/-!
# Reading structures, signatures and functors
-/

namespace Sml.Reading

open Reader

/-! ## Ascription -/

def ascription? (nested : Phrases) : Reader (Option (Bool × SigExp)) := do
  if ← eatWord ":" then return some (false, ← nested.sigExp)
  else if ← eatWord ":>" then return some (true, ← nested.sigExp)
  else return none

/-- The span runs from whichever was written first. -/
def ascribe (body : StrExp) : Option (Bool × SigExp) → StrExp
  | none => body
  | some (hides, signature) =>
    let span :=
      if signature.span.start.lt body.span.start then
        signature.span.merge body.span
      else body.span.merge signature.span
    .ascribed hides body signature span

/-! ## Bindings -/

def strBind (nested : Phrases) : Reader (StrBind StrExp) := do
  let start ← currentSpan
  let (name, _) ← alphanumeric
  let signature ← ascription? nested
  word "="
  let body ← nested.strExp
  return ⟨name, ascribe body signature, ← spanFrom start⟩

def structureDecl (nested : Phrases) (start : Span) : Reader Decl := do
  word "structure"
  let bindings ← separatedByWord "and" (strBind nested)
  return .structures bindings (← spanFrom start)

def sigBind (nested : Phrases) : Reader SigBind := do
  let start ← currentSpan
  let (name, _) ← alphanumeric
  word "="
  let body ← nested.sigExp
  return ⟨name, body, ← spanFrom start⟩

def signatureDecl (nested : Phrases) (start : Span) : Reader Decl := do
  word "signature"
  let bindings ← separatedByWord "and" (sigBind nested)
  return .signatures bindings (← spanFrom start)

def functorBind (nested : Phrases) : Reader (FunctorBind StrExp) := do
  let start ← currentSpan
  let (name, _) ← alphanumeric
  leftParen
  let (parameterName, _) ← alphanumeric
  word ":"
  let parameter ← nested.sigExp
  rightParen
  let signature ← ascription? nested
  word "="
  let body ← nested.strExp
  return ⟨name, parameterName, parameter, ascribe body signature,
    ← spanFrom start⟩

def functorDecl (nested : Phrases) (start : Span) : Reader Decl := do
  word "functor"
  let bindings ← separatedByWord "and" (functorBind nested)
  return .functors bindings (← spanFrom start)

/-! ## Structures -/

def functorArgument (nested : Phrases) : Reader StrExp := do
  let start ← currentSpan
  leftParen
  let argument ←
    if (← atDeclaration) || (← atKind .rightParen) then do
      let declaration ← nested.decl
      pure (.body declaration (← spanFrom start))
    else nested.strExp
  rightParen
  return argument

def atomicStrExp (nested : Phrases) : Reader StrExp := do
  let start ← currentSpan
  if ← eatWord "struct" then
    let declaration ← withOperators do
      let declaration ← nested.decl
      word "end"
      return declaration
    return .body declaration (← spanFrom start)
  else if ← eatWord "let" then
    let (declaration, body) ← withOperators do
      let declaration ← nested.decl
      word "in"
      let body ← nested.strExp
      word "end"
      return (declaration, body)
    return .letIn declaration body (← spanFrom start)
  else
    let (name, span) ← longName
    if name.isSimple && (← atKind .leftParen) then
      let argument ← functorArgument nested
      return .apply name.name argument (← spanFrom start)
    else return .name name span

def strExp (nested : Phrases) : Reader StrExp := do
  let first ← atomicStrExp nested
  whileSome first fun body => do
    match ← ascription? nested with
    | some signature => return some (ascribe body (some signature))
    | none => return none

/-! ## Signatures -/

def valSpec (nested : Phrases) : Reader Spec := do
  let start ← currentSpan
  let _ ← eatWord "op"
  let (name, _) ← shortName
  word ":"
  let type ← nested.type
  return .val name type (← spanFrom start)

def typeSpec (nested : Phrases) : Reader Spec := do
  let start ← currentSpan
  let parameters ← typeVariables
  let (name, _) ← alphanumeric
  let definition ← afterWord "=" nested.type
  return .type parameters name definition false (← spanFrom start)

def eqtypeSpec : Reader Spec := do
  let start ← currentSpan
  let parameters ← typeVariables
  let (name, _) ← alphanumeric
  return .type parameters name none true (← spanFrom start)

def exnSpec (nested : Phrases) : Reader Spec := do
  let start ← currentSpan
  let _ ← eatWord "op"
  let (name, _) ← shortName
  let argument ← afterWord "of" nested.type
  return .exn name argument (← spanFrom start)

def strSpec (nested : Phrases) : Reader Spec := do
  let start ← currentSpan
  let (name, _) ← alphanumeric
  word ":"
  let signature ← nested.sigExp
  return .substructure name signature (← spanFrom start)

def specGroup? (nested : Phrases) : Reader (Option (List Spec)) := do
  skipSemicolons
  let start ← currentSpan
  if ← eatWord "val" then
    return some (← separatedByWord "and" (valSpec nested))
  else if ← eatWord "type" then
    return some (← separatedByWord "and" (typeSpec nested))
  else if ← eatWord "eqtype" then
    return some (← separatedByWord "and" eqtypeSpec)
  else if ← eatWord "datatype" then
    match ← replication? with
    | some (name, target) =>
      return some [.replicate name target (← spanFrom start)]
    | none =>
      let bindings ← separatedByWord "and" (datBind nested)
      return some [.datatypes bindings (← spanFrom start)]
  else if ← eatWord "exception" then
    return some (← separatedByWord "and" (exnSpec nested))
  else if ← eatWord "structure" then
    return some (← separatedByWord "and" (strSpec nested))
  else if ← eatWord "include" then
    let signature ← nested.sigExp
    return some [.included signature (← spanFrom start)]
  else if ← atWord "sharing" then
    failHere .sharing []
  else return none

def atRefinement : Reader Bool := do
  if ← atWord "where" then return true
  else
    let next ← view fun cursor => (cursor.peekAt? 1).bind Token.name?
    return (← atWord "and") && next == some "type"

def sigExp (nested : Phrases) : Reader SigExp := do
  let start ← currentSpan
  let first ←
    if ← eatWord "sig" then do
      let specs ← many (specGroup? nested)
      word "end"
      pure (SigExp.sig specs.flatten (← spanFrom start))
    else do
      let (name, span) ← alphanumeric
      pure (SigExp.name name span)
  whileSome first fun signature => do
    if ← atRefinement then
      advance
      word "type"
      let parameters ← typeVariables
      let (name, _) ← longName
      word "="
      let type ← nested.type
      return some
        (.whereType signature parameters name type (← spanFrom start))
    else return none

end Sml.Reading
