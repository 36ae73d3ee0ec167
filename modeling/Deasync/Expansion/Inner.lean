import Deasync.Capture
import Deasync.Expansion.Lift
import Deasync.Expansion.Substitution
import Deasync.Receiver
import Deasync.Syntax.Declaration
import Deasync.Text.Blank

namespace Deasync

structure Decision where
  name : String
  receiver : Receiver
  marker : Option String
  captured : Captured
  hasBody : Bool
  deriving Repr

structure Forward where
  outer : String
  inner : String
  deriving Repr, DecidableEq

def isName (cs : List Char) : Bool :=
  match cs with
  | 'r' :: '#' :: c :: rest => Lexeme.startsWord c && rest.all Lexeme.continuesWord
  | c :: rest => Lexeme.startsWord c && rest.all Lexeme.continuesWord
  | [] => false

def bindingName? (pattern : String) : Option String :=
  let name := match pattern.toList with
    | 'm' :: 'u' :: 't' :: blank :: rest =>
      if Text.isBlank blank then rest.dropWhile Text.isBlank else pattern.toList
    | cs => cs
  let text := String.ofList name
  if isName name && !(["_", "mut", "ref"].contains text) then some text else none

-- A binding keeps its name. Any other pattern is matched by the inner function alone, and its value is passed under
-- the name of its position.
def Forward.of (position : Nat) (pattern : String) : Forward :=
  ⟨(bindingName? pattern).getD ("__arg" ++ toString position), pattern⟩

def Signature.forwards (s : Signature) : List Forward :=
  s.params.mapIdx fun i p => .of i p.pattern

def selfParameter : String := "AsyncTrait"

def Declaration.selfInSignature (d : Declaration) (text : String) : Except Fault String :=
  match d.subject with
  | .contract .. => replaceSelfType text selfParameter selfParameter
  | .implementation selfTy none =>
    replaceSelfType text selfTy.render ("<" ++ selfTy.render ++ ">")
  | .implementation selfTy (some implemented) =>
    replaceSelfType text selfTy.render
      ("<" ++ selfTy.render ++ " as " ++ implemented.ty.render ++ ">")

def Declaration.selfInBody (d : Declaration) (text : String) : Except Fault String :=
  match d.subject with
  | .contract .. => replaceSelfType text selfParameter selfParameter
  | .implementation (.path p) _ =>
    replaceSelfType text p.renderInExpression ("<" ++ p.render ++ ">")
  | .implementation selfTy _ => replaceSelfType text selfTy.render ("<" ++ selfTy.render ++ ">")

def ReceiverForm.movesSelf : ReceiverForm → Bool
  | .value _ => true
  | .typed _ ty => ty.bareName? = some "Self"
  | .reference .. => false

def ReceiverForm.innerText : ReceiverForm → String
  | .reference lifetime mutable =>
    innerReceiver ++ ": &" ++ lifetime.getD "" ++ " " ++ (if mutable then "mut " else "") ++ "Self"
  | .typed mutable ty => (if mutable then "mut " else "") ++ innerReceiver ++ ": " ++ ty.render
  | .value mutable => (if mutable then "mut " else "") ++ innerReceiver ++ ": Self"

-- The declaration of the parameter that stands for `Self`: it has the trait, need not be sized unless `Self` is
-- moved, and has the marker the outer method asks for.
def selfParameterText (trait : String) (params : List GenericParam) (receiver : Option SelfParam)
    (marker : Option String) (scope : String) : String :=
  let arguments := params.map GenericParam.name
  let applied :=
    trait ++ if arguments.isEmpty then "" else "<" ++ ", ".intercalate arguments ++ ">"
  let sized := if receiver.any (·.form.movesSelf) then [] else ["?Sized"]
  let marked := match marker with
    | some name => [name, scope]
    | none => []
  selfParameter ++ ": " ++ " + ".intercalate (sized ++ [applied] ++ marked)

structure Passed where
  declared : String
  given : String
  deriving Repr, DecidableEq

structure InnerFunction where
  name : String
  isUnsafe : Bool
  lifetimes : List String
  types : List Passed
  params : List Passed
  output : Option String
  requirements : List String
  body : String
  deriving Repr, DecidableEq

-- The generic parameters that are no lifetimes, without their defaults; the call passes them on by name.
def passedParams (params : List GenericParam) : List Passed :=
  (params.filter (!·.isLifetime)).map fun p => ⟨p.renderBare, p.name⟩

def lifetimeTexts (params : List GenericParam) : List String :=
  (params.filter (·.isLifetime)).map GenericParam.text

def liftedParams (d : Declaration) : Nat → List Lifted → Except Fault (List Passed)
  | _, [] => .ok []
  | n, lifted :: rest => do
    let text ← d.selfInSignature (liftedName n ++ ": " ++ Bound.renderAll lifted.bounds)
    let others ← liftedParams d (n + 1) rest
    .ok (⟨text, "_"⟩ :: others)

def forwardedParams (d : Declaration) : List Forward → List Ty → Except Fault (List Passed)
  | forward :: forwards, ty :: types => do
    let text ← d.selfInSignature ty.render
    let others ← forwardedParams d forwards types
    .ok (⟨forward.inner ++ ": " ++ text, forward.outer⟩ :: others)
  | _, _ => .ok []

def receiverParams (d : Declaration) (receiver : Option SelfParam) : Except Fault (List Passed) :=
  match receiver with
  | some r => (d.selfInSignature r.form.innerText).map fun text => [⟨text, "self"⟩]
  | none => .ok []

def selfParams (d : Declaration) (decision : Decision) : List Passed :=
  match d.subject with
  | .contract name _ _ =>
    [⟨selfParameterText name d.genericParams decision.captured.signature.receiver decision.marker
        decision.captured.scope, "Self"⟩]
  | .implementation .. => []

def hasTabbedLine : List Char → Bool
  | [] => false
  | c :: rest => (c == '\n' && rest.head? == some '\t') || hasTabbedLine rest

def Declaration.indentUnit (d : Declaration) : String :=
  if hasTabbedLine d.source.toList then "\t" else "    "

def Declaration.innerBody (d : Declaration) (body : String) : Except Fault String := do
  let renamed ← renameSelf body
  let spelled ← d.selfInBody renamed
  indentLines spelled d.indentUnit

def innerFunction (d : Declaration) (decision : Decision) (body : String) :
    Except Fault InnerFunction := do
  let signature := decision.captured.signature
  let (types, lifted) := Ty.liftEach 0 (signature.params.map Param.ty)
  let liftedTypes ← liftedParams d 0 lifted
  let receiver ← receiverParams d signature.receiver
  let params ← forwardedParams d signature.forwards types
  let output ← signature.output.mapM fun ty => d.selfInSignature ty.render
  let body ← d.innerBody body
  let requirements ← (WhereClause.textsOf d.whereClause ++
    WhereClause.textsOf signature.whereClause ++ decision.captured.outlives).mapM d.selfInSignature
  .ok
    { name := "__" ++ decision.name
      isUnsafe := signature.qualifiers.isUnsafe
      lifetimes := lifetimeTexts d.genericParams ++ lifetimeTexts signature.genericParams ++
        [decision.captured.scope]
      types := passedParams d.genericParams ++ passedParams signature.genericParams ++
        liftedTypes ++ selfParams d decision
      params := receiver ++ params
      output := output
      requirements := requirements
      body := body }

def InnerFunction.lines (f : InnerFunction) (indent deeper : String) : List String :=
  let generics := "<" ++ ", ".intercalate (f.lifetimes ++ f.types.map Passed.declared) ++ ">"
  let header := indent ++ "async " ++ (if f.isUnsafe then "unsafe " else "") ++ "fn " ++ f.name ++
    generics ++ "(" ++ ", ".intercalate (f.params.map Passed.declared) ++ ")" ++
    match f.output with
    | some ty => " -> " ++ ty
    | none => ""
  if f.requirements.isEmpty then [header ++ " " ++ f.body]
  else [header, indent ++ "where"] ++ f.requirements.map (fun r => deeper ++ r ++ ",") ++
    [indent ++ f.body]

def InnerFunction.call (f : InnerFunction) : String :=
  let turbofish :=
    if f.types.isEmpty then "" else "::<" ++ ", ".intercalate (f.types.map Passed.given) ++ ">"
  let call := f.name ++ turbofish ++ "(" ++ ", ".intercalate (f.params.map Passed.given) ++ ")"
  if f.isUnsafe then "unsafe \x7b " ++ call ++ " \x7d" else call

end Deasync
