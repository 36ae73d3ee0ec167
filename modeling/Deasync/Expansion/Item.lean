import Deasync.Expansion.Inner
import Deasync.Options

namespace Deasync

def futureType (output scope : String) (isLocal : Bool) : String :=
  "::core::pin::Pin<::std::boxed::Box<dyn ::core::future::Future<Output = " ++ output ++ ">" ++
    (if isLocal then "" else " + " ++ sendMarker) ++ " + " ++ scope ++ ">>"

def Qualifiers.render (q : Qualifiers) : String :=
  (match q.visibility with | some text => text ++ " " | none => "") ++
    (if q.modifier.isSome then "default " else "") ++ (if q.isUnsafe then "unsafe " else "") ++
    (match q.abi with | some text => text ++ " " | none => "")

def attributePrefix (attributes : List Attribute) : String :=
  String.join (attributes.map fun a => a.text ++ " ")

def SelfParam.outerText (p : SelfParam) (hasBody : Bool) : String :=
  let mutText (mutable : Bool) := if mutable && !hasBody then "mut " else ""
  attributePrefix p.attributes ++ match p.form with
    | .reference lifetime mutable =>
      "&" ++ lifetime.getD "" ++ " " ++ (if mutable then "mut " else "") ++ "self"
    | .typed mutable ty => mutText mutable ++ "self: " ++ ty.render
    | .value mutable => mutText mutable ++ "self"

def outerGenerics (params : List GenericParam) (scope : String) : String :=
  "<" ++ ", ".intercalate (lifetimeTexts params ++ [scope] ++
    (params.filter (!·.isLifetime)).map GenericParam.text) ++ ">"

-- The parameters of the outer method. With a body, patterns are the business of the inner function.
def outerParams (s : Signature) (hasBody : Bool) : List String :=
  (s.receiver.toList.map fun r => r.outerText hasBody) ++
    s.params.mapIdx fun i p =>
      attributePrefix p.attributes ++
        (if hasBody then (Forward.of i p.pattern).outer else p.pattern) ++ ": " ++ p.ty.render

-- What the outer method requires: the predicates as they were, those of the captured lifetimes, and the marker for
-- `Self`.
def outerRequirements (decision : Decision) : List String :=
  WhereClause.textsOf decision.captured.signature.whereClause ++ decision.captured.outlives ++
    match decision.marker with
    | some marker => ["Self: " ++ marker ++ " + " ++ decision.captured.scope]
    | none => []

def outerHeader (options : Options) (decision : Decision) : String :=
  let s := decision.captured.signature
  let scope := decision.captured.scope
  let output := match s.output with
    | some ty => ty.render
    | none => "()"
  s.qualifiers.render ++ "fn " ++ s.name ++ outerGenerics s.genericParams scope ++ "(" ++
    ", ".intercalate (outerParams s decision.hasBody) ++ ") -> " ++
    futureType output scope options.isLocal

def indentAt (source : String) (offset : Nat) : String :=
  let line := ((source.toList.take offset).reverse.takeWhile (· ≠ '\n')).reverse
  String.ofList (line.takeWhile fun c => c == ' ' || c == '\t')

def requirementLines (indent deeper : String) (requirements : List String) : List String :=
  if requirements.isEmpty then []
  else (indent ++ "where") :: requirements.map fun r => deeper ++ r ++ ","

def bodilessLines (header indent deeper : String) (requirements : List String) : List String :=
  match requirements.getLast? with
  | none => [header ++ ";"]
  | some last =>
    [header, indent ++ "where"] ++ requirements.dropLast.map (fun r => deeper ++ r ++ ",") ++
      [deeper ++ last ++ ";"]

def methodText (d : Declaration) (options : Options) (m : Method) (decision : Decision) :
    Except Fault String := do
  let indent := indentAt d.source m.signature.extent.start
  let deeper := indent ++ d.indentUnit
  let header := outerHeader options decision
  let requirements := outerRequirements decision
  match m.body with
  | none => .ok ("\n".intercalate (bodilessLines header indent deeper requirements))
  | some body =>
    let inner ← innerFunction d decision body.text
    .ok ("\n".intercalate ([header] ++ requirementLines indent deeper requirements ++
      [indent ++ "\x7b"] ++ inner.lines deeper (deeper ++ d.indentUnit) ++
      [deeper ++ "::std::boxed::Box::pin(" ++ inner.call ++ ")", indent ++ "\x7d"]))

-- Lifetimes that the call must not be named after: those of the declaration's parameters, and all that the text of
-- the method mentions.
def takenLifetimes (d : Declaration) (m : Method) : Except Fault (List String) :=
  (lex (Text.slice d.source m.signature.extent.start m.extent.stop)).map fun tokens =>
    (d.genericParams.filter (·.isLifetime)).map GenericParam.name ++
      (tokens.filter (·.kind = .lifetime)).map Token.text

def decideMethod (d : Declaration) (options : Options) (carriers : Carriers) (m : Method) :
    Except Fault Decision := do
  let receiver := Receiver.of m.signature.receiver
  let taken ← takenLifetimes d m
  let outerTypes := (d.genericParams.filter (·.isType)).map GenericParam.name
  let captured ← m.signature.capture ⟨carriers, taken, outerTypes⟩
  .ok
    { name := m.signature.name
      receiver := receiver
      marker := receiver.marker? m.hasBody options.isLocal
      captured := captured
      hasBody := m.hasBody }

-- How far the expansion of some methods came: what was decided, and the patches, or the fault that ended it.
structure Attempt where
  decided : List Decision
  patches : Except Fault (List Text.Patch)

def attempt (d : Declaration) (options : Options) (carriers : Carriers) : List Method → Attempt
  | [] => ⟨[], .ok []⟩
  | m :: rest =>
    match decideMethod d options carriers m with
    | .error fault => ⟨[], .error fault⟩
    | .ok decision =>
      match methodText d options m decision with
      | .error fault => ⟨[decision], .error fault⟩
      | .ok text =>
        let later := attempt d options carriers rest
        ⟨decision :: later.decided,
          later.patches.map (⟨m.signature.extent.start, m.extent.stop, text⟩ :: ·)⟩

structure Expanded where
  text : String
  methods : List Decision
  deriving Repr

def Declaration.asyncMethods (d : Declaration) : List Method := d.methods.filter Method.isAsync

def Declaration.attempt (d : Declaration) (options : Options) (carriers : Carriers) : Attempt :=
  Deasync.attempt d options carriers d.asyncMethods

def Attempt.outcome (a : Attempt) (d : Declaration) : Except Fault Expanded :=
  a.patches.map fun patches => ⟨Text.patched d.source patches, a.decided⟩

def Declaration.expand (d : Declaration) (options : Options) (carriers : Carriers) :
    Except Fault Expanded :=
  (d.attempt options carriers).outcome d

end Deasync
