import Deasync.Capture.Tie
import Deasync.Syntax.Signature

namespace Deasync

def callScope : String := "'async_trait"

def numberedScope (n : Nat) : String := callScope ++ toString n

-- The first of the names numbered from `n` that is not taken. Of `more + 1` different names at most `more` are.
def freshNumbered (taken : List String) (n : Nat) : (more : Nat) → String
  | 0 => numberedScope n
  | more + 1 =>
    if taken.contains (numberedScope n) then freshNumbered taken (n + 1) more else numberedScope n

def freshScope (taken : List String) : String :=
  if taken.contains callScope then freshNumbered taken 1 taken.length else callScope

-- What is known around a method: declarations that take lifetimes, lifetimes in use, and the type parameters of the
-- enclosing declaration.
structure Surroundings where
  carriers : Carriers
  taken : List String
  outerTypes : List String
  deriving Repr, DecidableEq

-- A signature tied to the lifetime `scope` of its calls. `tied` counts the lifetimes that were implicit before.
structure Captured where
  signature : Signature
  scope : String
  outlives : List String
  tied : Nat
  deriving Repr

def Captured.introduced (c : Captured) : List String := [c.scope]

namespace ReceiverForm

def tie (scope : String) : ReceiverForm → ReceiverForm
  | .reference lifetime mutable => .reference (some (tieLifetime scope lifetime)) mutable
  | .typed mutable ty => .typed mutable (ty.tie scope false)
  | .value mutable => .value mutable

def lifetimes : ReceiverForm → List (Option String)
  | .reference lifetime _ => [lifetime]
  | .typed _ ty => ty.lifetimes
  | .value _ => []

def mentioned : ReceiverForm → List String
  | .typed _ ty => ty.mentioned
  | _ => []

def hidden? (carriers : Carriers) : ReceiverForm → Option (String × Nat)
  | .typed _ ty => ty.hidden? carriers
  | _ => none

end ReceiverForm

namespace Signature

def usedLifetimes (s : Signature) : List (Option String) :=
  (s.receiver.toList.flatMap fun r => r.form.lifetimes) ++
    (s.params.flatMap fun p => p.ty.lifetimes) ++ s.output.toList.flatMap Ty.lifetimes

def mentioned (s : Signature) : List String :=
  (s.receiver.toList.flatMap fun r => r.form.mentioned) ++
    (s.params.flatMap fun p => p.ty.mentioned) ++ s.output.toList.flatMap Ty.mentioned

def hiddenAt (s : Signature) (carriers : Carriers) : List (Extent × Option (String × Nat)) :=
  (s.receiver.toList.map fun r => (r.extent, r.form.hidden? carriers)) ++
    (s.params.map fun p => (p.extent, p.ty.hidden? carriers)) ++
    s.output.toList.map fun ty => (ty.extent, ty.hidden? carriers)

def hiddenFault? (s : Signature) (carriers : Carriers) : Option Fault :=
  (s.hiddenAt carriers).findSome? fun (site, found) =>
    found.map fun (name, arity) => ⟨.hiddenBorrow name arity, .ofExtent site⟩

def tie (s : Signature) (scope : String) : Signature :=
  { s with
    receiver := s.receiver.map fun r => { r with form := r.form.tie scope }
    params := s.params.map fun p => { p with ty := p.ty.tie scope true }
    output := s.output.map (Ty.tie scope false) }

end Signature

def addNew (seen : List String) (name : String) : List String :=
  if seen.contains name then seen else seen ++ [name]

-- What outlives the call: the lifetimes that are declared or named, less `'static` and the call's own, and the type
-- parameters in play.
def outlivesPredicates (scope : String) (lifetimes types : List String) : List String :=
  let named := lifetimes.filter fun name => name != "'static" && name != scope
  ((named ++ types).map fun name => name ++ ": " ++ scope).foldl addNew []

def Signature.capture (s : Signature) (around : Surroundings) : Except Fault Captured :=
  let scope := freshScope (around.taken ++ s.lifetimes)
  match s.hiddenFault? around.carriers with
  | some fault => .error fault
  | none =>
    let used := s.usedLifetimes
    let named := (used.filter fun l => !isImplicit l).filterMap id
    let mentioned := s.mentioned
    let types := around.outerTypes.filter mentioned.contains ++ s.typeNames
    .ok { signature := s.tie scope
          scope := scope
          outlives := outlivesPredicates scope (s.lifetimes ++ named) types
          tied := used.countP isImplicit }

end Deasync
