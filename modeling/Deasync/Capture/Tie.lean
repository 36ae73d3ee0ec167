import Deasync.Syntax.Ty
import Deasync.Outline

namespace Deasync

def placeholder : String := "'_"

def isImplicit : Option String → Bool
  | none => true
  | some name => name = placeholder

def tieLifetime (scope : String) (lifetime : Option String) : String :=
  match lifetime with
  | none => scope
  | some name => if name = placeholder then scope else name

def Bound.isLifetime (name : String) : Bound → Bool
  | .lifetime other => other = name
  | .trait .. => false

def outliving (scope : String) (inArgument : Bool) (bounds : List Bound) : List Bound :=
  if inArgument && !bounds.any (Bound.isLifetime scope) then bounds ++ [.lifetime scope] else bounds

mutual

def Ty.tie (scope : String) (inArgument : Bool) : Ty → Ty
  | .path p => .path (p.tie scope inArgument)
  | .reference lifetime mutable inner e =>
    .reference (some (tieLifetime scope lifetime)) mutable (inner.tie scope inArgument) e
  | .pointer mutable inner e => .pointer mutable (inner.tie scope inArgument) e
  | .tuple elements e => .tuple (Ty.tieEach scope inArgument elements) e
  | .paren inner e => .paren (inner.tie scope inArgument) e
  | .slice inner e => .slice (inner.tie scope inArgument) e
  | .array inner length e => .array (inner.tie scope inArgument) length e
  | .traitObject bounds e => .traitObject (Bound.tieEach scope bounds) e
  | .implTrait bounds e =>
    .implTrait (outliving scope inArgument (Bound.tieEach scope bounds)) e
  | .never e => .never e
  | .infer e => .infer e
  | .functionPointer text e => .functionPointer text e
  | .macroCall text e => .macroCall text e

def Path.tie (scope : String) (inArgument : Bool) : Path → Path
  | .mk root head tail e =>
    .mk (root.tie scope inArgument) (head.tie scope inArgument)
      (Segment.tieEach scope inArgument tail) e

def Root.tie (scope : String) (inArgument : Bool) : Root → Root
  | .relative => .relative
  | .global => .global
  | .qualified self none => .qualified (self.tie scope inArgument) none
  | .qualified self (some path) => .qualified (self.tie scope inArgument) (some (path.tie scope false))

def Segment.tie (scope : String) (inArgument : Bool) : Segment → Segment
  | .plain name => .plain name
  | .angled name turbofish arguments =>
    .angled name turbofish (GenericArg.tieEach scope inArgument arguments)
  | .call name inputs output => .call name inputs output

def GenericArg.tie (scope : String) (inArgument : Bool) : GenericArg → GenericArg
  | .lifetime name => .lifetime (tieLifetime scope (some name))
  | .type ty => .type (ty.tie scope inArgument)
  | .binding name arguments ty => .binding name arguments (ty.tie scope inArgument)
  | .constraint name arguments bounds => .constraint name arguments (Bound.tieEach scope bounds)
  | .const text => .const text

def Bound.tie (scope : String) : Bound → Bound
  | .lifetime name => .lifetime (tieLifetime scope (some name))
  | .trait maybe none paren path => .trait maybe none paren (path.tie scope false)
  | .trait maybe (some binder) paren path => .trait maybe (some binder) paren path

def Ty.tieEach (scope : String) (inArgument : Bool) : List Ty → List Ty
  | [] => []
  | ty :: rest => ty.tie scope inArgument :: Ty.tieEach scope inArgument rest

def Segment.tieEach (scope : String) (inArgument : Bool) : List Segment → List Segment
  | [] => []
  | segment :: rest => segment.tie scope inArgument :: Segment.tieEach scope inArgument rest

def GenericArg.tieEach (scope : String) (inArgument : Bool) : List GenericArg → List GenericArg
  | [] => []
  | argument :: rest => argument.tie scope inArgument :: GenericArg.tieEach scope inArgument rest

def Bound.tieEach (scope : String) : List Bound → List Bound
  | [] => []
  | bound :: rest => bound.tie scope :: Bound.tieEach scope rest

end

mutual

def Ty.lifetimes : Ty → List (Option String)
  | .path p => p.lifetimes
  | .reference lifetime _ inner _ => lifetime :: inner.lifetimes
  | .pointer _ inner _ => inner.lifetimes
  | .tuple elements _ => Ty.lifetimesEach elements
  | .paren inner _ => inner.lifetimes
  | .slice inner _ => inner.lifetimes
  | .array inner _ _ => inner.lifetimes
  | .traitObject bounds _ => Bound.lifetimesEach bounds
  | .implTrait bounds _ => Bound.lifetimesEach bounds
  | .never _ | .infer _ | .functionPointer .. | .macroCall .. => []

def Path.lifetimes : Path → List (Option String)
  | .mk root head tail _ => root.lifetimes ++ head.lifetimes ++ Segment.lifetimesEach tail

def Root.lifetimes : Root → List (Option String)
  | .relative | .global => []
  | .qualified self none => self.lifetimes
  | .qualified self (some path) => self.lifetimes ++ path.lifetimes

def Segment.lifetimes : Segment → List (Option String)
  | .plain _ => []
  | .angled _ _ arguments => GenericArg.lifetimesEach arguments
  | .call .. => []

def GenericArg.lifetimes : GenericArg → List (Option String)
  | .lifetime name => [some name]
  | .type ty => ty.lifetimes
  | .binding _ _ ty => ty.lifetimes
  | .constraint _ _ bounds => Bound.lifetimesEach bounds
  | .const _ => []

def Bound.lifetimes : Bound → List (Option String)
  | .lifetime name => [some name]
  | .trait _ none _ path => path.lifetimes
  | .trait _ (some _) _ _ => []

def Ty.lifetimesEach : List Ty → List (Option String)
  | [] => []
  | ty :: rest => ty.lifetimes ++ Ty.lifetimesEach rest

def Segment.lifetimesEach : List Segment → List (Option String)
  | [] => []
  | segment :: rest => segment.lifetimes ++ Segment.lifetimesEach rest

def GenericArg.lifetimesEach : List GenericArg → List (Option String)
  | [] => []
  | argument :: rest => argument.lifetimes ++ GenericArg.lifetimesEach rest

def Bound.lifetimesEach : List Bound → List (Option String)
  | [] => []
  | bound :: rest => bound.lifetimes ++ Bound.lifetimesEach rest

end

def Root.mentions (root : Root) (head : Segment) : List String :=
  match root with
  | .relative => [head.name]
  | .global | .qualified .. => []

mutual

def Ty.mentioned : Ty → List String
  | .path p => p.mentioned
  | .reference _ _ inner _ => inner.mentioned
  | .pointer _ inner _ => inner.mentioned
  | .tuple elements _ => Ty.mentionedEach elements
  | .paren inner _ => inner.mentioned
  | .slice inner _ => inner.mentioned
  | .array inner _ _ => inner.mentioned
  | .traitObject bounds _ => Bound.mentionedEach bounds
  | .implTrait bounds _ => Bound.mentionedEach bounds
  | .never _ | .infer _ | .functionPointer .. | .macroCall .. => []

def Path.mentioned : Path → List String
  | .mk root head tail _ =>
    root.mentions head ++ root.mentioned ++ head.mentioned ++ Segment.mentionedEach tail

def Root.mentioned : Root → List String
  | .relative | .global => []
  | .qualified self none => self.mentioned
  | .qualified self (some path) => self.mentioned ++ path.mentioned

def Segment.mentioned : Segment → List String
  | .plain _ => []
  | .angled _ _ arguments => GenericArg.mentionedEach arguments
  | .call .. => []

def GenericArg.mentioned : GenericArg → List String
  | .lifetime _ => []
  | .type ty => ty.mentioned
  | .binding _ _ ty => ty.mentioned
  | .constraint _ _ bounds => Bound.mentionedEach bounds
  | .const _ => []

def Bound.mentioned : Bound → List String
  | .lifetime _ => []
  | .trait _ none _ path => path.mentioned
  | .trait _ (some _) _ _ => []

def Ty.mentionedEach : List Ty → List String
  | [] => []
  | ty :: rest => ty.mentioned ++ Ty.mentionedEach rest

def Segment.mentionedEach : List Segment → List String
  | [] => []
  | segment :: rest => segment.mentioned ++ Segment.mentionedEach rest

def GenericArg.mentionedEach : List GenericArg → List String
  | [] => []
  | argument :: rest => argument.mentioned ++ GenericArg.mentionedEach rest

def Bound.mentionedEach : List Bound → List String
  | [] => []
  | bound :: rest => bound.mentioned ++ Bound.mentionedEach rest

end

def GenericArg.isLifetime : GenericArg → Bool
  | .lifetime _ => true
  | _ => false

def Segment.bare? (carriers : Carriers) : Segment → Option (String × Nat)
  | .plain name => named name
  | .angled name _ arguments => if arguments.any GenericArg.isLifetime then none else named name
  | .call .. => none
where
  named (name : String) : Option (String × Nat) :=
    match carriers.arity? name with
    | some (arity + 1) => some (name, arity + 1)
    | _ => none

mutual

-- The first path of a type that names a carrier and gives it no lifetime. A path comes before what is inside it.
def Ty.hidden? (carriers : Carriers) : Ty → Option (String × Nat)
  | .path p => p.hidden? carriers
  | .reference _ _ inner _ => inner.hidden? carriers
  | .pointer _ inner _ => inner.hidden? carriers
  | .tuple elements _ => Ty.hiddenEach? carriers elements
  | .paren inner _ => inner.hidden? carriers
  | .slice inner _ => inner.hidden? carriers
  | .array inner _ _ => inner.hidden? carriers
  | .traitObject bounds _ => Bound.hiddenEach? carriers bounds
  | .implTrait bounds _ => Bound.hiddenEach? carriers bounds
  | .never _ | .infer _ | .functionPointer .. | .macroCall .. => none

def Path.hidden? (carriers : Carriers) : Path → Option (String × Nat)
  | .mk root head tail _ =>
    ((tail.getLast?.getD head).bare? carriers).or <| (root.hidden? carriers).or <|
      (head.hidden? carriers).or (Segment.hiddenEach? carriers tail)

def Root.hidden? (carriers : Carriers) : Root → Option (String × Nat)
  | .relative | .global => none
  | .qualified self none => self.hidden? carriers
  | .qualified self (some path) => (self.hidden? carriers).or (path.hidden? carriers)

def Segment.hidden? (carriers : Carriers) : Segment → Option (String × Nat)
  | .plain _ => none
  | .angled _ _ arguments => GenericArg.hiddenEach? carriers arguments
  | .call .. => none

def GenericArg.hidden? (carriers : Carriers) : GenericArg → Option (String × Nat)
  | .lifetime _ => none
  | .type ty => ty.hidden? carriers
  | .binding _ _ ty => ty.hidden? carriers
  | .constraint _ _ bounds => Bound.hiddenEach? carriers bounds
  | .const _ => none

def Bound.hidden? (carriers : Carriers) : Bound → Option (String × Nat)
  | .lifetime _ => none
  | .trait _ none _ path => path.hidden? carriers
  | .trait _ (some _) _ _ => none

def Ty.hiddenEach? (carriers : Carriers) : List Ty → Option (String × Nat)
  | [] => none
  | ty :: rest => (ty.hidden? carriers).or (Ty.hiddenEach? carriers rest)

def Segment.hiddenEach? (carriers : Carriers) : List Segment → Option (String × Nat)
  | [] => none
  | segment :: rest => (segment.hidden? carriers).or (Segment.hiddenEach? carriers rest)

def GenericArg.hiddenEach? (carriers : Carriers) : List GenericArg → Option (String × Nat)
  | [] => none
  | argument :: rest => (argument.hidden? carriers).or (GenericArg.hiddenEach? carriers rest)

def Bound.hiddenEach? (carriers : Carriers) : List Bound → Option (String × Nat)
  | [] => none
  | bound :: rest => (bound.hidden? carriers).or (Bound.hiddenEach? carriers rest)

end

end Deasync
