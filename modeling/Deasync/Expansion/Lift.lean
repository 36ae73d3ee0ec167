import Deasync.Syntax.Printer

namespace Deasync

structure Lifted where
  bounds : List Bound
  extent : Extent
  deriving Repr

def Lifted.toTy (l : Lifted) : Ty := .implTrait l.bounds l.extent

def liftedName (n : Nat) : String := "__Impl" ++ toString n

mutual

-- Replaces the `impl` types of a type, from left to right, by parameters numbered from `n`, and gives what they
-- stood for. Bounds, closure notations and the type that a path starts at are not looked into.
def Ty.lift (n : Nat) : Ty → Ty × List Lifted
  | .implTrait bounds e =>
    (.path (.mk .relative (.plain (liftedName n)) [] e), [⟨bounds, e⟩])
  | .path p => let (p, lifted) := p.lift n; (.path p, lifted)
  | .reference lifetime mutable inner e =>
    let (inner, lifted) := inner.lift n
    (.reference lifetime mutable inner e, lifted)
  | .pointer mutable inner e => let (inner, lifted) := inner.lift n; (.pointer mutable inner e, lifted)
  | .tuple elements e => let (elements, lifted) := Ty.liftEach n elements; (.tuple elements e, lifted)
  | .paren inner e => let (inner, lifted) := inner.lift n; (.paren inner e, lifted)
  | .slice inner e => let (inner, lifted) := inner.lift n; (.slice inner e, lifted)
  | .array inner length e => let (inner, lifted) := inner.lift n; (.array inner length e, lifted)
  | .never e => (.never e, [])
  | .infer e => (.infer e, [])
  | .traitObject bounds e => (.traitObject bounds e, [])
  | .functionPointer text e => (.functionPointer text e, [])
  | .macroCall text e => (.macroCall text e, [])

def Path.lift (n : Nat) : Path → Path × List Lifted
  | .mk root head tail e =>
    let (head, first) := head.lift n
    let (tail, later) := Segment.liftEach (n + first.length) tail
    (.mk root head tail e, first ++ later)

def Segment.lift (n : Nat) : Segment → Segment × List Lifted
  | .angled name turbofish arguments =>
    let (arguments, lifted) := GenericArg.liftEach n arguments
    (.angled name turbofish arguments, lifted)
  | .plain name => (.plain name, [])
  | .call name inputs output => (.call name inputs output, [])

def GenericArg.lift (n : Nat) : GenericArg → GenericArg × List Lifted
  | .type ty => let (ty, lifted) := ty.lift n; (.type ty, lifted)
  | .lifetime name => (.lifetime name, [])
  | .binding name arguments ty => (.binding name arguments ty, [])
  | .constraint name arguments bounds => (.constraint name arguments bounds, [])
  | .const text => (.const text, [])

def Ty.liftEach (n : Nat) : List Ty → List Ty × List Lifted
  | [] => ([], [])
  | ty :: rest =>
    let (ty, first) := ty.lift n
    let (rest, later) := Ty.liftEach (n + first.length) rest
    (ty :: rest, first ++ later)

def Segment.liftEach (n : Nat) : List Segment → List Segment × List Lifted
  | [] => ([], [])
  | segment :: rest =>
    let (segment, first) := segment.lift n
    let (rest, later) := Segment.liftEach (n + first.length) rest
    (segment :: rest, first ++ later)

def GenericArg.liftEach (n : Nat) : List GenericArg → List GenericArg × List Lifted
  | [] => ([], [])
  | argument :: rest =>
    let (argument, first) := argument.lift n
    let (rest, later) := GenericArg.liftEach (n + first.length) rest
    (argument :: rest, first ++ later)

end

end Deasync
