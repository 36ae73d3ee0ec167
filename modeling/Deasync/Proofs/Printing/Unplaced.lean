import Deasync.Syntax.Printer

namespace Deasync

mutual

def Ty.unplaced : Ty → Ty
  | .path p => .path p.unplaced
  | .reference lifetime mutable inner _ => .reference lifetime mutable inner.unplaced default
  | .pointer mutable inner _ => .pointer mutable inner.unplaced default
  | .tuple elements _ => .tuple (Ty.unplacedEach elements) default
  | .paren inner _ => .paren inner.unplaced default
  | .slice inner _ => .slice inner.unplaced default
  | .array inner length _ => .array inner.unplaced length default
  | .never _ => .never default
  | .infer _ => .infer default
  | .traitObject bounds _ => .traitObject (Bound.unplacedEach bounds) default
  | .implTrait bounds _ => .implTrait (Bound.unplacedEach bounds) default
  | .functionPointer text _ => .functionPointer text default
  | .macroCall text _ => .macroCall text default

def Path.unplaced : Path → Path
  | .mk root head tail _ => .mk root.unplaced head.unplaced (Segment.unplacedEach tail) default

def Root.unplaced : Root → Root
  | .relative => .relative
  | .global => .global
  | .qualified self none => .qualified self.unplaced none
  | .qualified self (some path) => .qualified self.unplaced (some path.unplaced)

def Segment.unplaced : Segment → Segment
  | .plain name => .plain name
  | .angled name turbofish arguments => .angled name turbofish (GenericArg.unplacedEach arguments)
  | .call name inputs none => .call name (Ty.unplacedEach inputs) none
  | .call name inputs (some output) => .call name (Ty.unplacedEach inputs) (some output.unplaced)

def GenericArg.unplaced : GenericArg → GenericArg
  | .lifetime name => .lifetime name
  | .type ty => .type ty.unplaced
  | .binding name none ty => .binding name none ty.unplaced
  | .binding name (some arguments) ty =>
    .binding name (some (GenericArg.unplacedEach arguments)) ty.unplaced
  | .constraint name none bounds => .constraint name none (Bound.unplacedEach bounds)
  | .constraint name (some arguments) bounds =>
    .constraint name (some (GenericArg.unplacedEach arguments)) (Bound.unplacedEach bounds)
  | .const text => .const text

def Bound.unplaced : Bound → Bound
  | .lifetime name => .lifetime name
  | .trait maybe binder paren path => .trait maybe binder paren path.unplaced

def Ty.unplacedEach : List Ty → List Ty
  | [] => []
  | ty :: rest => ty.unplaced :: Ty.unplacedEach rest

def Segment.unplacedEach : List Segment → List Segment
  | [] => []
  | segment :: rest => segment.unplaced :: Segment.unplacedEach rest

def GenericArg.unplacedEach : List GenericArg → List GenericArg
  | [] => []
  | argument :: rest => argument.unplaced :: GenericArg.unplacedEach rest

def Bound.unplacedEach : List Bound → List Bound
  | [] => []
  | bound :: rest => bound.unplaced :: Bound.unplacedEach rest

end

mutual

theorem Ty.render_unplaced : (t : Ty) → t.unplaced.render = t.render
  | .path p => by rw [Ty.unplaced, Ty.render, Ty.render, p.render_unplaced]
  | .reference _ _ inner _ => by simp only [Ty.unplaced, Ty.render, inner.render_unplaced]
  | .pointer _ inner _ => by rw [Ty.unplaced, Ty.render, Ty.render, inner.render_unplaced]
  | .tuple [] _ => rfl
  | .tuple [only] _ => by
    simp only [Ty.unplaced, Ty.unplacedEach, Ty.render, only.render_unplaced]
  | .tuple (first :: second :: rest) _ => by
    have each := Ty.renderEach_unplaced (first :: second :: rest)
    simp only [Ty.unplacedEach] at each
    simp only [Ty.unplaced, Ty.unplacedEach, Ty.render, each]
  | .paren inner _ => by rw [Ty.unplaced, Ty.render, Ty.render, inner.render_unplaced]
  | .slice inner _ => by rw [Ty.unplaced, Ty.render, Ty.render, inner.render_unplaced]
  | .array inner _ _ => by rw [Ty.unplaced, Ty.render, Ty.render, inner.render_unplaced]
  | .never _ => rfl
  | .infer _ => rfl
  | .traitObject bounds _ => by
    rw [Ty.unplaced, Ty.render, Ty.render, Bound.renderEach_unplaced bounds]
  | .implTrait bounds _ => by
    rw [Ty.unplaced, Ty.render, Ty.render, Bound.renderEach_unplaced bounds]
  | .functionPointer _ _ => rfl
  | .macroCall _ _ => rfl

theorem Path.render_unplaced : (p : Path) → p.unplaced.render = p.render
  | .mk root head tail _ => by
    rw [Path.unplaced, Path.render, Path.render, root.render_unplaced, head.render_unplaced false,
      Segment.renderEach_unplaced false tail]

theorem Root.render_unplaced : (r : Root) → r.unplaced.render = r.render
  | .relative => rfl
  | .global => rfl
  | .qualified self none => by rw [Root.unplaced, Root.render, Root.render, self.render_unplaced]
  | .qualified self (some path) => by
    rw [Root.unplaced, Root.render, Root.render, self.render_unplaced, path.render_unplaced]

theorem Segment.render_unplaced (expression : Bool) :
    (s : Segment) → s.unplaced.render expression = s.render expression
  | .plain _ => rfl
  | .angled _ _ arguments => by
    rw [Segment.unplaced, Segment.render, Segment.render, GenericArg.renderEach_unplaced arguments]
  | .call _ inputs none => by
    rw [Segment.unplaced, Segment.render, Segment.render, Ty.renderEach_unplaced inputs]
  | .call _ inputs (some output) => by
    rw [Segment.unplaced, Segment.render, Segment.render, Ty.renderEach_unplaced inputs,
      output.render_unplaced]

theorem GenericArg.render_unplaced : (a : GenericArg) → a.unplaced.render = a.render
  | .lifetime _ => rfl
  | .type ty => by rw [GenericArg.unplaced, GenericArg.render, GenericArg.render, ty.render_unplaced]
  | .binding _ none ty => by
    rw [GenericArg.unplaced, GenericArg.render, GenericArg.render, ty.render_unplaced]
  | .binding _ (some arguments) ty => by
    rw [GenericArg.unplaced, GenericArg.render, GenericArg.render, ty.render_unplaced,
      GenericArg.renderEach_unplaced arguments]
  | .constraint _ none bounds => by
    rw [GenericArg.unplaced, GenericArg.render, GenericArg.render, Bound.renderEach_unplaced bounds]
  | .constraint _ (some arguments) bounds => by
    rw [GenericArg.unplaced, GenericArg.render, GenericArg.render, Bound.renderEach_unplaced bounds,
      GenericArg.renderEach_unplaced arguments]
  | .const _ => rfl

theorem Bound.render_unplaced : (b : Bound) → b.unplaced.render = b.render
  | .lifetime _ => rfl
  | .trait _ _ _ path => by simp only [Bound.unplaced, Bound.render, path.render_unplaced]

theorem Ty.renderEach_unplaced : (ts : List Ty) →
    Ty.renderEach (Ty.unplacedEach ts) = Ty.renderEach ts
  | [] => rfl
  | t :: rest => by
    rw [Ty.unplacedEach, Ty.renderEach, Ty.renderEach, t.render_unplaced, Ty.renderEach_unplaced rest]

theorem Segment.renderEach_unplaced (expression : Bool) : (ss : List Segment) →
    Segment.renderEach expression (Segment.unplacedEach ss) = Segment.renderEach expression ss
  | [] => rfl
  | s :: rest => by
    rw [Segment.unplacedEach, Segment.renderEach, Segment.renderEach, s.render_unplaced expression,
      Segment.renderEach_unplaced expression rest]

theorem GenericArg.renderEach_unplaced : (as : List GenericArg) →
    GenericArg.renderEach (GenericArg.unplacedEach as) = GenericArg.renderEach as
  | [] => rfl
  | a :: rest => by
    rw [GenericArg.unplacedEach, GenericArg.renderEach, GenericArg.renderEach, a.render_unplaced,
      GenericArg.renderEach_unplaced rest]

theorem Bound.renderEach_unplaced : (bs : List Bound) →
    Bound.renderEach (Bound.unplacedEach bs) = Bound.renderEach bs
  | [] => rfl
  | b :: rest => by
    rw [Bound.unplacedEach, Bound.renderEach, Bound.renderEach, b.render_unplaced,
      Bound.renderEach_unplaced rest]

end

end Deasync
