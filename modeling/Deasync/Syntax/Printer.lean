import Deasync.Syntax.Ty

namespace Deasync

mutual

def Ty.render : Ty → String
  | .path p => p.render
  | .reference lifetime mutable inner _ =>
    "&" ++ (match lifetime with | some name => name ++ " " | none => "") ++
      (if mutable then "mut " else "") ++ inner.render
  | .pointer mutable inner _ => (if mutable then "*mut " else "*const ") ++ inner.render
  -- the comma sets a tuple of one apart from a type in parentheses
  | .tuple [only] _ => "(" ++ only.render ++ ",)"
  | .tuple elements _ => "(" ++ ", ".intercalate (Ty.renderEach elements) ++ ")"
  | .paren inner _ => "(" ++ inner.render ++ ")"
  | .slice inner _ => "[" ++ inner.render ++ "]"
  | .array inner length _ => "[" ++ inner.render ++ "; " ++ length ++ "]"
  | .never _ => "!"
  | .infer _ => "_"
  | .traitObject bounds _ => "dyn " ++ " + ".intercalate (Bound.renderEach bounds)
  | .implTrait bounds _ => "impl " ++ " + ".intercalate (Bound.renderEach bounds)
  | .functionPointer text _ => text
  | .macroCall text _ => text

def Path.render : Path → String
  | .mk root head tail _ =>
    root.render ++ "::".intercalate (head.render false :: Segment.renderEach false tail)

def Root.render : Root → String
  | .relative => ""
  | .global => "::"
  | .qualified self none => "<" ++ self.render ++ ">::"
  | .qualified self (some path) => "<" ++ self.render ++ " as " ++ path.render ++ ">::"

def Segment.render (expression : Bool) : Segment → String
  | .plain name => name
  | .angled name turbofish arguments =>
    name ++ (if expression || turbofish then "::" else "") ++ "<" ++
      ", ".intercalate (GenericArg.renderEach arguments) ++ ">"
  | .call name inputs none => name ++ "(" ++ ", ".intercalate (Ty.renderEach inputs) ++ ")"
  | .call name inputs (some output) =>
    name ++ "(" ++ ", ".intercalate (Ty.renderEach inputs) ++ ")" ++ " -> " ++ output.render

def GenericArg.render : GenericArg → String
  | .lifetime name => name
  | .type ty => ty.render
  | .binding name none ty => name ++ " = " ++ ty.render
  | .binding name (some arguments) ty =>
    name ++ "<" ++ ", ".intercalate (GenericArg.renderEach arguments) ++ ">" ++ " = " ++ ty.render
  | .constraint name none bounds => name ++ ": " ++ " + ".intercalate (Bound.renderEach bounds)
  | .constraint name (some arguments) bounds =>
    name ++ "<" ++ ", ".intercalate (GenericArg.renderEach arguments) ++ ">" ++ ": " ++
      " + ".intercalate (Bound.renderEach bounds)
  | .const text => text

def Bound.render : Bound → String
  | .lifetime name => name
  | .trait maybe binder paren path =>
    let text := (if maybe then "?" else "") ++
      (match binder with | some names => names ++ " " | none => "") ++ path.render
    if paren then "(" ++ text ++ ")" else text

def Ty.renderEach : List Ty → List String
  | [] => []
  | ty :: rest => ty.render :: Ty.renderEach rest

def Segment.renderEach (expression : Bool) : List Segment → List String
  | [] => []
  | segment :: rest => segment.render expression :: Segment.renderEach expression rest

def GenericArg.renderEach : List GenericArg → List String
  | [] => []
  | argument :: rest => argument.render :: GenericArg.renderEach rest

def Bound.renderEach : List Bound → List String
  | [] => []
  | bound :: rest => bound.render :: Bound.renderEach rest

end

def Bound.renderAll (bounds : List Bound) : String := " + ".intercalate (Bound.renderEach bounds)

def Path.renderInExpression : Path → String
  | .mk root head tail _ =>
    root.render ++ "::".intercalate (head.render true :: Segment.renderEach true tail)

end Deasync
