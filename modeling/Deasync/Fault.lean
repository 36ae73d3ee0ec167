import Deasync.Token
import Deasync.Text.Quoted

namespace Deasync

inductive Cause where
  | strayCharacter (found : Char) (position : Position)
  | unexpectedToken (token : Token)
  | unexpectedEnd
  | mismatchedCloser (text : String)
  | unclosedOpener (text : String)
  | unexpectedCloser (text : String)
  | unexpectedModifier (word : String)
  | wrongTarget (found : Option String)
  | unsupportedArgument (text : String)
  | hiddenBorrow (name : String) (arity : Nat)
  deriving Repr, DecidableEq

namespace Cause

inductive Family where
  | parse | target | configuration | borrow
  deriving Repr, DecidableEq

def family : Cause → Family
  | wrongTarget _ => .target
  | unsupportedArgument _ => .configuration
  | hiddenBorrow .. => .borrow
  | _ => .parse

def code (c : Cause) : String :=
  match c.family with
  | .parse => "E-PARSE"
  | .target => "E-MALFORMED-TARGET"
  | .configuration => "E-INVALID-CONFIG"
  | .borrow => "E-AMBIGUOUS-BORROW-SCOPE"

def message : Cause → String
  | strayCharacter found position =>
    "No terminal matches '" ++ found.toString ++ "' in the current parser context, at line " ++
      toString position.line ++ " col " ++ toString position.column
  | unexpectedToken token =>
    "Unexpected token Token('" ++ token.kind.label ++ "', " ++ Text.quoted token.text ++
      ") at line " ++ toString token.extent.first.line ++ ", column " ++
      toString token.extent.first.column ++ "."
  | unexpectedEnd => "Unexpected end-of-input. Expected one of:"
  | mismatchedCloser text => "mismatched closing delimiter `" ++ text ++ "`"
  | unclosedOpener text => "unclosed delimiter `" ++ text ++ "`"
  | unexpectedCloser text => "unexpected closing delimiter `" ++ text ++ "`"
  | unexpectedModifier word => "unexpected `" ++ word ++ "` before `fn`"
  | wrongTarget found =>
    "`async_trait` can only be applied to a trait declaration or an impl block, found " ++
      match found with
      | some text => "`" ++ text ++ "`"
      | none => "nothing"
  | unsupportedArgument text => "unsupported `async_trait` argument `" ++ text ++ "`"
  | hiddenBorrow name arity =>
    "`" ++ name ++ "` takes " ++ toString arity ++ " scope parameter" ++
      (if arity = 1 then "" else "s") ++
      " but none was given; the borrow it carries cannot be tied to the call"

def notes : Cause → List String
  | unsupportedArgument _ => ["the only supported argument is `local`"]
  | hiddenBorrow name _ =>
    ["indicate the anonymous scope: `" ++ name ++ "<'_>`, or name it explicitly"]
  | _ => []

end Cause

structure Fault where
  cause : Cause
  span : Span
  deriving Repr, DecidableEq

structure Diagnostic where
  message : String
  code : Option String
  phase : Option String
  span : Span
  notes : List String
  deriving Repr, DecidableEq

def Diagnostic.severity (_ : Diagnostic) : String := "error"

def Fault.diagnose (fault : Fault) (phase : String) (span : Span) : Diagnostic where
  message := fault.cause.message
  code := some fault.cause.code
  phase := some phase
  span := span
  notes := fault.cause.notes

end Deasync
