import Deasync.Token.Lexer

namespace Deasync

-- The patches for those tokens that `replace` has a replacement for; it is shown the tokens behind each one as
-- well.
def tokenPatches (replace : Token → List Token → Option String) : List Token → List Text.Patch
  | [] => []
  | token :: later =>
    match replace token later with
    | some replacement =>
      ⟨token.extent.start, token.extent.stop, replacement⟩ :: tokenPatches replace later
    | none => tokenPatches replace later

def substitute (text : String) (replace : Token → List Token → Option String) :
    Except Fault String :=
  (lex text).map fun tokens => Text.patched text (tokenPatches replace tokens)

def startsWithSep : List Token → Bool
  | next :: _ => next.kind = .pathSep
  | [] => false

def innerReceiver : String := "_self"

def renameSelf (text : String) : Except Fault String :=
  substitute text fun token later =>
    if token.kind = .selfWord && !startsWithSep later then some innerReceiver else none

def replaceSelfType (text plain qualified : String) : Except Fault String :=
  substitute text fun token later =>
    if token.kind = .ident && token.text = "Self" then
      some (if startsWithSep later then qualified else plain)
    else none

def insideLiteral (literals : List Extent) (offset : Nat) : Bool :=
  literals.any fun e => e.start < offset && offset < e.stop

-- Indents every line that begins in `cs`, the text from `offset` on, unless it is empty or begins inside a literal.
def indentFrom (literals : List Extent) (unit : List Char) (offset : Nat) : List Char → List Char
  | [] => []
  | c :: rest =>
    let filled := match rest with
      | next :: _ => next ≠ '\n'
      | [] => false
    if c = '\n' && filled && !insideLiteral literals (offset + 1) then
      c :: (unit ++ indentFrom literals unit (offset + 1) rest)
    else c :: indentFrom literals unit (offset + 1) rest

def Kind.isText (k : Kind) : Bool := k = .string || k = .rawString

def indentLines (text unit : String) : Except Fault String :=
  (lex text).map fun tokens =>
    let literals := (tokens.filter (·.kind.isText)).map Token.extent
    String.ofList (indentFrom literals unit.toList 0 text.toList)

end Deasync
