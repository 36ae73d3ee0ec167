import Deasync.Grammar.Chart
import Deasync.Grammar.Rules
import Deasync.Delimiter
import Deasync.Text.Blank
import Deasync.Token.Lexer

namespace Deasync

-- The fault of tokens that the grammar stops reading where `left` of them are left. It points at the first of
-- these, or at the end of the text when there is none.
def syntaxFault (text : String) (tokens : List Token) (left : Nat) : Fault :=
  match tokens.drop (tokens.length - left) with
  | token :: _ =>
    ⟨.unexpectedToken token, .between text token.extent.start token.extent.stop none⟩
  | [] => ⟨.unexpectedEnd, .between text text.length text.length none⟩

def Ty.read (text : String) : Except Fault Ty :=
  match scan text with
  | ⟨tokens, none⟩ => (declarations.read .type text tokens).mapError (syntaxFault text tokens)
  | ⟨tokens, some (found, cursor)⟩ =>
    match declarations.read .type text tokens with
    | .error (left + 1) => .error (syntaxFault text tokens (left + 1))
    | _ => .error (strayFault text found cursor)

-- The fault of a text that begins, after its attributes, with none of the words of a declaration. It points at all
-- that follows, less the blanks at the end.
def targetFault (text : String) (found : Option Token) : Fault :=
  match found with
  | some token =>
    ⟨.wrongTarget (some token.text),
      .between text token.extent.start (Text.trimEnd text.toList).length none⟩
  | none => ⟨.wrongTarget none, .between text text.length text.length none⟩

-- Passes over documentation, attributes, visibilities and `unsafe`, in any order, and asks for `trait` or `impl`
-- behind them.
def checkTarget (text : String) : List Token → Except Fault Unit
  | [] => .error (targetFault text none)
  | token :: later =>
    match token.kind with
    | .docLine | .docBlock | .unsafeWord => checkTarget text later
    | .traitWord | .implWord => .ok ()
    | .hash =>
      match later with
      | [] => .error (targetFault text (some token))
      | second :: rest =>
        if second.kind = .openSquare then
          match _closed : closing second rest with
          | .ok group => checkTarget text group.after
          | .error fault => .error fault
        else .error (targetFault text (some token))
    | .pubWord =>
      match later with
      | [] => checkTarget text []
      | second :: rest =>
        if second.kind = .openRound then
          match _closed : closing second rest with
          | .ok group => checkTarget text group.after
          | .error fault => .error fault
        else checkTarget text (second :: rest)
    | _ => .error (targetFault text (some token))
  termination_by tokens => tokens.length
  decreasing_by
    all_goals first
      | (simp only [List.length_cons]; omega)
      | (have shorter := closing_after_length _closed; simp only [List.length_cons]; omega)

def Declaration.read (text : String) : Except Fault Declaration := do
  let tokens ← lex text
  checkTarget text tokens
  let declaration ←
    (declarations.read .declaration text tokens).mapError (syntaxFault text tokens)
  match declaration.strayModifier? with
  | some modifier => .error ⟨.unexpectedModifier modifier.word, .ofExtent modifier.extent⟩
  | none => .ok declaration

end Deasync
