import Deasync.Token.Lexeme
import Deasync.Fault

namespace Deasync

structure Cursor where
  offset : Nat
  position : Position
  deriving Repr, DecidableEq

namespace Cursor

def origin : Cursor := ⟨0, .origin⟩

def advance (cursor : Cursor) (read : List Char) : Cursor :=
  ⟨cursor.offset + read.length, read.foldl Position.after cursor.position⟩

def extent (start stop : Cursor) : Extent :=
  ⟨start.offset, stop.offset, start.position, stop.position⟩

end Cursor

structure Scan where
  tokens : List Token
  stray : Option (Char × Cursor)
  deriving Repr, DecidableEq

def scanFrom (cursor : Cursor) (cs : List Char) : Scan :=
  match cs with
  | [] => ⟨[], none⟩
  | c :: rest =>
    match Lexeme.lexeme (c :: rest) with
    | some (found, n + 1) =>
      let read := c :: rest.take n
      let next := cursor.advance read
      let later := scanFrom next (rest.drop n)
      match found with
      | .gap => later
      | .token kind => ⟨⟨kind, String.ofList read, cursor.extent next⟩ :: later.tokens, later.stray⟩
    | _ => ⟨[], some (c, cursor)⟩
  termination_by cs.length

def scan (text : String) : Scan := scanFrom .origin text.toList

def strayFault (text : String) (found : Char) (cursor : Cursor) : Fault :=
  ⟨.strayCharacter found cursor.position,
    .between text cursor.offset (cursor.offset + 1 : Nat) none⟩

def lex (text : String) : Except Fault (List Token) :=
  match scan text with
  | ⟨tokens, none⟩ => .ok tokens
  | ⟨_, some (found, cursor)⟩ => .error (strayFault text found cursor)

end Deasync
