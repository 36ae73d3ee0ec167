import Deasync.Text.Quoted

namespace Deasync

inductive JsonValue where
  | null
  | number (n : Nat)
  | text (s : String)
  | list (values : List JsonValue)
  | object (members : List (String × JsonValue))
  deriving Repr

namespace JsonValue

def escapedUnit (code : Nat) : List Char := '\\' :: 'u' :: Text.hexadecimal code 4

def escapedChar (c : Char) : List Char :=
  if c == '"' || c == '\\' then ['\\', c]
  else if c == '\n' then ['\\', 'n']
  else if c == '\r' then ['\\', 'r']
  else if c == '\t' then ['\\', 't']
  else if c == '\x08' then ['\\', 'b']
  else if c == '\x0c' then ['\\', 'f']
  else if 0x20 ≤ c.toNat && c.toNat ≤ 0x7e then [c]
  else if c.toNat < 0x10000 then escapedUnit c.toNat
  else
    let high := c.toNat - 0x10000
    escapedUnit (0xd800 + high / 0x400) ++ escapedUnit (0xdc00 + high % 0x400)

def quoted (s : String) : String := String.ofList ('"' :: s.toList.flatMap escapedChar ++ ['"'])

mutual

def render : JsonValue → String
  | null => "null"
  | number n => toString n
  | text s => quoted s
  | list values => "[" ++ ", ".intercalate (renderEach values) ++ "]"
  | object members => "\x7b" ++ ", ".intercalate (renderMembers members) ++ "\x7d"

def renderEach : List JsonValue → List String
  | [] => []
  | value :: rest => value.render :: renderEach rest

def renderMembers : List (String × JsonValue) → List String
  | [] => []
  | (name, value) :: rest => (quoted name ++ ": " ++ value.render) :: renderMembers rest

end

def texts (values : List String) : JsonValue := list (values.map text)

def ofOption {α : Type} (f : α → JsonValue) : Option α → JsonValue
  | some a => f a
  | none => null

end JsonValue

end Deasync
