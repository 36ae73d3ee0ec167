import Deasync.Token

namespace Deasync.Lexeme

inductive Class where
  | gap
  | token (kind : Kind)
  deriving Repr, DecidableEq

def isGapChar (c : Char) : Bool :=
  c == ' ' || c == '\t' || c == '\x0c' || c == '\r' || c == '\n'

def startsWord (c : Char) : Bool := c.isAlpha || c == '_'

def continuesWord (c : Char) : Bool := c.isAlphanum || c == '_'

def isHex (c : Char) : Bool :=
  c.isDigit || (decide ('a' ≤ c) && decide (c ≤ 'f')) || (decide ('A' ≤ c) && decide (c ≤ 'F'))

def run (p : Char → Bool) (cs : List Char) : Nat := (cs.takeWhile p).length

def through (stop : List Char) : List Char → Option Nat
  | [] => none
  | c :: cs =>
    if stop.isPrefixOf (c :: cs) then some stop.length else (through stop cs).map (· + 1)

def rawBody : List Char → Option Nat
  | '"' :: rest => (through ['"'] rest).map (· + 1)
  | '#' :: '"' :: rest => (through ['"', '#'] rest).map (· + 2)
  | '#' :: '#' :: '"' :: rest => (through ['"', '#', '#'] rest).map (· + 3)
  | _ => none

def rawString : List Char → Option Nat
  | 'b' :: 'r' :: rest => (rawBody rest).map (· + 2)
  | 'r' :: rest => (rawBody rest).map (· + 1)
  | _ => none

-- An escape behind its backslash, and the closing quote: two hexadecimal digits, one to six of them in braces, or
-- any one character of the same line.
def escapeBody (cs : List Char) : Option Nat :=
  match cs with
  | c :: '\x27' :: _ => if c = '\n' then none else some 2
  | 'x' :: a :: b :: '\x27' :: _ => if isHex a && isHex b then some 4 else none
  | 'u' :: '\x7b' :: rest =>
    let digits := run isHex rest
    if 1 ≤ digits && digits ≤ 6 && ['\x7d', '\x27'].isPrefixOf (rest.drop digits) then
      some (digits + 4)
    else none
  | _ => none

def charBody : List Char → Option Nat
  | '\\' :: rest => (escapeBody rest).map (· + 1)
  | c :: '\x27' :: _ => if c = '\x27' || c = '\n' then none else some 2
  | _ => none

def charLiteral : List Char → Option Nat
  | 'b' :: '\x27' :: rest => (charBody rest).map (· + 2)
  | '\x27' :: rest => (charBody rest).map (· + 1)
  | _ => none

def stringBody : List Char → Option Nat
  | [] => none
  | '"' :: _ => some 1
  | ['\\'] => none
  | '\\' :: _ :: rest => (stringBody rest).map (· + 2)
  | _ :: rest => (stringBody rest).map (· + 1)

def stringLiteral : List Char → Option Nat
  | 'b' :: '"' :: rest => (stringBody rest).map (· + 2)
  | '"' :: rest => (stringBody rest).map (· + 1)
  | _ => none

def gap (cs : List Char) : Option Nat :=
  match cs with
  | c :: rest => if isGapChar c then some (run isGapChar rest + 1) else none
  | [] => none

-- Three slashes, and not four, begin a documentation line; a slash and two stars, with neither a star nor a slash
-- behind them, begin a documentation block. Blocks do not nest, and one that is never closed is no comment.
def comment : List Char → Option (Class × Nat)
  | '/' :: '/' :: rest =>
    let length := run (· ≠ '\n') rest + 2
    match rest with
    | '/' :: '/' :: _ => some (.gap, length)
    | '/' :: _ => some (.token .docLine, length)
    | _ => some (.gap, length)
  | '/' :: '*' :: rest =>
    match rest with
    | '*' :: '*' :: _ | '*' :: '/' :: _ => (through ['*', '/'] rest).map (.gap, · + 2)
    | '*' :: body => (through ['*', '/'] body).map (.token .docBlock, · + 3)
    | _ => (through ['*', '/'] rest).map (.gap, · + 2)
  | _ => none

def word (cs : List Char) : Option Nat :=
  match cs with
  | 'r' :: '#' :: c :: rest =>
    if startsWord c then some (run continuesWord rest + 3)
    else some 1
  | c :: rest => if startsWord c then some (run continuesWord rest + 1) else none
  | [] => none

def radix : List Char → Option Nat
  | '0' :: mark :: rest =>
    let digits :=
      if mark = 'x' then run (fun c => isHex c || c == '_') rest
      else if mark = 'o' then run (fun c => (decide ('0' ≤ c) && decide (c ≤ '7')) || c == '_') rest
      else if mark = 'b' then run (fun c => c == '0' || c == '1' || c == '_') rest
      else 0
    if digits = 0 then none else some (digits + 2)
  | _ => none

def isDecimal (c : Char) : Bool := c.isDigit || c == '_'

def fraction : List Char → Nat
  | '.' :: c :: rest => if c.isDigit then run isDecimal rest + 2 else 0
  | _ => 0

def exponent : List Char → Nat
  | mark :: rest =>
    if mark = 'e' || mark = 'E' then
      let sign := match rest with
        | c :: _ => if c = '+' || c = '-' then 1 else 0
        | [] => 0
      let digits := run isDecimal (rest.drop sign)
      if digits = 0 then 0 else digits + sign + 1
    else 0
  | [] => 0

def decimal (cs : List Char) : Option Nat :=
  match cs with
  | c :: rest =>
    if c.isDigit then
      let whole := run isDecimal rest + 1
      let withFraction := whole + fraction (cs.drop whole)
      some (withFraction + exponent (cs.drop withFraction))
    else none
  | [] => none

def suffixes : List (List Char) :=
  ["i8", "i16", "i32", "i64", "i128", "isize", "u8", "u16", "u32", "u64", "u128", "usize", "f32",
    "f64"].map String.toList

def number (cs : List Char) : Option Nat :=
  ((radix cs).or (decimal cs)).map fun digits =>
    match suffixes.find? (·.isPrefixOf (cs.drop digits)) with
    | some ending => digits + ending.length
    | none => digits

def lifetime : List Char → Option Nat
  | '\x27' :: c :: rest => if startsWord c then some (run continuesWord rest + 2) else none
  | _ => none

def mark (cs : List Char) : Option (Class × Nat) :=
  let pair := match cs with
    | a :: b :: _ => (Kind.pairs.lookup (a, b)).map (Class.token ·, 2)
    | _ => none
  let single := match cs with
    | a :: _ => (Kind.singles.lookup a).map (Class.token ·, 1)
    | [] => none
  pair.or single

def lexeme (cs : List Char) : Option (Class × Nat) :=
  ((rawString cs).map (.token .rawString, ·)).or <|
  ((charLiteral cs).map (.token .char, ·)).or <|
  ((stringLiteral cs).map (.token .string, ·)).or <|
  ((gap cs).map (.gap, ·)).or <|
  (comment cs).or <|
  ((word cs).map fun n => (.token (.ofWord (String.ofList (cs.take n))), n)).or <|
  ((number cs).map (.token .number, ·)).or <|
  ((lifetime cs).map (.token .lifetime, ·)).or <|
  mark cs

end Deasync.Lexeme
