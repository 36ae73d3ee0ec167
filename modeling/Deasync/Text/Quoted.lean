import Deasync.Text.Printable

namespace Deasync.Text

def hexadecimal (value width : Nat) : List Char :=
  let digits := Nat.toDigits 16 value
  List.replicate (width - digits.length) '0' ++ digits

def quoteFor (text : List Char) : Char :=
  if text.contains '\x27' && !text.contains '"' then '"' else '\x27'

-- Line feed, carriage return and tab have letters of their own; any other character that cannot be shown is given
-- by two, four or eight hexadecimal digits, the fewest that hold its code point.
def escaped (quote c : Char) : List Char :=
  if c == quote || c == '\\' then ['\\', c]
  else if c == '\n' then ['\\', 'n']
  else if c == '\r' then ['\\', 'r']
  else if c == '\t' then ['\\', 't']
  else if isPrintable c then [c]
  else if c.toNat < 0x100 then '\\' :: 'x' :: hexadecimal c.toNat 2
  else if c.toNat < 0x10000 then '\\' :: 'u' :: hexadecimal c.toNat 4
  else '\\' :: 'U' :: hexadecimal c.toNat 8

def quoted (text : String) : String :=
  let quote := quoteFor text.toList
  String.ofList (quote :: text.toList.flatMap (escaped quote) ++ [quote])

end Deasync.Text
