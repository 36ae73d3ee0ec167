namespace Deasync.Text

-- Tab to carriage return, the four information separators, the space, the next-line control, and every Unicode
-- space, line or paragraph separator.
def isBlank (c : Char) : Bool :=
  let code := c.toNat
  (0x9 ≤ code && code ≤ 0xd) || (0x1c ≤ code && code ≤ 0x20) || code == 0x85 || code == 0xa0 ||
    code == 0x1680 || (0x2000 ≤ code && code ≤ 0x200a) || code == 0x2028 || code == 0x2029 ||
    code == 0x202f || code == 0x205f || code == 0x3000

def trimEnd (text : List Char) : List Char :=
  text.foldr (fun c rest => if rest.isEmpty && isBlank c then [] else c :: rest) []

def trim (text : String) : String :=
  String.ofList (trimEnd (text.toList.dropWhile isBlank))

end Deasync.Text
