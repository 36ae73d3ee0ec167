namespace Deasync

structure FileName where
  root : String
  parts : List String
  deriving Repr, DecidableEq

namespace FileName

def splitSlashes : List Char → List (List Char)
  | [] => [[]]
  | c :: rest =>
    if c = '/' then [] :: splitSlashes rest
    else match splitSlashes rest with
      | first :: later => (c :: first) :: later
      | [] => [[c]]

def rootOf : List Char → String
  | '/' :: '/' :: '/' :: _ => "/"
  | '/' :: '/' :: _ => "//"
  | '/' :: _ => "/"
  | _ => ""

def ofText (text : String) : FileName where
  root := rootOf text.toList
  parts := ((splitSlashes text.toList).map String.ofList).filter fun part => part ≠ "" && part ≠ "."

def render (name : FileName) : String :=
  if name.root = "" && name.parts.isEmpty then "."
  else name.root ++ "/".intercalate name.parts

end FileName

end Deasync
