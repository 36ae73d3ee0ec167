import Deasync.Text.Slice

namespace Deasync

structure Position where
  line : Nat
  column : Nat
  deriving Repr, DecidableEq, Inhabited

namespace Position

def origin : Position := ⟨1, 1⟩

def after (p : Position) (c : Char) : Position :=
  if c = '\n' then ⟨p.line + 1, 1⟩ else ⟨p.line, p.column + 1⟩

-- The position behind all of `before`: one line more than it has line feeds, and one column more than it has
-- characters behind the last of them.
def behind (before : List Char) : Position :=
  ⟨before.count '\n' + 1, (before.reverse.takeWhile (· ≠ '\n')).length + 1⟩

-- The position of an offset of `text`. An offset in front of the text counts as its start, one behind it as its
-- end.
def locate (text : String) (offset : Int) : Position :=
  behind (text.toList.take offset.toNat)

end Position

-- Where a token or a node stands in the text it was read from: its first character, the one behind its last, and
-- their positions.
structure Extent where
  start : Nat
  stop : Nat
  first : Position
  last : Position
  deriving Repr, DecidableEq, Inhabited

def Extent.to (a b : Extent) : Extent := ⟨a.start, b.stop, a.first, b.last⟩

def Extent.slice (e : Extent) (text : String) : String := Text.slice text e.start e.stop

inductive Span where
  | unknown (file : Option String)
  | known (file : Option String) (start stop : Int) (first last : Position)
  deriving Repr, DecidableEq, Inhabited

namespace Span

def between (text : String) (start stop : Int) (file : Option String) : Span :=
  .known file start stop (.locate text start) (.locate text stop)

def ofExtent (e : Extent) : Span := .known none e.start e.stop e.first e.last

def file : Span → Option String
  | unknown file => file
  | known file .. => file

def isKnown : Span → Bool
  | unknown _ => false
  | known .. => true

def withFile (s : Span) (file : Option String) : Span :=
  match s with
  | unknown _ => unknown file
  | known _ start stop first last => known file start stop first last

def preferred (given own : Option String) : Option String :=
  match given with
  | some name => if name.isEmpty then own else some name
  | none => own

def rebase (s : Span) (text : String) (offset : Int) (file : Option String) : Span :=
  match s with
  | unknown own => unknown (preferred file own)
  | known own start stop _ _ => between text (offset + start) (offset + stop) (preferred file own)

end Span

end Deasync
