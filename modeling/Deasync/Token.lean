import Deasync.Position

namespace Deasync

inductive Kind where
  | fnWord | asyncWord | pubWord | traitWord | implWord | forWord | whereWord | unsafeWord
  | externWord | constWord | typeWord | mutWord | dynWord | selfWord | asWord | underscore
  | ident | lifetime | char | string | rawString | number | otherPunct | docLine | docBlock
  | hash | openSquare | closeSquare | openRound | closeRound | openCurly | closeCurly
  | colon | bang | semicolon | equal | comma | ampersand | less | greater | plus | question | star
  | dot | ampersands | pathSep | dotDot | arrow | fatArrow
  deriving Repr, DecidableEq, Inhabited

namespace Kind

def reserved : List (String × Kind) :=
  [("fn", fnWord), ("async", asyncWord), ("pub", pubWord), ("trait", traitWord), ("impl", implWord),
   ("for", forWord), ("where", whereWord), ("unsafe", unsafeWord), ("extern", externWord),
   ("const", constWord), ("type", typeWord), ("mut", mutWord), ("dyn", dynWord),
   ("self", selfWord), ("as", asWord), ("_", underscore)]

def ofWord (word : String) : Kind := (reserved.lookup word).getD ident

def pairs : List ((Char × Char) × Kind) :=
  [(('&', '&'), ampersands), ((':', ':'), pathSep), (('.', '.'), dotDot), (('-', '>'), arrow),
   (('=', '>'), fatArrow)]

def singles : List (Char × Kind) :=
  [('#', hash), ('[', openSquare), (']', closeSquare), ('(', openRound), (')', closeRound),
   ('\x7b', openCurly), ('\x7d', closeCurly), (':', colon), ('!', bang), (';', semicolon),
   ('=', equal), (',', comma), ('&', ampersand), ('<', less), ('>', greater), ('+', plus),
   ('?', question), ('*', star), ('.', dot), ('-', otherPunct), ('%', otherPunct),
   ('^', otherPunct), ('|', otherPunct), ('@', otherPunct), ('$', otherPunct), ('~', otherPunct),
   ('/', otherPunct), ('\\', otherPunct)]

def label : Kind → String
  | fnWord => "FN" | asyncWord => "ASYNC" | pubWord => "PUB" | traitWord => "TRAIT"
  | implWord => "IMPL" | forWord => "FOR" | whereWord => "WHERE" | unsafeWord => "UNSAFE"
  | externWord => "EXTERN" | constWord => "CONST" | typeWord => "TYPE" | mutWord => "MUT"
  | dynWord => "DYN" | selfWord => "SELF" | asWord => "AS" | underscore => "UNDERSCORE"
  | ident => "IDENT" | lifetime => "LIFETIME" | char => "CHAR" | string => "STRING"
  | rawString => "RAW_STRING" | number => "NUMBER" | otherPunct => "OTHER_PUNCT"
  | docLine => "DOC_LINE" | docBlock => "DOC_BLOCK"
  | hash => "HASH" | openSquare => "LSQB" | closeSquare => "RSQB" | openRound => "LPAR"
  | closeRound => "RPAR" | openCurly => "LBRACE" | closeCurly => "RBRACE" | colon => "COLON"
  | bang => "BANG" | semicolon => "SEMICOLON" | equal => "EQUAL" | comma => "COMMA"
  | ampersand => "AMPERSAND" | less => "LESSTHAN" | greater => "MORETHAN" | plus => "PLUS"
  | question => "QMARK" | star => "STAR" | dot => "DOT"
  | ampersands => "__ANON_0" | pathSep => "__ANON_1" | dotDot => "__ANON_2" | arrow => "__ANON_3"
  | fatArrow => "__ANON_4"

def isDoc : Kind → Bool
  | docLine | docBlock => true
  | _ => false

def isWord : Kind → Bool
  | fnWord | asyncWord | pubWord | traitWord | implWord | forWord | whereWord | unsafeWord
  | externWord | constWord | typeWord | mutWord | dynWord | selfWord | asWord | underscore
  | ident => true
  | _ => false

def closer? : Kind → Option Kind
  | openRound => some closeRound
  | openSquare => some closeSquare
  | openCurly => some closeCurly
  | _ => none

def isOpener (k : Kind) : Bool := k.closer?.isSome

def isCloser : Kind → Bool
  | closeRound | closeSquare | closeCurly => true
  | _ => false

end Kind

structure Token where
  kind : Kind
  text : String
  extent : Extent
  deriving Repr, DecidableEq, Inhabited

def Extent.covering (tokens : List Token) : Extent :=
  match tokens.head?, tokens.getLast? with
  | some first, some last => first.extent.to last.extent
  | _, _ => default

end Deasync
