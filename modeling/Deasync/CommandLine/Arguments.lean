import Deasync.CommandLine.FileName
import Deasync.Text.Digit
import Deasync.Text.Quoted

namespace Deasync

inductive Flag where
  | help | output | inPlace | json | verbose
  deriving Repr, DecidableEq

namespace Flag

def spellings : List (String × Flag) :=
  [("-h", help), ("--help", help), ("-o", output), ("--output", output), ("--in-place", inPlace),
   ("--json", json), ("-v", verbose), ("--verbose", verbose)]

def label (f : Flag) : String :=
  "/".intercalate ((spellings.filter fun (_, other) => other = f).map Prod.fst)

def takesValue (f : Flag) : Bool := f = output

def rival : Flag → Option Flag
  | output => some inPlace
  | inPlace => some output
  | _ => none

end Flag

inductive UsageError where
  | ambiguous (word : String) (matching : List String)
  | expectedValue (flag : Flag)
  | ignoredValue (flag : Flag) (value : String)
  | conflict (flag other : Flag)
  | sourceRequired
  | unrecognized (words : List String)
  | severalSources
  deriving Repr, DecidableEq

def UsageError.message : UsageError → String
  | ambiguous word matching =>
    "ambiguous option: " ++ word ++ " could match " ++ ", ".intercalate matching
  | expectedValue flag => "argument " ++ flag.label ++ ": expected one argument"
  | ignoredValue flag value =>
    "argument " ++ flag.label ++ ": ignored explicit argument " ++ Text.quoted value
  | conflict flag other =>
    "argument " ++ flag.label ++ ": not allowed with argument " ++ other.label
  | sourceRequired => "the following arguments are required: source"
  | unrecognized words => "unrecognized arguments: " ++ " ".intercalate words
  | severalSources => "-o/--output takes exactly one source file"

-- What a word of the command line is. Behind `--` every word is plain. What is joined to an option, with or without
-- an equals sign, is a value or, behind a short option, more options.
inductive CommandWord where
  | plain (text : String)
  | separator
  | flag (flag : Flag) (isShort : Bool) (joined : Option (List Char))
  | unknown (text : String)
  deriving Repr, DecidableEq

namespace CommandWord

def isPlain : CommandWord → Bool
  | plain _ => true
  | _ => false

def text : CommandWord → String
  | plain text => text
  | separator => "--"
  | unknown text => text
  | flag f _ _ => f.label

def isNumeral (cs : List Char) : Bool :=
  let whole := cs.takeWhile Text.isDecimal
  match cs.dropWhile Text.isDecimal with
  | [] => !whole.isEmpty
  | '.' :: decimals => !decimals.isEmpty && decimals.all Text.isDecimal
  | _ => false

def isNegativeNumber : List Char → Bool
  | '-' :: rest => isNumeral (if rest.getLast? = some '\n' then rest.dropLast else rest)
  | _ => false

def splitEquals (cs : List Char) : List Char × Option (List Char) :=
  match cs.dropWhile (· ≠ '=') with
  | _ :: value => (cs.takeWhile (· ≠ '='), some value)
  | [] => (cs, none)

def otherwise (text : String) : CommandWord :=
  if isNegativeNumber text.toList || text.toList.contains ' ' then plain text else unknown text

def classify (text : String) : Except UsageError CommandWord :=
  match text.toList with
  | '-' :: second :: rest =>
    let (name, joined) := splitEquals text.toList
    match Flag.spellings.lookup text, Flag.spellings.lookup (String.ofList name), joined with
    | some f, _, _ => .ok (flag f (second ≠ '-') none)
    | none, some f, some value => .ok (flag f (second ≠ '-') (some value))
    | none, _, _ =>
      if second = '-' then
        match Flag.spellings.filter fun (spelling, _) => name.isPrefixOf spelling.toList with
        | [] => .ok (otherwise text)
        | [(_, f)] => .ok (flag f false joined)
        | several => .error (.ambiguous text (several.map Prod.fst))
      else
        match Flag.spellings.lookup (String.ofList ['-', second]) with
        | some f => .ok (flag f true (some rest))
        | none => .ok (otherwise text)
  | _ => .ok (plain text)

end CommandWord

def classifyAll : List String → Except UsageError (List CommandWord)
  | [] => .ok []
  | word :: rest =>
    if word = "--" then .ok (.separator :: rest.map .plain)
    else do
      let first ← CommandWord.classify word
      let later ← classifyAll rest
      .ok (first :: later)

structure Understood where
  sources : Option (List String)
  output : Option String
  inPlace : Bool
  json : Bool
  verbose : Bool
  help : Bool
  surplus : List String
  deriving Repr, DecidableEq

namespace Understood

def nothing : Understood := ⟨none, none, false, false, false, false, []⟩

def has (u : Understood) : Flag → Bool
  | .output => u.output.isSome
  | .inPlace => u.inPlace
  | .json => u.json
  | .verbose => u.verbose
  | .help => u.help

def set (u : Understood) (f : Flag) (value : String) : Except UsageError Understood :=
  if u.help then .ok u
  else match f.rival.filter u.has with
    | some other => .error (.conflict f other)
    | none => .ok <| match f with
      | .output => { u with output := some value }
      | .inPlace => { u with inPlace := true }
      | .json => { u with json := true }
      | .verbose => { u with verbose := true }
      | .help => { u with help := true }

def setAll (u : Understood) : List (Flag × String) → Except UsageError Understood
  | [] => .ok u
  | (f, value) :: rest => (u.set f value).bind fun next => next.setAll rest

def refuse (u : Understood) (words : List String) : Understood :=
  { u with surplus := u.surplus ++ words }

-- A stretch of words that are no options. The first one with more than a separator in it names the sources.
def takeStretch (u : Understood) (words : List CommandWord) : Understood :=
  if u.sources.isNone && words.any CommandWord.isPlain then
    { u with sources := some ((words.erase .separator).map CommandWord.text) }
  else u.refuse (words.map CommandWord.text)

end Understood

structure Cluster where
  settings : List (Flag × String)
  wanting : Option Flag
  deriving Repr, DecidableEq

def cluster (f : Flag) : List Char → Except UsageError Cluster
  | [] => .ok (if f.takesValue then ⟨[], some f⟩ else ⟨[(f, "")], none⟩)
  | c :: rest =>
    if f.takesValue then .ok ⟨[(f, String.ofList (c :: rest))], none⟩
    else match Flag.spellings.lookup (String.ofList ['-', c]) with
      | none => .error (.ignoredValue f (String.ofList (c :: rest)))
      | some next =>
        (cluster next rest).map fun inner => { inner with settings := (f, "") :: inner.settings }

-- What one option word sets. A long option takes what is joined to it whole, and so does every option when that is
-- empty.
def settingsOf (f : Flag) (isShort : Bool) (joined : Option (List Char)) :
    Except UsageError Cluster :=
  match joined with
  | none => cluster f []
  | some value =>
    if f.takesValue then .ok ⟨[(f, String.ofList value)], none⟩
    else if isShort && !value.isEmpty then cluster f value
    else .error (.ignoredValue f (String.ofList value))

def understand (u : Understood) (stretch : List CommandWord) :
    List CommandWord → Except UsageError Understood
  | [] => .ok (u.takeStretch stretch)
  | .plain text :: rest => understand u (stretch ++ [.plain text]) rest
  | .separator :: rest => understand u (stretch ++ [.separator]) rest
  | .unknown text :: rest => understand ((u.takeStretch stretch).refuse [text]) [] rest
  | .flag f isShort joined :: rest =>
    match settingsOf f isShort joined with
    | .error e => .error e
    | .ok ⟨settings, none⟩ =>
      ((u.takeStretch stretch).setAll settings).bind fun next =>
        if next.help then .ok next else understand next [] rest
    | .ok ⟨settings, some wanting⟩ =>
      match rest with
      | .plain value :: later =>
        ((u.takeStretch stretch).setAll (settings ++ [(wanting, value)])).bind fun next =>
          if next.help then .ok next else understand next [] later
      | _ => .error (.expectedValue wanting)

inductive Destination where
  | shown
  | inPlace
  | file (name : FileName)
  | nameless
  deriving Repr, DecidableEq

-- The destination that the value of an output option gives. Two dashes are a separator even when they are joined to
-- the option, and name nothing.
def Destination.ofOutput (value : String) : Destination :=
  if value = "--" then .nameless else .file (FileName.ofText value)

structure Invocation where
  sources : List FileName
  destination : Destination
  json : Bool
  verbose : Bool
  deriving Repr, DecidableEq

inductive Request where
  | help
  | expand (invocation : Invocation)
  deriving Repr, DecidableEq

def Understood.destination (u : Understood) : Destination :=
  if u.inPlace then .inPlace
  else match u.output with
    | some value => .ofOutput value
    | none => .shown

def Understood.request (u : Understood) : Except UsageError Request :=
  if u.help then .ok .help
  else match u.sources with
    | none => .error .sourceRequired
    | some sources =>
      if !u.surplus.isEmpty then .error (.unrecognized u.surplus)
      else if u.output.isSome && sources.length > 1 then .error .severalSources
      else .ok <| .expand
        { sources := sources.map FileName.ofText
          destination := u.destination
          json := u.json
          verbose := u.verbose }

def Request.ofArguments (arguments : List String) : Except UsageError Request := do
  let words ← classifyAll arguments
  let understood ← understand .nothing [] words
  understood.request

end Deasync
