import Deasync.Delimiter
import Deasync.Token.Lexer

namespace Deasync

structure Argument where
  text : String
  span : Span
  deriving Repr, DecidableEq

structure AttributeSite where
  path : String
  start : Nat
  stop : Nat
  nextStart : Nat
  argument : Option Argument
  deriving Repr, DecidableEq

inductive ItemKeyword where
  | function | contract | implementation | typeAlias | constant
  | record | enumeration | overlay | submodule | static | inclusion | macroRules | binding
  deriving Repr, DecidableEq

namespace ItemKeyword

def spelling : ItemKeyword → String
  | function => "fn" | contract => "trait" | implementation => "impl" | typeAlias => "type"
  | constant => "const" | record => "struct" | enumeration => "enum" | overlay => "union"
  | submodule => "mod" | static => "static" | inclusion => "use" | macroRules => "macro_rules"
  | binding => "let"

def contextual : List (String × ItemKeyword) :=
  [record, enumeration, overlay, submodule, static, inclusion, macroRules, binding].map
    fun k => (k.spelling, k)

def endsAtSemicolon : ItemKeyword → Bool
  | constant | static | typeAlias | inclusion | binding => true
  | _ => false

def carriesLifetimes : ItemKeyword → Bool
  | typeAlias | record | enumeration | overlay => true
  | _ => false

-- The keyword that `token` is, with `later` behind it. A `const` in front of a function is a qualifier and no
-- keyword.
def of? (token : Token) (later : List Token) : Option ItemKeyword :=
  match token.kind with
  | .fnWord => some function
  | .traitWord => some contract
  | .implWord => some implementation
  | .typeWord => some typeAlias
  | .constWord =>
    match later with
    | next :: _ => if next.kind = .ident ∨ next.kind = .underscore then some constant else none
    | [] => none
  | .ident => contextual.lookup token.text
  | _ => none

end ItemKeyword

structure OutlineItem where
  start : Nat
  stop : Nat
  keyword : Option ItemKeyword
  name : Option String
  attributes : List AttributeSite
  deriving Repr, DecidableEq

def drivingPaths : List String :=
  ["async_trait", "async_trait::async_trait", "::async_trait::async_trait"]

def OutlineItem.driving? (item : OutlineItem) : Option AttributeSite :=
  item.attributes.find? (drivingPaths.contains ·.path)

abbrev Carriers := List (String × Nat)

def Carriers.arity? (carriers : Carriers) (name : String) : Option Nat := carriers.reverse.lookup name

structure Outline where
  items : List OutlineItem
  carriers : Carriers
  deriving Repr, DecidableEq

namespace Outline

def empty : Outline := ⟨[], []⟩

def append (a b : Outline) : Outline := ⟨a.items ++ b.items, a.carriers ++ b.carriers⟩

def annotated (o : Outline) : List OutlineItem := o.items.filter (·.driving?.isSome)

end Outline

def pathWords : List Token → List String × List Token
  | [] => ([], [])
  | token :: later =>
    if token.kind.isWord then
      match later with
      | next :: rest =>
        if next.kind = .pathSep then
          let (words, behind) := pathWords rest
          (token.text :: words, behind)
        else ([token.text], next :: rest)
      | [] => ([token.text], [])
    else ([], token :: later)

def attributePath (inside : List Token) : String × List Token :=
  let (lead, rest) := match inside with
    | token :: later => if token.kind = .pathSep then ("::", later) else ("", inside)
    | [] => ("", [])
  let (words, behind) := pathWords rest
  (lead ++ "::".intercalate words, behind)

-- The argument of an attribute: the inside of a group behind its path, or else everything up to the closing
-- bracket.
def attributeArgument (text : String) (close : Token) : List Token → Except Fault (Option Argument)
  | [] => .ok none
  | token :: later =>
    let cut (start stop : Nat) : Option Argument :=
      some ⟨Text.slice text start stop, .between text start stop none⟩
    if token.kind.isOpener then
      (closing token later).map fun group => cut token.extent.stop group.closer.extent.start
    else .ok (cut token.extent.start close.extent.start)

-- The attribute whose hash mark is `hash` and whose brackets are `group`. `behind` is the token behind the tokens
-- at hand, if there is one.
def attributeSite (text : String) (behind : Option Token) (hash : Token) (group : Closing) :
    Except Fault AttributeSite :=
  let (path, rest) := attributePath group.before.tail
  (attributeArgument text group.closer rest).map fun argument =>
    { path := path
      start := hash.extent.start
      stop := group.closer.extent.stop
      nextStart := match group.after.head?.or behind with
        | some next => next.extent.start
        | none => group.closer.extent.stop
      argument := argument }

def leadingAttributes (text : String) (behind : Option Token) :
    List Token → Except Fault (List AttributeSite × List Token)
  | [] => .ok ([], [])
  | token :: later =>
    if token.kind.isDoc then leadingAttributes text behind later
    else if token.kind = .hash then
      match later with
      | [] => .ok ([], [token])
      | second :: rest =>
        if second.kind = .openSquare then
          match _closed : closing second rest with
          | .error fault => .error fault
          | .ok group =>
            match attributeSite text behind token group with
            | .error fault => .error fault
            | .ok site =>
              (leadingAttributes text behind group.after).map fun (sites, after) =>
                (site :: sites, after)
        else .ok ([], token :: second :: rest)
    else .ok ([], token :: later)
  termination_by tokens => tokens.length
  decreasing_by
    all_goals first
      | (simp only [List.length_cons]; omega)
      | (have shorter := closing_after_length _closed; simp only [List.length_cons]; omega)

-- The tokens of an item, what they declare, the inside of its module braces with the brace that closes them, and
-- the tokens behind the item.
structure Stretch where
  tokens : List Token
  keyword : Option ItemKeyword
  declared : Option (String × List Token)
  inside : Option (List Token × Token)
  rest : List Token
  deriving Repr, DecidableEq

-- What a keyword in front of `later` declares; `own` are those of the tokens `later` that belong to the item.
def declaredBy (later own : List Token) : Option (String × List Token) :=
  match later with
  | next :: _ => if next.kind = .ident then some (next.text, own.tail) else none
  | [] => none

def insideOf (keyword : Option ItemKeyword) (group : Closing) : Option (List Token × Token) :=
  if keyword = some .submodule then some (group.before.tail, group.closer) else none

-- Takes the tokens of one item: up to the first semicolon, or to the end of the first group in braces, unless
-- `found`, the keyword met so far, asks for a semicolon.
def takeItem (found : Option ItemKeyword) : List Token → Except Fault Stretch
  | [] => .ok ⟨[], found, none, none, []⟩
  | token :: later =>
    if token.kind = .semicolon then .ok ⟨[token], found, none, none, later⟩
    else if token.kind.isOpener then
      match _closed : closing token later with
      | .error fault => .error fault
      | .ok group =>
        let own := group.before ++ [group.closer]
        if token.kind = .openCurly && !found.any ItemKeyword.endsAtSemicolon then
          .ok ⟨own, found, none, insideOf found group, group.after⟩
        else (takeItem found group.after).map fun s => { s with tokens := own ++ s.tokens }
    else
      match found with
      | some _ => (takeItem found later).map fun s => { s with tokens := token :: s.tokens }
      | none =>
        match ItemKeyword.of? token later with
        | none => (takeItem none later).map fun s => { s with tokens := token :: s.tokens }
        | some keyword =>
          (takeItem (some keyword) later).map fun s =>
            { s with tokens := token :: s.tokens, declared := declaredBy later s.tokens }
  termination_by tokens => tokens.length
  decreasing_by
    all_goals first
      | (simp only [List.length_cons]; omega)
      | (have shorter := closing_after_length _closed; simp only [List.length_cons]; omega)

-- Counts the lifetimes that stand first in a list of generic parameters or behind a comma of it, from inside its
-- brackets on. `depth` counts the open brackets and `previous` is the kind of the token in front.
def countLifetimes (depth : Nat) (previous : Kind) : List Token → Nat
  | [] => 0
  | token :: later =>
    match token.kind with
    | .less => countLifetimes (depth + 1) .less later
    | .greater => if depth ≤ 1 then 0 else countLifetimes (depth - 1) .greater later
    | .lifetime =>
      let counted := if depth = 1 ∧ (previous = .less ∨ previous = .comma) then 1 else 0
      counted + countLifetimes depth .lifetime later
    | kind => countLifetimes depth kind later

def lifetimeArity : List Token → Nat
  | token :: later => if token.kind = .less then countLifetimes 1 .less later else 0
  | [] => 0

def carrierOf (keyword : Option ItemKeyword) (declared : Option (String × List Token)) : Carriers :=
  match declared with
  | some (name, behind) =>
    let arity := lifetimeArity behind
    if keyword.any ItemKeyword.carriesLifetimes && arity != 0 then [(name, arity)] else []
  | none => []

-- The brackets of an inner attribute `#![..]` in front: the opening one and the tokens behind it.
def innerBracket? : List Token → Option (Token × List Token)
  | hash :: bang :: bracket :: rest =>
    if hash.kind = .hash ∧ bang.kind = .bang ∧ bracket.kind = .openSquare then some (bracket, rest)
    else none
  | _ => none

theorem Closing.tail_before_length {first : Token} {later : List Token} {c : Closing}
    (closed : closing first later = .ok c) : c.before.tail.length ≤ later.length := by
  have split := congrArg List.length (closing_split closed)
  simp only [List.length_append, List.length_cons] at split
  simp only [List.length_tail]
  omega

theorem leadingAttributes_length {text : String} {behind : Option Token} {tokens : List Token}
    {sites : List AttributeSite} {rest : List Token}
    (led : leadingAttributes text behind tokens = .ok (sites, rest)) :
    rest.length ≤ tokens.length := by
  fun_induction leadingAttributes text behind tokens generalizing sites rest with
  | case1 => cases led; simp
  | case2 token later doc ih => have shorter := ih led; simp only [List.length_cons]; omega
  | case3 => cases led; simp
  | case4 => cases led
  | case5 => cases led
  | case6 token doc hash second rest' square group closed site found ih =>
    cases next : leadingAttributes text behind group.after with
    | error fault => rw [next] at led; cases led
    | ok pair =>
      obtain ⟨others, after⟩ := pair
      rw [next] at led
      cases led
      have shorter := ih next
      have bound := closing_after_length closed
      simp only [List.length_cons]
      omega
  | case7 => cases led; simp
  | case8 => cases led; simp

theorem innerBracket?_length {tokens : List Token} {bracket : Token} {rest : List Token}
    (found : innerBracket? tokens = some (bracket, rest)) : rest.length + 3 = tokens.length := by
  unfold innerBracket? at found
  split at found
  · split at found
    · cases found; rfl
    · cases found
  · cases found

def Stretch.Within (s : Stretch) (most : Nat) : Prop :=
  s.rest.length ≤ most ∧ ∀ pair, s.inside = some pair → pair.1.length ≤ most

theorem Stretch.within_map {result : Except Fault Stretch} {change : Stretch → Stretch}
    {s : Stretch} {fewer most : Nat} (mapped : result.map change = .ok s)
    (within : ∀ r, result = .ok r → r.Within fewer) (bound : fewer ≤ most)
    (keeps : ∀ r, (change r).rest = r.rest ∧ (change r).inside = r.inside) :
    s.Within most := by
  cases result with
  | error fault => cases mapped
  | ok r =>
    cases mapped
    obtain ⟨rest, inside⟩ := within r rfl
    refine ⟨?_, fun pair equal => ?_⟩
    · rw [(keeps r).1]; omega
    · have shorter := inside pair ((keeps r).2 ▸ equal); omega

theorem takeItem_within {found : Option ItemKeyword} {tokens : List Token} {s : Stretch}
    (taken : takeItem found tokens = .ok s) : s.Within (tokens.length - 1) := by
  fun_induction takeItem found tokens generalizing s with
  | case1 => cases taken; simp [Stretch.Within]
  | case2 => cases taken; simp [Stretch.Within]
  | case3 => cases taken
  | case4 found token later semicolon opener group closed ends =>
    cases taken
    have after := closing_after_length closed
    have before := Closing.tail_before_length closed
    refine ⟨after, fun pair equal => ?_⟩
    unfold insideOf at equal
    split at equal
    · cases equal; exact before
    · cases equal
  | case5 found token later semicolon opener group closed own ends =>
    rename_i ih
    have after := closing_after_length closed
    exact Stretch.within_map taken (fun r => ih) (by simp only [List.length_cons]; omega)
      fun _ => ⟨rfl, rfl⟩
  | case6 token later semicolon opener keyword ih =>
    exact Stretch.within_map taken (fun r => ih) (by simp only [List.length_cons]; omega)
      fun _ => ⟨rfl, rfl⟩
  | case7 token later semicolon opener none ih =>
    exact Stretch.within_map taken (fun r => ih) (by simp only [List.length_cons]; omega)
      fun _ => ⟨rfl, rfl⟩
  | case8 token later semicolon opener keyword some ih =>
    exact Stretch.within_map taken (fun r => ih) (by simp only [List.length_cons]; omega)
      fun _ => ⟨rfl, rfl⟩

def outlineItem (first : Token) (attributes : List AttributeSite) (s : Stretch) : OutlineItem where
  start := first.extent.start
  stop := (s.tokens.getLast?.getD first).extent.stop
  keyword := s.keyword
  name := s.declared.map Prod.fst
  attributes := attributes

-- The outline of the tokens of one level: a file, or the inside of a module. The items inside a module come before
-- it.
def outlineLevel (text : String) (behind : Option Token) (tokens : List Token) :
    Except Fault Outline :=
  match tokens with
  | [] => .ok .empty
  | first :: others =>
    match _led : leadingAttributes text behind (first :: others) with
    | .error fault => .error fault
    | .ok (_, []) => .ok .empty
    | .ok (attributes, token :: later) =>
      match _inner : innerBracket? (token :: later) with
      | some (bracket, rest) =>
        match _closed : closing bracket rest with
        | .error fault => .error fault
        | .ok group => outlineLevel text behind group.after
      | none =>
        if token.kind.isCloser then
          .error ⟨.unexpectedCloser token.text, .ofExtent token.extent⟩
        else
          match _taken : takeItem none (token :: later) with
          | .error fault => .error fault
          | .ok s =>
            let here : Outline := ⟨[outlineItem first attributes s], carrierOf s.keyword s.declared⟩
            match _inside : s.inside with
            | none => (outlineLevel text behind s.rest).map here.append
            | some (inside, close) =>
              match outlineLevel text (some close) inside with
              | .error fault => .error fault
              | .ok within => (outlineLevel text behind s.rest).map (within.append here).append
  termination_by tokens.length
  decreasing_by
    · have led := leadingAttributes_length _led
      have inner := innerBracket?_length _inner
      have shorter := closing_after_length _closed
      simp only [List.length_cons] at led inner ⊢
      omega
    · have led := leadingAttributes_length _led
      have bound := (takeItem_within _taken).1
      simp only [List.length_cons] at led bound ⊢
      omega
    · have led := leadingAttributes_length _led
      have bound := (takeItem_within _taken).2 _ _inside
      simp only [List.length_cons] at led bound ⊢
      omega
    · have led := leadingAttributes_length _led
      have bound := (takeItem_within _taken).1
      simp only [List.length_cons] at led bound ⊢
      omega

def Outline.ofText (text : String) : Except Fault Outline := do
  let tokens ← lex text
  outlineLevel text none tokens

end Deasync
