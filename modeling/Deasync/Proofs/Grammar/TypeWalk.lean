import Deasync.Proofs.Grammar.Balance
import Deasync.Proofs.Grammar.Determinacy

namespace Deasync

open Grammar

-- What the innermost brackets hold: nothing but a type (`bare`), an argument, the inputs of a call, one
-- type, several, the element of a slice, the arguments of a name, or the start of a qualified path.
inductive Role where
  | bare | argument | call | round | tuple | square | angled | qualified
  deriving DecidableEq

-- What was read last. A type is expected behind `fresh`, `comma` and `reference`.
inductive Last where
  | fresh | comma | reference | name | separator | done | bang | fn | binder
  deriving DecidableEq

-- Token trees, array lengths and the parameters of a binder are passed over.
inductive Spot where
  | tree | length | params
  | typed (role : Role) (last : Last)
  deriving DecidableEq

namespace Spot

def passed (k : Kind) (here : Spot) : Move Spot :=
  match k.closer? with
  | some closer => .enter closer tree here
  | none => if k.isCloser then .leave else .stay here

def typeMove (role : Role) (last : Last) (k : Kind) : Move Spot :=
  match k with
  | .ident | .selfWord => .stay (typed role .name)
  | .pathSep => .stay (typed role .separator)
  | .less =>
    match last with
    | .name | .separator => .enter .greater (typed .angled .fresh) (typed role .done)
    | .binder => .enter .greater params (typed role .fresh)
    | _ => .enter .greater (typed .qualified .fresh) (typed role .done)
  | .openRound =>
    match last with
    | .name => .enter .closeRound (typed .call .fresh) (typed role .done)
    | .bang | .fn => .enter .closeRound tree (typed role .done)
    | _ => .enter .closeRound (typed .round .fresh) (typed role .done)
  | .openSquare =>
    .enter .closeSquare (if last = .bang then tree else typed .square .fresh) (typed role .done)
  | .openCurly => .enter .closeCurly tree (typed role .done)
  | .greater | .closeRound | .closeSquare | .closeCurly => .leave
  | .comma =>
    match role with
    | .call | .angled => .stay (typed role .comma)
    | .round | .tuple => .stay (typed .tuple .comma)
    | _ => .stop
  | .semicolon => if role = .square then .stay length else .stop
  | .asWord => if role = .qualified then .stay (typed role .fresh) else .stop
  | .equal | .colon => if role = .angled ∨ role = .argument then .stay (typed role .fresh) else .stop
  | .ampersand | .ampersands => .stay (typed role .reference)
  | .lifetime => .stay (typed role (if last = .reference then .fresh else .done))
  | .bang => .stay (typed role (if last = .name ∨ last = .done then .bang else .done))
  | .underscore | .number => .stay (typed role .done)
  | .fnWord => .stay (typed role .fn)
  | .forWord => .stay (typed role .binder)
  | .plus | .question | .arrow | .star | .constWord | .mutWord | .dynWord | .implWord | .unsafeWord
  | .externWord | .string => .stay (typed role .fresh)
  | _ => .stop

def move : Spot → Kind → Move Spot
  | tree, k => passed k tree
  | length, k => if k = .semicolon then .stop else passed k length
  | params, k =>
    match k with
    | .less => .enter .greater params params
    | .greater => .leave
    | k => passed k params
  | typed role last, k => typeMove role last k

def roles : List Role := [.bare, .argument, .call, .round, .tuple, .square, .angled, .qualified]

def spots (roles : List Role) (lasts : List Last) : List Spot :=
  roles.flatMap fun role => lasts.map (typed role)

def starting : List Last := [.fresh, .comma, .reference]

def ending : List Last := [.name, .done]

-- What is read last in front of a nonterminal, and what behind it.
def lasts : Nonterminal → List Last × List Last
  | .delimited => ([.bang], [.done])
  | .abi | .binder => (starting, [.fresh])
  | .genericArgs => ([.name, .separator], [.done])
  | .segment => (starting ++ [.separator], ending)
  | .pathTail | .boundTail => (ending, ending)
  | .path | .qualifiedPath | .functionPointer | .plainType | .type => (starting, ending)
  | .bound | .bounds => ([.fresh], ending)
  | .genericParams => ([.binder], [.fresh])
  | .plainOutput => ([.done], ending)
  | _ => ([], [])

def entries (n : Nonterminal) : List Spot :=
  match n with
  | .tree => [tree]
  | .constTree | .constTrees | .arrayLength => [tree, length]
  | .delimited => [tree, length, params] ++ spots roles [.bang]
  | .outerAttribute | .outerAttributes | .lifetimeBounds | .colonLifetimes | .constValue
  | .equalsConst | .colonBounds | .equalsType | .genericParam | .genericParamList => [tree, params]
  | .asPath => [tree, params] ++ spots [.qualified] ending
  | .typeList => [tree, params] ++ spots [.call] [.fresh, .comma] ++ [typed .tuple .comma]
  | .genericArg => [tree, params] ++ spots [.angled, .argument] [.fresh, .comma]
  | .genericArgList => [tree, params] ++ spots [.angled] [.fresh, .comma]
  | .abi | .genericArgs | .segment | .pathTail | .path | .qualifiedPath | .genericParams | .binder
  | .plainOutput | .functionPointer | .plainType | .bound | .boundTail | .bounds | .type =>
    [tree, params] ++ spots roles (lasts n).1
  | _ => []

def exits (n : Nonterminal) (entry : Spot) : List Spot :=
  match entry with
  | typed role _ =>
    match n with
    | .typeList | .genericArgList => spots [role] (ending ++ [.comma])
    | .asPath | .genericArg => spots [role] ending
    | n => spots [role] (lasts n).2
  | other => [other]

def contract : Contract Nonterminal Spot where
  depth := delimiters.depth
  entries n :=
    match n with
    | .members => []
    | n =>
      match n.closer? with
      | some k => ([tree, length, params] ++ spots roles [.done]).map fun back => (tree, [(k, back)])
      | none => (entries n).map (·, [])
  exits n entry :=
    match entry.2 with
    | (_, back) :: _ => [(back, [])]
    | [] => (exits n entry.1).map (·, [])

theorem contract_kept (n : Nonterminal) : contract.checks move declarations n := by
  cases n <;> decide +kernel

-- Where a walk over a nonterminal is begun to see which kinds end it.
def sealing : Nonterminal → Option Spot
  | .type | .plainType | .path | .bounds => some (typed .bare .fresh)
  | .genericArgs => some (typed .bare .name)
  | .asPath => some (typed .qualified .name)
  | .genericArg => some (typed .argument .fresh)
  | .typeList => some (typed .call .fresh)
  | .genericArgList => some (typed .angled .fresh)
  | .genericParamList => some params
  | .arrayLength => some length
  | _ => none

def punctuation : List Kind :=
  [.comma, .semicolon, .equal, .colon, .asWord, .greater, .closeRound, .closeSquare, .closeCurly]

def seals (n : Nonterminal) : List Kind :=
  (sealing n).toList.flatMap fun entry => punctuation.filter fun k =>
    (exits n entry).all fun exit => (walkStep move (exit, []) k).isNone

-- The walks that seals come from are begun where the nonterminals may be.
def sealed (n : Nonterminal) : Bool :=
  (sealing n).toList.all fun entry => (entry, []) ∈ contract.entries n ∧
    contract.exits n (entry, []) = (exits n entry).map (·, [])

theorem sealed_all (n : Nonterminal) : sealed n := by
  cases n <;> decide +kernel

theorem seals_sound {n : Nonterminal} {k : Kind} (listed : k ∈ seals n) {ks ls : List Kind}
    (complete : declarations.Spells n ks) : ¬declarations.Spells n (ks ++ k :: ls) := by
  intro longer
  obtain ⟨entry, begun, kept⟩ := List.mem_flatMap.mp listed
  obtain ⟨accepted, same⟩ := of_decide_eq_true (List.all_eq_true.mp (sealed_all n) entry begun)
  obtain ⟨place, found, walked⟩ := Contract.walks contract_kept complete _ accepted
  rw [same] at found
  obtain ⟨exit, left, rfl⟩ := List.mem_map.mp found
  have stuck := List.all_eq_true.mp (List.mem_filter.mp kept).2 exit left
  obtain ⟨last, _, onward⟩ := Contract.walks contract_kept longer _ accepted
  rw [walk_append, walked, Option.bind_some, walk, Option.isNone_iff_eq_none.mp stuck] at onward
  cases onward

end Spot

theorem genericParams_inside {ks : List Kind} (spelled : declarations.Spells .genericParams ks) :
    ∃ mid, ks = .less :: (mid ++ [.greater]) ∧
      walk Spot.move (.params, []) mid = some (.params, []) := by
  obtain ⟨rhs, listed, all⟩ := spells_iff_alternative.mp spelled
  have either : rhs = [.tok [.less], .tok [.greater]] ∨
      rhs = [.tok [.less], .ref .genericParamList, .tok [.greater]] := List.mem_pair.mp listed
  rcases either with rfl | rfl
  · obtain ⟨ls, rfl, rest⟩ := spellsAll_tok.mp all
    obtain ⟨ms, rfl, void⟩ := spellsAll_tok.mp rest
    obtain rfl := spellsAll_nil.mp void
    exact ⟨[], rfl, rfl⟩
  · obtain ⟨ls, rfl, rest⟩ := spellsAll_tok.mp all
    obtain ⟨mid, ms, rfl, list, last⟩ := spellsAll_cons.mp rest
    obtain ⟨none, rfl, void⟩ := spellsAll_tok.mp last
    obtain rfl := spellsAll_nil.mp void
    refine ⟨mid, rfl, ?_⟩
    obtain ⟨place, found, walked⟩ := Contract.walks Spot.contract_kept (spellsSym_ref.mp list)
      (.params, []) (by decide)
    obtain rfl := List.mem_singleton.mp found
    exact walked

-- Parameters in angle brackets end with the bracket that closes them.
theorem genericParams_closed {ks ls : List Kind} {k : Kind}
    (complete : declarations.Spells .genericParams ks) :
    ¬declarations.Spells .genericParams (ks ++ k :: ls) := by
  intro longer
  obtain ⟨mid, rfl, walked⟩ := genericParams_inside complete
  obtain ⟨more, same, onward⟩ := genericParams_inside longer
  have split : mid ++ .greater :: (k :: ls) = more ++ [.greater] := by
    simpa using same
  obtain ⟨rest, rfl⟩ : ∃ rest, more = mid ++ .greater :: rest := by
    rcases List.append_eq_append_iff.mp split with ⟨rest, rfl, ends⟩ | ⟨rest, rfl, ends⟩
    · cases rest with
      | nil => cases ends
      | cons head rest =>
        obtain ⟨rfl, _⟩ := List.cons.inj ends
        exact ⟨rest, rfl⟩
    · have length := congrArg List.length ends
      simp only [List.length_append, List.length_cons, List.length_nil] at length
      omega
  rw [walk_append, walked] at onward
  cases onward

theorem binder_closed {ks ls : List Kind} {k : Kind} (complete : declarations.Spells .binder ks) :
    ¬declarations.Spells .binder (ks ++ k :: ls) := by
  have inside {ks : List Kind} (spelled : declarations.Spells .binder ks) :
      ∃ ms, ks = .forWord :: ms ∧ declarations.Spells .genericParams ms := by
    obtain ⟨rhs, listed, all⟩ := spells_iff_alternative.mp spelled
    obtain rfl : rhs = [.tok [.forWord], .ref .genericParams] := List.mem_singleton.mp listed
    obtain ⟨ms, rfl, rest⟩ := spellsAll_tok.mp all
    exact ⟨ms, rfl, spellsAll_ref_one.mp rest⟩
  intro longer
  obtain ⟨ms, rfl, params⟩ := inside complete
  obtain ⟨others, same, more⟩ := inside longer
  cases same
  exact genericParams_closed params more

-- What a type begins with, less the words in front of bounds.
def plainStarts : List Kind :=
  [.openRound, .ampersand, .ampersands, .star, .openSquare, .bang, .underscore, .pathSep, .ident,
   .selfWord, .less, .forWord, .unsafeWord, .externWord, .fnWord]

def typeStarts : List Kind := plainStarts ++ [.implWord, .dynWord]

def attributeStarts : List Kind := [.docLine, .docBlock, .hash]

def patternStarts : List Kind :=
  [.ident, .mutWord, .underscore, .number, .string, .char, .ampersand, .ampersands, .pathSep, .dotDot,
   .openRound, .openSquare, .openCurly]

def signatureStarts : List Kind :=
  [.pubWord, .ident, .constWord, .asyncWord, .unsafeWord, .externWord, .fnWord]

def anyStarts : List Kind :=
  Rules.treeKinds ++ [.semicolon, .openRound, .openSquare, .openCurly, .closeRound, .closeSquare,
    .closeCurly]

def Nonterminal.starts : Nonterminal → List Kind
  | delimited => [.openRound, .openSquare, .openCurly]
  | tree | roundRest | squareRest | curlyRest | constTree | constTrees | arrayLength => anyStarts
  | outerAttribute | outerAttributes => attributeStarts
  | scope => [.openRound]
  | visibility => [.pubWord]
  | abi => [.externWord]
  | lifetimeBounds => [.lifetime]
  | colonLifetimes | colonBounds => [.colon]
  | constValue => [.openRound, .openSquare, .openCurly, .ident, .number, .char, .string, .otherPunct]
  | equalsConst | equalsType | equalsTrees => [.equal]
  | genericArgs | qualifiedPath | genericParams => [.less]
  | segment => [.ident, .selfWord]
  | pathTail => [.pathSep]
  | path => [.pathSep, .ident, .selfWord]
  | asPath => [.asWord]
  | binder => [.forWord]
  | plainOutput | output => [.arrow]
  | functionPointer => [.forWord, .unsafeWord, .externWord, .fnWord]
  | plainType => plainStarts
  | bound | bounds => [.lifetime, .question, .forWord, .pathSep, .ident, .selfWord, .openRound]
  | boundTail => [.plus]
  | type | typeList => typeStarts
  | genericArg | genericArgList => [.lifetime, .openCurly, .number] ++ typeStarts
  | genericParam | genericParamList => attributeStarts ++ [.lifetime, .constWord, .ident]
  | wherePredicate | wherePredicates => .lifetime :: typeStarts
  | whereClause => [.whereWord]
  | patternAtom | pattern => patternStarts
  | param | paramList => attributeStarts ++ patternStarts
  | selfParam => attributeStarts ++ [.ampersand, .mutWord, .selfWord]
  | params => .selfWord :: attributeStarts ++ patternStarts
  | signature => signatureStarts
  | block => [.openCurly]
  | body => [.openCurly, .semicolon]
  | method => attributeStarts ++ signatureStarts
  | associated => attributeStarts ++ [.pubWord, .typeWord, .constWord, .pathSep, .ident, .selfWord]
  | member => attributeStarts ++ signatureStarts ++ [.typeWord, .pathSep, .selfWord]
  | members => .closeCurly :: attributeStarts ++ signatureStarts ++ [.typeWord, .pathSep, .selfWord]
  | implemented => typeStarts
  | declaration => attributeStarts ++ [.pubWord, .unsafeWord, .traitWord, .implWord]

def declarationGuide : Guide Nonterminal where
  empty := Nonterminal.isEmpty
  starts := Nonterminal.starts
  seals n := if n = .binder then Nonterminal.starts .path else Spot.seals n

theorem declarationGuide_right : declarationGuide.Right declarations where
  ranked := declarations_ranked
  begins := by
    intro n
    cases n <;> decide +kernel
  closed := by
    intro n k listed ks ls complete
    simp only [declarationGuide] at listed
    split at listed
    · rename_i same
      subst same
      exact binder_closed complete
    · exact Spot.seals_sound listed complete

end Deasync
