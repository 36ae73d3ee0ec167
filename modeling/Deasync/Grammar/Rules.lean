import Deasync.Grammar.Symbol
import Deasync.Syntax.Declaration

namespace Deasync

inductive Nonterminal where
  -- token trees
  | delimited | tree | roundRest | squareRest | curlyRest | constTree | constTrees
  -- attributes and qualifiers
  | outerAttribute | outerAttributes | scope | visibility | abi
  -- pieces of generic lists
  | lifetimeBounds | colonLifetimes | constValue | equalsConst
  -- paths
  | genericArgs | segment | pathTail | path | asPath | qualifiedPath | genericParams | binder
  -- types and bounds
  | plainOutput | functionPointer | arrayLength | plainType | bound | boundTail | bounds | type
  | typeList | genericArg | genericArgList | colonBounds | equalsType | genericParam
  | genericParamList | wherePredicate | wherePredicates | whereClause
  -- functions
  | patternAtom | pattern | param | paramList | selfParam | params | output | signature | block
  | body | method
  -- declarations
  | equalsTrees | associated | member | members | implemented | declaration
  deriving Repr, DecidableEq

namespace Nonterminal

def Val : Nonterminal → Type
  | delimited | tree | roundRest | squareRest | curlyRest | constTree | constTrees | scope
  | patternAtom | equalsTrees => Unit
  | outerAttribute => Attribute
  | outerAttributes => List Attribute
  | visibility | abi | constValue | equalsConst | binder | arrayLength | pattern => String
  | lifetimeBounds | colonLifetimes => List String
  | genericArgs | genericArgList => List GenericArg
  | genericArg => GenericArg
  | segment => Segment
  | pathTail => List Segment
  | path | asPath | qualifiedPath => Path
  | genericParams => Generics
  | genericParam => GenericParam
  | genericParamList => List GenericParam
  | plainOutput | functionPointer | plainType | type | equalsType | output => Ty
  | typeList => List Ty
  | bound => Bound
  | boundTail | bounds | colonBounds => List Bound
  | wherePredicate => WherePredicate
  | wherePredicates => List WherePredicate
  | whereClause => WhereClause
  | param => Param
  | paramList => List Param
  | selfParam => SelfParam
  | params => Option SelfParam × List Param
  | signature => Signature
  | block => Block
  | body => Option Block
  | method => Method
  | associated => Associated
  | member => Member
  | members => List Member
  | implemented => Implemented
  | declaration => Declaration

end Nonterminal

namespace Rules

abbrev Rule (n : Nonterminal) := Production Nonterminal.Val n

abbrev one (k : Kind) : Sym Nonterminal := .tok [k]

abbrev may (k : Kind) : Sym Nonterminal := .maybe (.tok [k])

abbrev ref (n : Nonterminal) : Sym Nonterminal := .ref n

abbrev opt (n : Nonterminal) : Sym Nonterminal := .maybe (.ref n)

def wording (text : String) (tokens : List Token) : String := (Extent.covering tokens).slice text

abbrev skip {n : Nonterminal} (rhs : List (Sym Nonterminal)) (unit : Unit → n.Val) : Rule n :=
  ⟨rhs, fun _ _ _ => unit ()⟩

abbrev verbatim {n : Nonterminal} (rhs : List (Sym Nonterminal)) (value : String → n.Val) : Rule n :=
  ⟨rhs, fun text w _ => value (wording text w)⟩

def treeKinds : List Kind :=
  [.ident, .lifetime, .char, .string, .rawString, .number, .docLine, .docBlock, .otherPunct,
   .fnWord, .asyncWord, .pubWord, .traitWord, .implWord, .forWord, .whereWord, .unsafeWord,
   .externWord, .constWord, .typeWord, .mutWord, .dynWord, .selfWord, .asWord, .underscore,
   .arrow, .fatArrow, .pathSep, .ampersands, .dotDot, .less, .greater, .comma, .colon, .ampersand,
   .equal, .plus, .question, .bang, .hash, .star, .dot]

def delimitedRules : List (Rule .delimited) :=
  [skip [one .openRound, ref .roundRest] id,
   skip [one .openSquare, ref .squareRest] id,
   skip [one .openCurly, ref .curlyRest] id]

def treeRules : List (Rule .tree) :=
  [skip [ref .delimited] id, skip [.tok treeKinds] id, skip [one .semicolon] id]

def roundRestRules : List (Rule .roundRest) :=
  [skip [one .closeRound] id, skip [ref .tree, ref .roundRest] id]

def squareRestRules : List (Rule .squareRest) :=
  [skip [one .closeSquare] id, skip [ref .tree, ref .squareRest] id]

def curlyRestRules : List (Rule .curlyRest) :=
  [skip [one .closeCurly] id, skip [ref .tree, ref .curlyRest] id]

def constTreeRules : List (Rule .constTree) :=
  [skip [ref .delimited] id, skip [.tok treeKinds] id]

def constTreesRules : List (Rule .constTrees) :=
  [skip [ref .constTree, ref .constTrees] id, skip [ref .constTree] id]

def outerAttributeRules : List (Rule .outerAttribute) :=
  [⟨[.tok [.docLine, .docBlock]], fun text w _ => ⟨wording text w, true, .covering w⟩⟩,
   ⟨[one .hash, one .openSquare, ref .squareRest],
    fun text w _ => ⟨wording text w, false, .covering w⟩⟩]

def outerAttributesRules : List (Rule .outerAttributes) :=
  [⟨[ref .outerAttribute, ref .outerAttributes], fun _ _ ⟨first, rest, _⟩ => first :: rest⟩,
   ⟨[], fun _ _ _ => []⟩]

def scopeRules : List (Rule .scope) := [skip [one .openRound, ref .roundRest] id]

def visibilityRules : List (Rule .visibility) := [verbatim [one .pubWord, opt .scope] id]

def abiRules : List (Rule .abi) := [verbatim [one .externWord, may .string] id]

def lifetimeBoundsRules : List (Rule .lifetimeBounds) :=
  [⟨[one .lifetime, one .plus, ref .lifetimeBounds], fun _ _ ⟨first, _, rest, _⟩ => first.text :: rest⟩,
   ⟨[one .lifetime], fun _ _ ⟨first, _⟩ => [first.text]⟩]

def colonLifetimesRules : List (Rule .colonLifetimes) :=
  [⟨[one .colon, opt .lifetimeBounds], fun _ _ ⟨_, bounds, _⟩ => bounds.getD []⟩]

def constValueRules : List (Rule .constValue) :=
  [verbatim [ref .delimited] id,
   verbatim [.tok [.ident, .number, .char, .string]] id,
   verbatim [one .otherPunct, one .number] id]

def equalsConstRules : List (Rule .equalsConst) :=
  [⟨[one .equal, ref .constValue], fun _ _ ⟨_, value, _⟩ => value⟩]

def genericArgsRules : List (Rule .genericArgs) :=
  [⟨[one .less, one .greater], fun _ _ _ => []⟩,
   ⟨[one .less, ref .genericArgList, one .greater], fun _ _ ⟨_, arguments, _⟩ => arguments⟩]

def segmentRules : List (Rule .segment) :=
  [⟨[.tok [.ident, .selfWord], opt .genericArgs], fun _ _ ⟨name, arguments, _⟩ =>
      match arguments with
      | some list => .angled name.text false list
      | none => .plain name.text⟩,
   ⟨[.tok [.ident, .selfWord], one .pathSep, ref .genericArgs],
    fun _ _ ⟨name, _, arguments, _⟩ => .angled name.text true arguments⟩,
   ⟨[one .ident, one .openRound, opt .typeList, one .closeRound, opt .plainOutput],
    fun _ _ ⟨name, _, inputs, _, output, _⟩ => .call name.text (inputs.getD []) output⟩]

def pathTailRules : List (Rule .pathTail) :=
  [⟨[one .pathSep, ref .segment], fun _ _ ⟨_, only, _⟩ => [only]⟩,
   ⟨[one .pathSep, ref .segment, ref .pathTail], fun _ _ ⟨_, first, rest, _⟩ => first :: rest⟩]

def rootOf (lead : Option Token) : Root := if lead.isSome then .global else .relative

def pathRules : List (Rule .path) :=
  [⟨[may .pathSep, ref .segment, ref .pathTail],
    fun _ w ⟨lead, head, tail, _⟩ => .mk (rootOf lead) head tail (.covering w)⟩,
   ⟨[may .pathSep, ref .segment], fun _ w ⟨lead, head, _⟩ => .mk (rootOf lead) head [] (.covering w)⟩]

def asPathRules : List (Rule .asPath) :=
  [⟨[one .asWord, ref .path], fun _ _ ⟨_, path, _⟩ => path⟩]

def qualifiedPathRules : List (Rule .qualifiedPath) :=
  [⟨[one .less, ref .type, opt .asPath, one .greater, one .pathSep, ref .segment, ref .pathTail],
    fun _ w ⟨_, ty, asTrait, _, _, head, tail, _⟩ =>
      .mk (.qualified ty asTrait) head tail (.covering w)⟩,
   ⟨[one .less, ref .type, opt .asPath, one .greater, one .pathSep, ref .segment],
    fun _ w ⟨_, ty, asTrait, _, _, head, _⟩ => .mk (.qualified ty asTrait) head [] (.covering w)⟩]

def genericParamsRules : List (Rule .genericParams) :=
  [⟨[one .less, one .greater], fun _ w _ => ⟨[], .covering w⟩⟩,
   ⟨[one .less, ref .genericParamList, one .greater],
    fun _ w ⟨_, params, _⟩ => ⟨params, .covering w⟩⟩]

def binderRules : List (Rule .binder) := [verbatim [one .forWord, ref .genericParams] id]

def plainOutputRules : List (Rule .plainOutput) :=
  [⟨[one .arrow, ref .plainType], fun _ _ ⟨_, ty, _⟩ => ty⟩]

def functionPointerRules : List (Rule .functionPointer) :=
  [⟨[opt .binder, may .unsafeWord, opt .abi, one .fnWord, one .openRound, ref .roundRest,
      opt .plainOutput],
    fun text w _ => .functionPointer (wording text w) (.covering w)⟩]

def arrayLengthRules : List (Rule .arrayLength) := [verbatim [ref .constTrees] id]

def plainTypeRules : List (Rule .plainType) :=
  [⟨[one .openRound, one .closeRound], fun _ w _ => .tuple [] (.covering w)⟩,
   ⟨[one .openRound, ref .type, one .closeRound], fun _ w ⟨_, ty, _⟩ => .paren ty (.covering w)⟩,
   ⟨[one .openRound, ref .type, one .comma, one .closeRound],
    fun _ w ⟨_, ty, _⟩ => .tuple [ty] (.covering w)⟩,
   ⟨[one .openRound, ref .type, one .comma, ref .typeList, one .closeRound],
    fun _ w ⟨_, first, _, rest, _⟩ => .tuple (first :: rest) (.covering w)⟩,
   ⟨[one .ampersand, may .lifetime, may .mutWord, ref .type], fun _ w ⟨_, name, mutable, ty, _⟩ =>
      .reference (name.map Token.text) mutable.isSome ty (.covering w)⟩,
   ⟨[one .ampersands, may .lifetime, may .mutWord, ref .type], fun _ w ⟨_, name, mutable, ty, _⟩ =>
      .reference none false
        (.reference (name.map Token.text) mutable.isSome ty (.covering w)) (.covering w)⟩,
   ⟨[one .star, .tok [.constWord, .mutWord], ref .type], fun _ w ⟨_, word, ty, _⟩ =>
      .pointer (word.kind == .mutWord) ty (.covering w)⟩,
   ⟨[one .openSquare, ref .type, one .closeSquare], fun _ w ⟨_, ty, _⟩ => .slice ty (.covering w)⟩,
   ⟨[one .openSquare, ref .type, one .semicolon, ref .arrayLength, one .closeSquare],
    fun _ w ⟨_, ty, _, length, _⟩ => .array ty length (.covering w)⟩,
   ⟨[one .bang], fun _ w _ => .never (.covering w)⟩,
   ⟨[one .underscore], fun _ w _ => .infer (.covering w)⟩,
   ⟨[ref .path], fun _ _ ⟨path, _⟩ => .path path⟩,
   ⟨[ref .qualifiedPath], fun _ _ ⟨path, _⟩ => .path path⟩,
   ⟨[ref .functionPointer], fun _ _ ⟨ty, _⟩ => ty⟩,
   ⟨[ref .path, one .bang, ref .delimited],
    fun text w _ => .macroCall (wording text w) (.covering w)⟩]

def boundRules : List (Rule .bound) :=
  [⟨[one .lifetime], fun _ _ ⟨name, _⟩ => .lifetime name.text⟩,
   ⟨[may .question, opt .binder, ref .path],
    fun _ _ ⟨maybe, binder, path, _⟩ => .trait maybe.isSome binder false path⟩,
   ⟨[one .openRound, may .question, opt .binder, ref .path, one .closeRound],
    fun _ _ ⟨_, maybe, binder, path, _⟩ => .trait maybe.isSome binder true path⟩]

def boundTailRules : List (Rule .boundTail) :=
  [⟨[one .plus, ref .bound], fun _ _ ⟨_, only, _⟩ => [only]⟩,
   ⟨[one .plus, ref .bound, ref .boundTail], fun _ _ ⟨_, first, rest, _⟩ => first :: rest⟩]

def boundsRules : List (Rule .bounds) :=
  [⟨[ref .bound, ref .boundTail], fun _ _ ⟨first, rest, _⟩ => first :: rest⟩,
   ⟨[ref .bound], fun _ _ ⟨only, _⟩ => [only]⟩]

def typeRules : List (Rule .type) :=
  [⟨[ref .plainType], fun _ _ ⟨ty, _⟩ => ty⟩,
   ⟨[one .implWord, ref .bounds], fun _ w ⟨_, bounds, _⟩ => .implTrait bounds (.covering w)⟩,
   ⟨[one .dynWord, ref .bounds], fun _ w ⟨_, bounds, _⟩ => .traitObject bounds (.covering w)⟩]

def typeListRules : List (Rule .typeList) :=
  [⟨[ref .type, one .comma, ref .typeList], fun _ _ ⟨first, _, rest, _⟩ => first :: rest⟩,
   ⟨[ref .type, one .comma], fun _ _ ⟨only, _⟩ => [only]⟩,
   ⟨[ref .type], fun _ _ ⟨only, _⟩ => [only]⟩]

def genericArgRules : List (Rule .genericArg) :=
  [⟨[one .lifetime], fun _ _ ⟨name, _⟩ => .lifetime name.text⟩,
   ⟨[ref .type], fun _ _ ⟨ty, _⟩ => .type ty⟩,
   ⟨[one .ident, opt .genericArgs, one .equal, ref .type],
    fun _ _ ⟨name, arguments, _, ty, _⟩ => .binding name.text arguments ty⟩,
   ⟨[one .ident, opt .genericArgs, one .colon, ref .bounds],
    fun _ _ ⟨name, arguments, _, bounds, _⟩ => .constraint name.text arguments bounds⟩,
   verbatim [one .openCurly, ref .curlyRest] .const,
   verbatim [one .number] .const]

def genericArgListRules : List (Rule .genericArgList) :=
  [⟨[ref .genericArg, one .comma, ref .genericArgList], fun _ _ ⟨first, _, rest, _⟩ => first :: rest⟩,
   ⟨[ref .genericArg, one .comma], fun _ _ ⟨only, _⟩ => [only]⟩,
   ⟨[ref .genericArg], fun _ _ ⟨only, _⟩ => [only]⟩]

def colonBoundsRules : List (Rule .colonBounds) :=
  [⟨[one .colon, opt .bounds], fun _ _ ⟨_, bounds, _⟩ => bounds.getD []⟩]

def equalsTypeRules : List (Rule .equalsType) :=
  [⟨[one .equal, ref .type], fun _ _ ⟨_, ty, _⟩ => ty⟩]

def genericParamRules : List (Rule .genericParam) :=
  [⟨[ref .outerAttributes, one .lifetime, opt .colonLifetimes], fun text w ⟨_, name, bounds, _⟩ =>
      ⟨name.text, .lifetime (bounds.getD []), wording text w⟩⟩,
   ⟨[ref .outerAttributes, one .constWord, one .ident, one .colon, ref .type, opt .equalsConst],
    fun text w ⟨_, _, name, _, ty, value, _⟩ => ⟨name.text, .const ty value, wording text w⟩⟩,
   ⟨[ref .outerAttributes, one .ident, opt .colonBounds, opt .equalsType],
    fun text w ⟨_, name, bounds, value, _⟩ =>
      ⟨name.text, .type (bounds.getD []) value, wording text w⟩⟩]

def genericParamListRules : List (Rule .genericParamList) :=
  [⟨[ref .genericParam, one .comma, ref .genericParamList],
    fun _ _ ⟨first, _, rest, _⟩ => first :: rest⟩,
   ⟨[ref .genericParam, one .comma], fun _ _ ⟨only, _⟩ => [only]⟩,
   ⟨[ref .genericParam], fun _ _ ⟨only, _⟩ => [only]⟩]

def wherePredicateRules : List (Rule .wherePredicate) :=
  [⟨[one .lifetime, one .colon, opt .lifetimeBounds], fun text w ⟨name, _, bounds, _⟩ =>
      ⟨.lifetime name.text (bounds.getD []), wording text w, .covering w⟩⟩,
   ⟨[opt .binder, ref .type, one .colon, opt .bounds], fun text w ⟨binder, ty, _, bounds, _⟩ =>
      ⟨.type binder ty (bounds.getD []), wording text w, .covering w⟩⟩]

def wherePredicatesRules : List (Rule .wherePredicates) :=
  [⟨[ref .wherePredicate, one .comma, ref .wherePredicates],
    fun _ _ ⟨first, _, rest, _⟩ => first :: rest⟩,
   ⟨[ref .wherePredicate, one .comma], fun _ _ ⟨only, _⟩ => [only]⟩,
   ⟨[ref .wherePredicate], fun _ _ ⟨only, _⟩ => [only]⟩]

def whereClauseRules : List (Rule .whereClause) :=
  [⟨[one .whereWord, opt .wherePredicates],
    fun _ w ⟨_, predicates, _⟩ => ⟨predicates.getD [], .covering w⟩⟩]

def patternAtomRules : List (Rule .patternAtom) :=
  [skip [.tok [.ident, .mutWord, .underscore, .number, .string, .char, .ampersand, .ampersands,
      .pathSep, .dotDot]] id,
   skip [ref .delimited] id]

def patternRules : List (Rule .pattern) :=
  [verbatim [ref .patternAtom, ref .pattern] id, verbatim [ref .patternAtom] id]

def paramRules : List (Rule .param) :=
  [⟨[ref .outerAttributes, ref .pattern, one .colon, ref .type],
    fun _ w ⟨attributes, pattern, _, ty, _⟩ => ⟨pattern, ty, attributes, .covering w⟩⟩]

def paramListRules : List (Rule .paramList) :=
  [⟨[ref .param, one .comma, ref .paramList], fun _ _ ⟨first, _, rest, _⟩ => first :: rest⟩,
   ⟨[ref .param, one .comma], fun _ _ ⟨only, _⟩ => [only]⟩,
   ⟨[ref .param], fun _ _ ⟨only, _⟩ => [only]⟩]

def selfParamRules : List (Rule .selfParam) :=
  [⟨[ref .outerAttributes, one .ampersand, may .lifetime, may .mutWord, one .selfWord],
    fun _ w ⟨attributes, _, name, mutable, _⟩ =>
      ⟨.reference (name.map Token.text) mutable.isSome, attributes, .covering w⟩⟩,
   ⟨[ref .outerAttributes, may .mutWord, one .selfWord, one .colon, ref .type],
    fun _ w ⟨attributes, mutable, _, _, ty, _⟩ =>
      ⟨.typed mutable.isSome ty, attributes, .covering w⟩⟩,
   ⟨[ref .outerAttributes, may .mutWord, one .selfWord],
    fun _ w ⟨attributes, mutable, _⟩ => ⟨.value mutable.isSome, attributes, .covering w⟩⟩]

def paramsRules : List (Rule .params) :=
  [⟨[ref .selfParam, one .comma, ref .paramList],
    fun _ _ ⟨receiver, _, rest, _⟩ => (some receiver, rest)⟩,
   ⟨[ref .selfParam, one .comma], fun _ _ ⟨receiver, _⟩ => (some receiver, [])⟩,
   ⟨[ref .selfParam], fun _ _ ⟨receiver, _⟩ => (some receiver, [])⟩,
   ⟨[ref .paramList], fun _ _ ⟨list, _⟩ => (none, list)⟩]

def outputRules : List (Rule .output) := [⟨[one .arrow, ref .type], fun _ _ ⟨_, ty, _⟩ => ty⟩]

def signatureRules : List (Rule .signature) :=
  [⟨[opt .visibility, may .ident, may .constWord, may .asyncWord, may .unsafeWord, opt .abi,
      one .fnWord, one .ident, opt .genericParams, one .openRound, opt .params, one .closeRound,
      opt .output, opt .whereClause],
    fun _ w ⟨visibility, modifier, isConst, isAsync, isUnsafe, abi, _, name, generics, _, params, _,
        output, whereClause, _⟩ =>
      { name := name.text
        qualifiers :=
          { visibility := visibility
            modifier := modifier.map fun word => ⟨word.text, word.extent⟩
            isConst := isConst.isSome
            isAsync := isAsync.isSome
            isUnsafe := isUnsafe.isSome
            abi := abi }
        generics := generics
        receiver := params.bind Prod.fst
        params := (params.map Prod.snd).getD []
        output := output
        whereClause := whereClause
        extent := .covering w }⟩]

def blockRules : List (Rule .block) :=
  [⟨[one .openCurly, ref .curlyRest], fun text w _ => ⟨wording text w, .covering w⟩⟩]

def bodyRules : List (Rule .body) :=
  [⟨[ref .block], fun _ _ ⟨block, _⟩ => some block⟩, ⟨[one .semicolon], fun _ _ _ => none⟩]

def methodRules : List (Rule .method) :=
  [⟨[ref .outerAttributes, ref .signature, ref .body],
    fun _ w ⟨attributes, signature, body, _⟩ => ⟨attributes, signature, body, .covering w⟩⟩]

def equalsTreesRules : List (Rule .equalsTrees) := [skip [one .equal, ref .constTrees] id]

def associatedRules : List (Rule .associated) :=
  [⟨[ref .outerAttributes, opt .visibility, one .typeWord, one .ident, opt .genericParams,
      opt .colonBounds, opt .whereClause, opt .equalsType, one .semicolon],
    fun text w ⟨_, _, _, name, _⟩ => ⟨.type name.text, wording text w, .covering w⟩⟩,
   ⟨[ref .outerAttributes, opt .visibility, one .constWord, .tok [.ident, .underscore], one .colon,
      ref .type, opt .equalsTrees, one .semicolon],
    fun text w ⟨_, _, _, name, _⟩ => ⟨.const name.text, wording text w, .covering w⟩⟩,
   ⟨[ref .outerAttributes, ref .path, one .bang, ref .delimited, may .semicolon],
    fun text w _ => ⟨.macroCall, wording text w, .covering w⟩⟩]

def memberRules : List (Rule .member) :=
  [⟨[ref .method], fun _ _ ⟨method, _⟩ => .method method⟩,
   ⟨[ref .associated], fun _ _ ⟨associated, _⟩ => .associated associated⟩]

def membersRules : List (Rule .members) :=
  [⟨[one .closeCurly], fun _ _ _ => []⟩,
   ⟨[ref .member, ref .members], fun _ _ ⟨first, rest, _⟩ => first :: rest⟩]

def implementedRules : List (Rule .implemented) :=
  [⟨[may .bang, ref .type, one .forWord], fun _ _ ⟨negative, ty, _⟩ => ⟨negative.isSome, ty⟩⟩]

def declarationRules : List (Rule .declaration) :=
  [⟨[ref .outerAttributes, opt .visibility, may .unsafeWord, one .traitWord, one .ident,
      opt .genericParams, opt .colonBounds, opt .whereClause, one .openCurly, ref .members],
    fun text w ⟨attributes, visibility, isUnsafe, _, name, generics, supertraits, whereClause, _,
        members, _⟩ =>
      { subject := .contract name.text visibility (supertraits.getD [])
        attributes := attributes
        isUnsafe := isUnsafe.isSome
        generics := generics
        whereClause := whereClause
        members := members
        extent := .covering w
        source := text }⟩,
   ⟨[ref .outerAttributes, may .unsafeWord, one .implWord, opt .genericParams, opt .implemented,
      ref .type, opt .whereClause, one .openCurly, ref .members],
    fun text w ⟨attributes, isUnsafe, _, generics, implemented, selfTy, whereClause, _, members, _⟩ =>
      { subject := .implementation selfTy implemented
        attributes := attributes
        isUnsafe := isUnsafe.isSome
        generics := generics
        whereClause := whereClause
        members := members
        extent := .covering w
        source := text }⟩]

def productions : (n : Nonterminal) → List (Rule n)
  | .delimited => delimitedRules
  | .tree => treeRules
  | .roundRest => roundRestRules
  | .squareRest => squareRestRules
  | .curlyRest => curlyRestRules
  | .constTree => constTreeRules
  | .constTrees => constTreesRules
  | .outerAttribute => outerAttributeRules
  | .outerAttributes => outerAttributesRules
  | .scope => scopeRules
  | .visibility => visibilityRules
  | .abi => abiRules
  | .lifetimeBounds => lifetimeBoundsRules
  | .colonLifetimes => colonLifetimesRules
  | .constValue => constValueRules
  | .equalsConst => equalsConstRules
  | .genericArgs => genericArgsRules
  | .segment => segmentRules
  | .pathTail => pathTailRules
  | .path => pathRules
  | .asPath => asPathRules
  | .qualifiedPath => qualifiedPathRules
  | .genericParams => genericParamsRules
  | .binder => binderRules
  | .plainOutput => plainOutputRules
  | .functionPointer => functionPointerRules
  | .arrayLength => arrayLengthRules
  | .plainType => plainTypeRules
  | .bound => boundRules
  | .boundTail => boundTailRules
  | .bounds => boundsRules
  | .type => typeRules
  | .typeList => typeListRules
  | .genericArg => genericArgRules
  | .genericArgList => genericArgListRules
  | .colonBounds => colonBoundsRules
  | .equalsType => equalsTypeRules
  | .genericParam => genericParamRules
  | .genericParamList => genericParamListRules
  | .wherePredicate => wherePredicateRules
  | .wherePredicates => wherePredicatesRules
  | .whereClause => whereClauseRules
  | .patternAtom => patternAtomRules
  | .pattern => patternRules
  | .param => paramRules
  | .paramList => paramListRules
  | .selfParam => selfParamRules
  | .params => paramsRules
  | .output => outputRules
  | .signature => signatureRules
  | .block => blockRules
  | .body => bodyRules
  | .method => methodRules
  | .equalsTrees => equalsTreesRules
  | .associated => associatedRules
  | .member => memberRules
  | .members => membersRules
  | .implemented => implementedRules
  | .declaration => declarationRules

end Rules

def declarations : Grammar Nonterminal where
  Val := Nonterminal.Val
  count := 59
  rank := Nonterminal.ctorIdx
  atRank := Nonterminal.ofNat
  rank_lt := by intro n; cases n <;> decide
  rank_atRank := by decide
  atRank_rank := Nonterminal.ofNat_ctorIdx
  productions := Rules.productions

end Deasync
