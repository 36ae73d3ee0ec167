import Deasync.Proofs.Capture.Tree
import Deasync.Proofs.Grammar.Acceptance
import Mathlib.Data.List.Basic

namespace Deasync

open Grammar Rules

inductive Element where
  | attr (a : Attribute)
  -- a text that is kept and has no extent: a pattern, a length, a binder, a visibility, an abi, a value
  | words (text : String)
  | node (n : Node)
  | genericParam (p : GenericParam)
  | generics (g : Generics)
  | predicate (p : WherePredicate)
  | whereClause (c : WhereClause)
  | receiver (r : SelfParam)
  | param (p : Param)
  | signature (s : Signature)
  | block (b : Block)
  | method (m : Method)
  | associated (a : Associated)
  | declaration (d : Declaration)

namespace Element

abbrev ty (t : Ty) : Element := .node (.ty t)

abbrev path (p : Path) : Element := .node (.path p)

abbrev segment (s : Segment) : Element := .node (.segment s)

abbrev argument (a : GenericArg) : Element := .node (.argument a)

abbrev bound (b : Bound) : Element := .node (.bound b)

def member : Member → Element
  | .method m => method m
  | .associated a => associated a

def extent? : Element → Option Extent
  | attr a => some a.extent
  | node (.ty t) => some t.extent
  | node (.path p) => some p.extent
  | generics g => some g.extent
  | predicate p => some p.extent
  | whereClause c => some c.extent
  | receiver r => some r.extent
  | param p => some p.extent
  | signature s => some s.extent
  | block b => some b.extent
  | method m => some m.extent
  | associated a => some a.extent
  | declaration d => some d.extent
  | words _ | node _ | genericParam _ => none

-- The text that an element keeps.
def kept? : Element → Option String
  | attr a => some a.text
  | words text => some text
  | node (.ty (.functionPointer text _)) | node (.ty (.macroCall text _)) => some text
  | node (.argument (.const text)) => some text
  | genericParam p => some p.text
  | predicate p => some p.text
  | block b => some b.text
  | associated a => some a.text
  | _ => none

-- What may be left out.
def perhaps {α : Type} (o : Option α) (f : α → Element) : List Element := o.elim [] fun a => [f a]

def nodes {α : Type} (list : List α) (f : α → Node) : List Element := (list.map f).map node

theorem nodes_append {α : Type} (first second : List α) (f : α → Node) :
    nodes (first ++ second) f = nodes first f ++ nodes second f := by
  simp [nodes]

def ofSort : ParamSort → List Element
  | .lifetime _ => []
  | .type bounds default => nodes bounds .bound ++ perhaps default ty
  | .const type default => ty type :: perhaps default words

def ofRequirement : Requirement → List Element
  | .lifetime .. => []
  | .type binder bounded bounds => perhaps binder words ++ ty bounded :: nodes bounds .bound

def ofForm : ReceiverForm → List Element
  | .typed _ type => [ty type]
  | .reference .. | .value _ => []

-- What stands between the attributes of a declaration and its where clause, less `unsafe`.
def ofSubject (generics? : Option Generics) : Subject → List Element
  | .contract _ visibility supertraits =>
    perhaps visibility words ++ (perhaps generics? generics ++ nodes supertraits .bound)
  | .implementation selfTy implemented =>
    perhaps generics? generics ++ (perhaps implemented (fun i => ty i.ty) ++ [ty selfTy])

-- The elements right inside one, from left to right.
def inside : Element → List Element
  | node (.ty (.array inner length _)) => [ty inner, words length]
  | node (.bound (.trait _ (some binder) _ p)) => [words binder, path p]
  | node n => (n.parts .everywhere).map node
  | genericParam p => ofSort p.sort
  | generics g => g.params.map genericParam
  | predicate p => ofRequirement p.requirement
  | whereClause c => c.predicates.map predicate
  | receiver r => r.attributes.map attr ++ ofForm r.form
  | param p => p.attributes.map attr ++ [words p.pattern, ty p.ty]
  | signature s => perhaps s.qualifiers.visibility words ++ (perhaps s.qualifiers.abi words ++
      (perhaps s.generics generics ++ (perhaps s.receiver receiver ++ s.params.map param ++
      (perhaps s.output ty ++ perhaps s.whereClause whereClause))))
  | method m => m.attributes.map attr ++ signature m.signature :: perhaps m.body block
  | declaration d => d.attributes.map attr ++ (ofSubject d.generics d.subject ++
      (perhaps d.whereClause whereClause ++ d.members.map member))
  | attr _ | words _ | block _ | associated _ => []

-- `inner` is `outer` or stands somewhere inside it.
inductive Within (inner : Element) : Element → Prop where
  | self : Within inner inner
  | part {outer x : Element} : x ∈ outer.inside → Within inner x → Within inner outer

end Element

namespace Element

-- Two references are read from one `&&`, and the inner one has no tokens of its own.
def twins : Element → List Element
  | node (.ty (.reference none false (.reference lifetime mutable inner e) e')) =>
    if e = e' then [ty (.reference lifetime mutable inner e)] else []
  | _ => []

theorem mem_twins (lifetime : Option String) (mutable : Bool) (inner : Ty) (e : Extent) :
    ty (.reference lifetime mutable inner e) ∈
      (ty (.reference none false (.reference lifetime mutable inner e) e)).twins := by
  simp [twins]

theorem of_mem_twins {x y : Element} (twin : y ∈ x.twins) : x.extent? = y.extent? ∧ y.kept? = none := by
  unfold twins at twin
  split at twin
  · split at twin
    · rename_i same
      rw [List.mem_singleton.mp twin]
      exact ⟨congrArg some same.symm, rfl⟩
    · cases twin
  · cases twin

-- An element says of these tokens what it says of tokens: where they are, and how they are written.
structure Fits (text : String) (x : Element) (own : List Token) : Prop where
  filled : own ≠ []
  covers : ∀ e, x.extent? = some e → e = .covering own
  words : ∀ kept, x.kept? = some kept → kept = wording text own

theorem Fits.twin {text : String} {x y : Element} {own : List Token} (fits : x.Fits text own)
    (twin : y ∈ x.twins) : y.Fits text own := by
  obtain ⟨extent, kept⟩ := of_mem_twins twin
  refine ⟨fits.filled, fun e given => fits.covers e (extent.trans given), fun words given => ?_⟩
  cases kept.symm.trans given

end Element

section

variable (text : String) (Known : Element → List Token → Prop)

mutual

-- Every element from here on inwards has tokens that it fits, among those of the element around it.
inductive Stands : Element → List Token → Prop where
  | mk {x : Element} {own : List Token} : x.Fits text own → Known x own → StandEach x.inside own →
      Stands x own

inductive StandEach : List Element → List Token → Prop where
  | nil {own : List Token} : StandEach [] own
  | cons {x : Element} {rest : List Element} {gap own later : List Token} : Stands x own →
      StandEach rest later → StandEach (x :: rest) (gap ++ (own ++ later))

end

end

section

variable {text : String} {Known : Element → List Token → Prop}

theorem StandEach.behind {xs : List Element} {front own : List Token} (each : StandEach text Known xs own) :
    StandEach text Known xs (front ++ own) := by
  cases each with
  | nil => exact .nil
  | cons first rest =>
    rw [← List.append_assoc]
    exact .cons first rest

theorem StandEach.append {xs ys : List Element} {own later : List Token}
    (first : StandEach text Known xs own) (second : StandEach text Known ys later) :
    StandEach text Known (xs ++ ys) (own ++ later) := by
  induction xs generalizing own with
  | nil => exact second.behind
  | cons x xs ih =>
    cases first with
    | cons here rest =>
      rw [List.cons_append, List.append_assoc, List.append_assoc]
      exact .cons here (ih rest)

theorem StandEach.sublist {xs ys : List Element} {own : List Token} (each : StandEach text Known ys own)
    (fewer : xs.Sublist ys) : StandEach text Known xs own := by
  induction fewer generalizing own with
  | slnil => exact .nil
  | cons y _ ih =>
    cases each with
    | cons _ rest => exact (ih rest).behind.behind
  | cons_cons y _ ih =>
    cases each with
    | cons here rest => exact .cons here (ih rest)

theorem Stands.alone {x : Element} {own : List Token} (stands : Stands text Known x own) :
    StandEach text Known [x] own := by
  have row : own = [] ++ (own ++ []) := by simp
  rw [row]
  exact .cons stands .nil

end

def elements : (n : Nonterminal) → n.Val → List Element
  | .delimited, _ | .tree, _ | .roundRest, _ | .squareRest, _ | .curlyRest, _ | .constTree, _
  | .constTrees, _ | .scope, _ | .patternAtom, _ | .equalsTrees, _ => []
  | .lifetimeBounds, _ | .colonLifetimes, _ => []
  | .outerAttribute, a => [.attr a]
  | .outerAttributes, list => list.map Element.attr
  | .visibility, kept | .abi, kept | .constValue, kept | .equalsConst, kept | .binder, kept
  | .arrayLength, kept | .pattern, kept => [.words kept]
  | .genericArgs, list | .genericArgList, list => Element.nodes list .argument
  | .genericArg, a => [.argument a]
  | .segment, s => [.segment s]
  | .pathTail, list => Element.nodes list .segment
  | .path, p | .asPath, p | .qualifiedPath, p => [.path p]
  | .genericParams, g => [.generics g]
  | .genericParam, p => [.genericParam p]
  | .genericParamList, list => list.map Element.genericParam
  | .plainOutput, t | .functionPointer, t | .plainType, t | .type, t | .equalsType, t
  | .output, t => [.ty t]
  | .typeList, list => Element.nodes list .ty
  | .bound, b => [.bound b]
  | .boundTail, list | .bounds, list | .colonBounds, list => Element.nodes list .bound
  | .wherePredicate, p => [.predicate p]
  | .wherePredicates, list => list.map Element.predicate
  | .whereClause, c => [.whereClause c]
  | .param, p => [.param p]
  | .paramList, list => list.map Element.param
  | .selfParam, r => [.receiver r]
  | .params, (r, list) => Element.perhaps r .receiver ++ list.map .param
  | .signature, s => [.signature s]
  | .block, b => [.block b]
  | .body, b => Element.perhaps b .block
  | .method, m => [.method m]
  | .associated, a => [.associated a]
  | .member, m => [.member m]
  | .members, list => list.map Element.member
  | .implemented, i => [.ty i.ty]
  | .declaration, d => [.declaration d]

-- What is read as an element of its own, from all its tokens.
def isNode : Nonterminal → Bool
  | .outerAttribute | .visibility | .abi | .constValue | .binder | .arrayLength | .pattern | .genericArg
  | .segment | .path | .qualifiedPath | .genericParams | .genericParam | .functionPointer | .plainType | .type
  | .bound | .wherePredicate | .whereClause | .param | .selfParam | .signature | .block | .method
  | .associated | .member | .declaration => true
  | _ => false

-- The elements that have just the tokens of their nonterminal.
def readAs (n : Nonterminal) (v : n.Val) : List Element := elements n v ++ (elements n v).flatMap Element.twins

-- Tokens are no elements, and what may be left out is there once or not at all.
def symElements : (s : Sym Nonterminal) → s.Val Nonterminal.Val → List Element
  | .tok _, _ | .maybe (.tok _), _ => []
  | .ref n, v => elements n v
  | .maybe s, v => v.elim [] (symElements s)

def isToken : Sym Nonterminal → Bool
  | .tok _ | .maybe (.tok _) => true
  | _ => false

def allElements : (rhs : List (Sym Nonterminal)) → Values Nonterminal.Val rhs → List Element
  | [], _ => []
  | s :: rest, vs =>
    bif rest.all isToken then symElements s vs.1 else symElements s vs.1 ++ allElements rest vs.2

def isNodeAlone : List (Sym Nonterminal) → Bool
  | [.ref n] => isNode n
  | _ => false

theorem isNodeAlone_cons {s : Sym Nonterminal} {rest : List (Sym Nonterminal)}
    (alone : isNodeAlone (s :: rest)) : rest = [] := by
  unfold isNodeAlone at alone
  split at alone
  · rename_i same
    exact (List.cons.inj same).2
  · cases alone

-- How the elements of what was read from `w` come from those of its parts.
inductive Built (text : String) (w : List Token) (rhs : List (Sym Nonterminal)) (parts : List Element) :
    Bool → List Element → Prop where
  -- elements of the parts
  | passed {xs : List Element} : xs.Sublist parts → Built text w rhs parts false xs
  -- an element of its own that has others inside
  | made {x : Element} : (x.extent? = none ∨ x.extent? = some (.covering w)) →
      (x.kept? = none ∨ x.kept? = some (wording text w)) → x.inside.Sublist parts →
      Built text w rhs parts true [x]
  | double {x y : Element} : x.extent? = some (.covering w) → x.kept? = none → x.inside = [y] →
      y ∈ x.twins → y.inside = parts → Built text w rhs parts true [x]
  -- the only part
  | same {xs : List Element} : isNodeAlone rhs → xs = parts → Built text w rhs parts true xs
  -- the only part, seen as an element of another sort
  | seen {x y : Element} : isNodeAlone rhs → parts = [y] → x.inside = [y] → x.extent? = y.extent? →
      x.kept? = none → Built text w rhs parts true [x]

section

variable {text : String} {w : List Token} {rhs : List (Sym Nonterminal)} {parts : List Element}

theorem Built.all {xs : List Element} (same : xs = parts) : Built text w rhs parts false xs :=
  .passed (same ▸ .refl xs)

theorem Built.placed {x : Element} (extent : x.extent? = some (.covering w)) (kept : x.kept? = none)
    (inner : x.inside = parts) : Built text w rhs parts true [x] :=
  .made (.inr extent) (.inl kept) (inner ▸ .refl _)

theorem Built.piece {x : Element} (extent : x.extent? = none) (kept : x.kept? = none)
    (inner : x.inside = parts) : Built text w rhs parts true [x] :=
  .made (.inl extent) (.inl kept) (inner ▸ .refl _)

theorem Built.copied {x : Element} (extent : x.extent? = none ∨ x.extent? = some (.covering w))
    (kept : x.kept? = some (wording text w)) (inner : x.inside = []) : Built text w rhs parts true [x] :=
  .made extent (.inr kept) (inner ▸ List.nil_sublist parts)

theorem eq_of_known {α : Type} {o : Option α} {a b : α} (either : o = none ∨ o = some a) (known : o = some b) :
    b = a := by
  rcases either with none | some
  · cases none.symm.trans known
  · exact Option.some.inj (known.symm.trans some)

theorem Element.fits_of_made {x : Element} (filled : w ≠ [])
    (extent : x.extent? = none ∨ x.extent? = some (.covering w))
    (kept : x.kept? = none ∨ x.kept? = some (wording text w)) : x.Fits text w where
  filled := filled
  covers _ known := eq_of_known extent known
  words _ known := eq_of_known kept known

theorem Built.stands {Known : Element → List Token → Prop} {node : Bool} {xs : List Element}
    (built : Built text w rhs parts node xs) (filled : w ≠ [])
    (known : node → ∀ x ∈ xs ++ xs.flatMap Element.twins, Known x w) (each : StandEach text Known parts w)
    (whole : isNodeAlone rhs → ∀ x ∈ parts, Stands text Known x w) :
    StandEach text Known xs w ∧ (node → ∀ x ∈ xs, Stands text Known x w) := by
  have one {x : Element} (stands : Stands text Known x w) :
      StandEach text Known [x] w ∧ (true → ∀ y ∈ [x], Stands text Known y w) :=
    ⟨stands.alone, fun _ => List.forall_mem_singleton.mpr stands⟩
  cases built with
  | passed fewer => exact ⟨each.sublist fewer, fun never => nomatch never⟩
  | made extent kept inner =>
    exact one (.mk (Element.fits_of_made filled extent kept) (known rfl _ (by simp)) (each.sublist inner))
  | @double x y extent kept inner twin within =>
    have fits : x.Fits text w := Element.fits_of_made filled (.inr extent) (.inl kept)
    have other : Stands text Known y w :=
      .mk (fits.twin twin) (known rfl y (by simp [twin])) (within ▸ each)
    exact one (.mk fits (known rfl x (by simp)) (inner ▸ other.alone))
  | same only same =>
    subst same
    exact ⟨each, fun _ => whole only⟩
  | @seen x y only part inner extent kept =>
    subst part
    have stands := whole only y (.head _)
    refine one (.mk ?_ (known rfl x (by simp)) (inner ▸ stands.alone))
    cases stands with
    | mk fits =>
      refine ⟨filled, fun e given => fits.covers e (extent ▸ given), fun own given => ?_⟩
      cases kept.symm.trans given

end

-- What a production builds.
def Builds {n : Nonterminal} (p : Rule n) : Prop :=
  ∀ text w vs, Built text w p.rhs (allElements p.rhs vs) (isNode n) (elements n (p.build text w vs))

theorem builds_segment : segmentRules.Forall Builds := by
  refine ⟨fun _ _ vs => ?_, fun _ _ _ => .piece rfl rfl rfl, fun _ _ vs => ?_⟩
  · obtain ⟨name, arguments, _⟩ := vs
    cases arguments <;> exact .piece rfl rfl rfl
  · obtain ⟨name, _, inputs, _, output, _⟩ := vs
    refine .piece rfl rfl ?_
    cases inputs with
    | none => cases output <;> rfl
    | some inputs =>
      cases output with
      | none => exact Element.nodes_append inputs [] .ty
      | some output => exact Element.nodes_append inputs [output] .ty

theorem builds_path : pathRules.Forall Builds := by
  refine ⟨fun _ _ vs => ?_, fun _ _ vs => ?_⟩
  · obtain ⟨lead, head, tail, _⟩ := vs
    cases lead <;> exact .placed rfl rfl rfl
  · obtain ⟨lead, head, _⟩ := vs
    cases lead <;> exact .placed rfl rfl rfl

theorem builds_qualifiedPath : qualifiedPathRules.Forall Builds := by
  refine ⟨fun _ _ vs => ?_, fun _ _ vs => ?_⟩
  · obtain ⟨_, ty, asTrait, _, _, head, tail, _⟩ := vs
    cases asTrait <;> exact .placed rfl rfl rfl
  · obtain ⟨_, ty, asTrait, _, _, head, _⟩ := vs
    cases asTrait <;> exact .placed rfl rfl rfl

theorem builds_bound : boundRules.Forall Builds := by
  refine ⟨fun _ _ _ => .piece rfl rfl rfl, fun _ _ vs => ?_, fun _ _ vs => ?_⟩
  · obtain ⟨maybe, binder, path, _⟩ := vs
    cases binder <;> exact .piece rfl rfl rfl
  · obtain ⟨_, maybe, binder, path, _⟩ := vs
    cases binder <;> exact .piece rfl rfl rfl

theorem builds_genericArg : genericArgRules.Forall Builds := by
  refine ⟨fun _ _ _ => .piece rfl rfl rfl, fun _ _ _ => .piece rfl rfl rfl, fun _ _ vs => ?_,
    fun _ _ vs => ?_, fun _ _ _ => .copied (.inl rfl) rfl rfl, fun _ _ _ => .copied (.inl rfl) rfl rfl⟩
  · obtain ⟨name, arguments, _, ty, _⟩ := vs
    refine .piece rfl rfl ?_
    cases arguments with
    | none => rfl
    | some arguments => exact List.map_append
  · obtain ⟨name, arguments, _, bounds, _⟩ := vs
    refine .piece rfl rfl ?_
    cases arguments with
    | none => rfl
    | some arguments => exact List.map_append

-- The attributes of a parameter are in its text only.
theorem builds_genericParam : genericParamRules.Forall Builds := by
  refine ⟨fun _ _ _ => .copied (.inl rfl) rfl rfl, fun _ _ vs => ?_, fun _ _ vs => ?_⟩
  · exact .made (.inl rfl) (.inr rfl) (List.sublist_append_right _ _)
  · obtain ⟨attributes, name, bounds, value, _⟩ := vs
    refine .made (.inl rfl) (.inr rfl) ?_
    cases bounds <;> exact List.sublist_append_right (attributes.map Element.attr) _

theorem builds_wherePredicate : wherePredicateRules.Forall Builds := by
  refine ⟨fun _ _ _ => .copied (.inr rfl) rfl rfl, fun _ _ vs => ?_⟩
  obtain ⟨binder, ty, _, bounds, _⟩ := vs
  cases bounds <;> exact .made (.inr rfl) (.inr rfl) (.refl _)

theorem builds_signature : signatureRules.Forall Builds := by
  intro _ _ vs
  obtain ⟨visibility, _, _, _, _, abi, _, _, generics, _, params, _, output, whereClause, _⟩ := vs
  refine .placed rfl rfl ?_
  cases params <;> rfl

theorem builds_declaration : declarationRules.Forall Builds := by
  refine ⟨fun _ _ vs => ?_, fun _ _ vs => ?_⟩
  · obtain ⟨attributes, visibility, _, _, _, generics, supertraits, whereClause, _, members, _⟩ := vs
    refine .placed rfl rfl ?_
    simp only [Element.inside, Element.ofSubject, List.append_assoc]
    cases supertraits <;> rfl
  · obtain ⟨attributes, _, _, generics, implemented, selfTy, whereClause, _, members, _⟩ := vs
    refine .placed rfl rfl ?_
    simp only [Element.inside, Element.ofSubject, List.append_assoc]
    rfl

theorem builds : ∀ n, (Rules.productions n).Forall Builds
  | .delimited => ⟨fun _ _ _ => .all rfl, fun _ _ _ => .all rfl, fun _ _ _ => .all rfl⟩
  | .tree => ⟨fun _ _ _ => .all rfl, fun _ _ _ => .all rfl, fun _ _ _ => .all rfl⟩
  | .roundRest => ⟨fun _ _ _ => .all rfl, fun _ _ _ => .all rfl⟩
  | .squareRest => ⟨fun _ _ _ => .all rfl, fun _ _ _ => .all rfl⟩
  | .curlyRest => ⟨fun _ _ _ => .all rfl, fun _ _ _ => .all rfl⟩
  | .constTree => ⟨fun _ _ _ => .all rfl, fun _ _ _ => .all rfl⟩
  | .constTrees => ⟨fun _ _ _ => .all rfl, fun _ _ _ => .all rfl⟩
  | .outerAttribute =>
    ⟨fun _ _ _ => .copied (.inr rfl) rfl rfl, fun _ _ _ => .copied (.inr rfl) rfl rfl⟩
  | .outerAttributes => ⟨fun _ _ _ => .all rfl, fun _ _ _ => .all rfl⟩
  | .scope => fun _ _ _ => .all rfl
  | .visibility => fun _ _ _ => .copied (.inl rfl) rfl rfl
  | .abi => fun _ _ _ => .copied (.inl rfl) rfl rfl
  | .lifetimeBounds => ⟨fun _ _ _ => .all rfl, fun _ _ _ => .all rfl⟩
  | .colonLifetimes => fun _ _ _ => .passed (List.nil_sublist _)
  | .constValue =>
    ⟨fun _ _ _ => .copied (.inl rfl) rfl rfl, fun _ _ _ => .copied (.inl rfl) rfl rfl,
      fun _ _ _ => .copied (.inl rfl) rfl rfl⟩
  | .equalsConst => fun _ _ _ => .all rfl
  | .genericArgs => ⟨fun _ _ _ => .all rfl, fun _ _ _ => .all rfl⟩
  | .segment => builds_segment
  | .pathTail => ⟨fun _ _ _ => .all rfl, fun _ _ _ => .all rfl⟩
  | .path => builds_path
  | .asPath => fun _ _ _ => .all rfl
  | .qualifiedPath => builds_qualifiedPath
  | .genericParams =>
    ⟨fun _ _ _ => .placed rfl rfl rfl, fun _ _ _ => .placed rfl rfl rfl⟩
  | .binder => fun _ _ _ => .copied (.inl rfl) rfl rfl
  | .plainOutput => fun _ _ _ => .all rfl
  | .functionPointer => fun _ _ _ => .copied (.inr rfl) rfl rfl
  | .arrayLength => fun _ _ _ => .copied (.inl rfl) rfl rfl
  | .plainType =>
    ⟨fun _ _ _ => .placed rfl rfl rfl, fun _ _ _ => .placed rfl rfl rfl,
      fun _ _ _ => .placed rfl rfl rfl, fun _ _ _ => .placed rfl rfl rfl,
      fun _ _ _ => .placed rfl rfl rfl,
      fun _ _ _ => .double rfl rfl rfl (Element.mem_twins ..) rfl,
      fun _ _ _ => .placed rfl rfl rfl, fun _ _ _ => .placed rfl rfl rfl,
      fun _ _ _ => .placed rfl rfl rfl, fun _ _ _ => .placed rfl rfl rfl,
      fun _ _ _ => .placed rfl rfl rfl, fun _ _ _ => .seen rfl rfl rfl rfl rfl,
      fun _ _ _ => .seen rfl rfl rfl rfl rfl, fun _ _ _ => .same rfl rfl,
      fun _ _ _ => .copied (.inr rfl) rfl rfl⟩
  | .bound => builds_bound
  | .boundTail => ⟨fun _ _ _ => .all rfl, fun _ _ _ => .all rfl⟩
  | .bounds => ⟨fun _ _ _ => .all rfl, fun _ _ _ => .all rfl⟩
  | .type =>
    ⟨fun _ _ _ => .same rfl rfl, fun _ _ _ => .placed rfl rfl rfl,
      fun _ _ _ => .placed rfl rfl rfl⟩
  | .typeList => ⟨fun _ _ _ => .all rfl, fun _ _ _ => .all rfl, fun _ _ _ => .all rfl⟩
  | .genericArg => builds_genericArg
  | .genericArgList => ⟨fun _ _ _ => .all rfl, fun _ _ _ => .all rfl, fun _ _ _ => .all rfl⟩
  | .colonBounds => fun _ _ (_, bounds, _) => by cases bounds <;> exact .all rfl
  | .equalsType => fun _ _ _ => .all rfl
  | .genericParam => builds_genericParam
  | .genericParamList => ⟨fun _ _ _ => .all rfl, fun _ _ _ => .all rfl, fun _ _ _ => .all rfl⟩
  | .wherePredicate => builds_wherePredicate
  | .wherePredicates => ⟨fun _ _ _ => .all rfl, fun _ _ _ => .all rfl, fun _ _ _ => .all rfl⟩
  | .whereClause =>
    fun _ _ (_, predicates, _) => by cases predicates <;> exact .placed rfl rfl rfl
  | .patternAtom => ⟨fun _ _ _ => .all rfl, fun _ _ _ => .all rfl⟩
  | .pattern => ⟨fun _ _ _ => .copied (.inl rfl) rfl rfl, fun _ _ _ => .copied (.inl rfl) rfl rfl⟩
  | .param => fun _ _ _ => .placed rfl rfl rfl
  | .paramList => ⟨fun _ _ _ => .all rfl, fun _ _ _ => .all rfl, fun _ _ _ => .all rfl⟩
  | .selfParam =>
    ⟨fun _ _ _ => .placed rfl rfl (List.append_nil _),
      fun _ _ _ => .placed rfl rfl rfl,
      fun _ _ _ => .placed rfl rfl (List.append_nil _)⟩
  | .params =>
    ⟨fun _ _ _ => .all rfl, fun _ _ _ => .all rfl, fun _ _ _ => .all rfl, fun _ _ _ => .all rfl⟩
  | .output => fun _ _ _ => .all rfl
  | .signature => builds_signature
  | .block => fun _ _ _ => .copied (.inr rfl) rfl rfl
  | .body => ⟨fun _ _ _ => .all rfl, fun _ _ _ => .all rfl⟩
  | .method => fun _ _ _ => .placed rfl rfl rfl
  | .equalsTrees => fun _ _ _ => .all rfl
  | .associated =>
    ⟨fun _ _ _ => .copied (.inr rfl) rfl rfl, fun _ _ _ => .copied (.inr rfl) rfl rfl,
      fun _ _ _ => .copied (.inr rfl) rfl rfl⟩
  | .member => ⟨fun _ _ _ => .same rfl rfl, fun _ _ _ => .same rfl rfl⟩
  | .members => ⟨fun _ _ _ => .all rfl, fun _ _ _ => .all rfl⟩
  | .implemented => fun _ _ _ => .all rfl
  | .declaration => builds_declaration

-- The one nonterminal that may stand on no token.
theorem outerAttributes_elements (text : String) (w : List Token) : outerAttributesRules.Forall fun p =>
    ∀ vs, elements .outerAttributes (p.build text w vs) = allElements p.rhs vs :=
  ⟨fun _ => rfl, fun _ => rfl⟩

theorem symElements_of_isToken {s : Sym Nonterminal} (token : isToken s)
    (v : s.Val Nonterminal.Val) : symElements s v = [] := by
  match s with
  | .tok _ | .maybe (.tok _) => rfl
  | .ref _ | .maybe (.ref _) | .maybe (.maybe _) => cases token

theorem allElements_of_isToken {rhs : List (Sym Nonterminal)} (tokens : rhs.all isToken)
    (vs : Values Nonterminal.Val rhs) : allElements rhs vs = [] := by
  induction rhs with
  | nil => rfl
  | cons s rest ih =>
    obtain ⟨first, later⟩ := Bool.and_eq_true_iff.mp tokens
    rw [allElements, later, symElements_of_isToken first]
    rfl

theorem allElements_cons {s : Sym Nonterminal} {rest : List (Sym Nonterminal)}
    (vs : Values Nonterminal.Val (s :: rest)) :
    allElements (s :: rest) vs = symElements s vs.1 ++ allElements rest vs.2 := by
  by_cases tokens : rest.all isToken
  · rw [allElements, tokens, allElements_of_isToken tokens, List.append_nil]
    rfl
  · rw [allElements, Bool.not_eq_true _ |>.mp tokens]
    rfl

namespace Grammar

section

variable {N : Type} (G : Grammar N) (text : String) {m : N} (u : List Token) (y : G.Val m)

mutual

-- In a reading of `w` the tokens `u` are read as `m`, with the value `y`.
inductive Occurs : (n : N) → List Token → G.Val n → Prop where
  | self : G.Derives text m u y → Occurs m u y
  | part {n : N} {p : Production G.Val n} {w : List Token} {vs : Values G.Val p.rhs} :
      p ∈ G.productions n → OccursAll p.rhs w vs → Occurs n w (p.build text w vs)

inductive OccursSym : (s : Sym N) → List Token → s.Val G.Val → Prop where
  | ref {n : N} {w : List Token} {v : G.Val n} : Occurs n w v → OccursSym (.ref n) w v
  | present {s : Sym N} {w : List Token} {v : s.Val G.Val} : OccursSym s w v →
      OccursSym (.maybe s) w (some v)

inductive OccursAll : (rhs : List (Sym N)) → List Token → Values G.Val rhs → Prop where
  | here {s : Sym N} {rest : List (Sym N)} {w w' : List Token} {v : s.Val G.Val} {vs : Values G.Val rest} :
      OccursSym s w v → G.DerivesAll text rest w' vs → OccursAll (s :: rest) (w ++ w') (v, vs)
  | later {s : Sym N} {rest : List (Sym N)} {w w' : List Token} {v : s.Val G.Val} {vs : Values G.Val rest} :
      G.DerivesSym text s w v → OccursAll rest w' vs → OccursAll (s :: rest) (w ++ w') (v, vs)

end

end

section

variable {N : Type} {G : Grammar N} {text : String} {m : N} {u : List Token} {y : G.Val m}

mutual

theorem Occurs.split {n : N} {w : List Token} {v : G.Val n} :
    G.Occurs text u y n w v → u <:+: w ∧ G.Derives text m u y
  | .self derived => ⟨List.infix_rfl, derived⟩
  | .part _ inner => inner.split

theorem OccursSym.split {s : Sym N} {w : List Token} {v : s.Val G.Val} :
    G.OccursSym text u y s w v → u <:+: w ∧ G.Derives text m u y
  | .ref inner => inner.split
  | .present inner => inner.split

theorem OccursAll.split {rhs : List (Sym N)} {w : List Token} {vs : Values G.Val rhs} :
    G.OccursAll text u y rhs w vs → u <:+: w ∧ G.Derives text m u y
  | .here inner _ => ⟨inner.split.1.trans (List.prefix_append _ _).isInfix, inner.split.2⟩
  | .later _ inner => ⟨inner.split.1.trans (List.suffix_append _ _).isInfix, inner.split.2⟩

end

end

variable {text : String} {Known : Element → List Token → Prop}

mutual

-- The tokens of an element are those that its nonterminal was read from.
theorem Derives.stands {n : Nonterminal} {w : List Token} {v : declarations.Val n} :
    declarations.Derives text n w v →
    (∀ m u y, declarations.Occurs text (m := m) u y n w v → isNode m → ∀ x ∈ readAs m y, Known x u) →
    StandEach text Known (elements n v) w ∧ (isNode n → ∀ x ∈ elements n v, Stands text Known x w)
  | .production listed derived => by
    intro known
    obtain ⟨each, whole⟩ := derived.stands fun m u y inner => known m u y (.part listed inner)
    have derives := Derives.production listed derived
    by_cases visible : n = .outerAttributes
    · subst visible
      have same := List.forall_iff_forall_mem.mp (outerAttributes_elements text w) _ listed
      exact ⟨(same _).symm ▸ each, fun never => nomatch never⟩
    · have filled := List.length_pos_iff.mp (spells_length_pos visible derives.spells)
      refine (List.forall_iff_forall_mem.mp (builds n) _ listed text w _).stands filled ?_ each whole
      exact known n w _ (.self derives)

theorem DerivesSym.stands {s : Sym Nonterminal} {w : List Token} {v : s.Val declarations.Val} :
    declarations.DerivesSym text s w v →
    (∀ m u y, declarations.OccursSym text (m := m) u y s w v → isNode m → ∀ x ∈ readAs m y, Known x u) →
    StandEach text Known (symElements s v) w ∧
      (isNodeAlone [s] → ∀ x ∈ symElements s v, Stands text Known x w)
  | .tok _ => fun _ => ⟨.nil, fun never => nomatch never⟩
  | .ref derived => fun known => derived.stands fun m u y inner => known m u y (.ref inner)
  | .absent (s := s) => fun _ => ⟨by cases s <;> exact .nil, fun never => nomatch never⟩
  | .present (s := .tok _) _ => fun _ => ⟨.nil, fun never => nomatch never⟩
  | .present (s := .ref _) derived | .present (s := .maybe _) derived => fun known =>
    ⟨(derived.stands fun m u y inner => known m u y (.present inner)).1, fun never => nomatch never⟩

theorem DerivesAll.stands {rhs : List (Sym Nonterminal)} {w : List Token}
    {vs : Values declarations.Val rhs} :
    declarations.DerivesAll text rhs w vs →
    (∀ m u y, declarations.OccursAll text (m := m) u y rhs w vs → isNode m → ∀ x ∈ readAs m y, Known x u) →
    StandEach text Known (allElements rhs vs) w ∧
      (isNodeAlone rhs → ∀ x ∈ allElements rhs vs, Stands text Known x w)
  | .nil => fun _ => ⟨.nil, fun never => nomatch never⟩
  | .cons first rest => by
    intro known
    obtain ⟨each, whole⟩ := first.stands fun m u y inner => known m u y (.here inner rest)
    obtain ⟨others, _⟩ := rest.stands fun m u y inner => known m u y (.later first inner)
    refine ⟨(allElements_cons _).symm ▸ each.append others, fun alone x listed => ?_⟩
    obtain rfl := isNodeAlone_cons alone
    cases rest
    rw [List.append_nil]
    exact whole alone x listed

end

end Grammar

end Deasync
