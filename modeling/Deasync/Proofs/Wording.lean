import Deasync.Proofs.Printing.RoundTrip

namespace Deasync

open Grammar Rules

section

variable (P : String → Prop)

def EachText (items : List Item) : Prop := ∀ item ∈ items, ∀ text ∈ item.text?, P text

variable {P} {a b : List Item}

@[simp] theorem eachText_nil : EachText P [] := List.forall_mem_nil _

@[simp] theorem eachText_append : EachText P (a ++ b) ↔ EachText P a ∧ EachText P b :=
  List.forall_mem_append

@[simp] theorem eachText_mark (kind : Kind) : EachText P (.mark kind :: a) ↔ EachText P a := by
  simp [EachText, Item.text?]

@[simp] theorem eachText_blank : EachText P (.blank :: a) ↔ EachText P a := by
  simp [EachText, Item.text?]

@[simp] theorem eachText_name (text : String) : EachText P (.name text :: a) ↔ P text ∧ EachText P a := by
  simp [EachText, Item.text?]

@[simp] theorem eachText_lifetime (text : String) :
    EachText P (.lifetime text :: a) ↔ P text ∧ EachText P a := by
  simp [EachText, Item.text?]

@[simp] theorem eachText_quote (text : String) : EachText P (.quote text :: a) ↔ P text ∧ EachText P a := by
  simp [EachText, Item.text?]

@[simp] theorem eachText_length (text : String) :
    EachText P (.length text :: a) ↔ P text ∧ EachText P a := by
  simp [EachText, Item.text?]

theorem eachText_separated {between : List Item} (bare : EachText P between) (rows : List (List Item)) :
    EachText P (separated between rows) ↔ ∀ row ∈ rows, EachText P row := by
  induction rows with
  | nil => simp [separated]
  | cons first rest ih =>
    cases rest with
    | nil => simp [separated]
    | cons second rest =>
      rw [separated_cons, eachText_append, eachText_append, ih, List.forall_mem_cons]
      simp [bare]

@[simp] theorem eachText_listed (rows : List (List Item)) :
    EachText P (listed rows) ↔ ∀ row ∈ rows, EachText P row :=
  eachText_separated (by simp) rows

@[simp] theorem eachText_summed (rows : List (List Item)) :
    EachText P (summed rows) ↔ ∀ row ∈ rows, EachText P row :=
  eachText_separated (by simp) rows

theorem eachText_solid : EachText P (solid a) ↔ EachText P a := by
  induction a with
  | nil => exact Iff.rfl
  | cons item a ih =>
    by_cases blank : item = .blank
    · rw [blank, solid_blank, eachText_blank, ih]
    · rw [solid_cons blank, EachText, EachText, List.forall_mem_cons, List.forall_mem_cons]
      exact and_congr_right fun _ => ih

end

section

def ToldEach {α : Type} (told : α → Prop) (list : List α) : Prop := ∀ a ∈ list, told a

variable (P : String → Prop)

def Ty.Told (t : Ty) : Prop := EachText P t.items

def Bound.ToldEach (bounds : List Bound) : Prop := EachText P (summed (Bound.itemsEach bounds))

-- Defaults are not told: nothing is made of them.
def ParamSort.Told : ParamSort → Prop
  | .lifetime _ => True
  | .type bounds _ => Bound.ToldEach P bounds
  | .const ty _ => ty.Told P

structure GenericParam.Told (p : GenericParam) : Prop where
  name : P p.name
  text : P p.text
  sort : p.sort.Told P

def ReceiverForm.Told : ReceiverForm → Prop
  | .reference lifetime _ => ∀ name ∈ lifetime, P name
  | .typed _ ty => ty.Told P
  | .value _ => True

structure SelfParam.Told (r : SelfParam) : Prop where
  attributes : ∀ a ∈ r.attributes, P a.text
  form : r.form.Told P

structure Param.Told (p : Param) : Prop where
  pattern : P p.pattern
  ty : p.ty.Told P
  attributes : ∀ a ∈ p.attributes, P a.text

structure Signature.Told (s : Signature) : Prop where
  name : P s.name
  visibility : ∀ text ∈ s.qualifiers.visibility, P text
  abi : ∀ text ∈ s.qualifiers.abi, P text
  generics : ∀ p ∈ s.genericParams, p.Told P
  receiver : ∀ r ∈ s.receiver, r.Told P
  params : ∀ p ∈ s.params, p.Told P
  output : ∀ ty ∈ s.output, ty.Told P
  requirements : ∀ text ∈ WhereClause.textsOf s.whereClause, P text

structure Method.Told (m : Method) : Prop where
  signature : m.signature.Told P
  body : ∀ b ∈ m.body, P b.text

def Member.Told : Member → Prop
  | .method m => m.Told P
  | .associated _ => True

def Subject.Told : Subject → Prop
  | .contract name _ _ => P name
  | .implementation selfTy implemented => selfTy.Told P ∧ ∀ i ∈ implemented, i.ty.Told P

structure Declaration.HeaderTold (d : Declaration) : Prop where
  subject : d.subject.Told P
  generics : ∀ p ∈ d.genericParams, p.Told P
  requirements : ∀ text ∈ WhereClause.textsOf d.whereClause, P text

structure Declaration.Told (d : Declaration) : Prop where
  header : d.HeaderTold P
  members : ∀ m ∈ d.members, m.Told P

-- What nonterminals are read as.
def Nonterminal.Told : (n : Nonterminal) → n.Val → Prop
  | .outerAttribute, a => P (Attribute.text a)
  | .outerAttributes, list => ToldEach (fun a : Attribute => P a.text) list
  | .visibility, text | .abi, text | .pattern, text => P text
  | .genericParam, p => GenericParam.Told P p
  | .genericParamList, list => ToldEach (GenericParam.Told P) list
  | .genericParams, g => ToldEach (GenericParam.Told P) (Generics.params g)
  | .colonBounds, list => Bound.ToldEach P list
  | .output, ty => Ty.Told P ty
  | .wherePredicate, p => P (WherePredicate.text p)
  | .wherePredicates, list => ToldEach (fun p : WherePredicate => P p.text) list
  | .whereClause, c => ToldEach (fun p : WherePredicate => P p.text) (WhereClause.predicates c)
  | .param, p => Param.Told P p
  | .paramList, list => ToldEach (Param.Told P) list
  | .selfParam, r => SelfParam.Told P r
  | .params, (receiver, list) => (∀ r : SelfParam, receiver = some r → r.Told P) ∧ ToldEach (Param.Told P) list
  | .signature, s => Signature.Told P s
  | .block, b => P (Block.text b)
  | .body, own => ∀ b : Block, own = some b → P b.text
  | .method, m => Method.Told P m
  | .member, m => Member.Told P m
  | .members, list => ToldEach (Member.Told P) list
  | .implemented, i => (Implemented.ty i).Told P
  | .declaration, d => Declaration.Told P d
  | n, v => EachText P (n.face.items v)

def symTold : (s : Sym Nonterminal) → s.Val Nonterminal.Val → Prop
  | .tok _, t => P (Token.text t)
  | .ref n, v => n.Told P v
  | .maybe s, o => ∀ v, o = some v → symTold s v

def rhsTold : (rhs : List (Sym Nonterminal)) → Values Nonterminal.Val rhs → Prop
  | [], _ => True
  | s :: rest, vs => symTold P s vs.1 ∧ rhsTold rest vs.2

-- What a production builds is told by the text it was read from and by its parts.
def Tells {n : Nonterminal} (p : Rule n) : Prop :=
  ∀ text w vs, P (wording text w) → rhsTold P p.rhs vs → n.Told P (p.build text w vs)

end

section

variable {P : String → Prop}

theorem tells_outerAttribute : outerAttributeRules.Forall (Tells P) :=
  ⟨fun _ _ _ own _ => own, fun _ _ _ own _ => own⟩

theorem tells_outerAttributes : outerAttributesRules.Forall (Tells P) :=
  ⟨fun _ _ _ _ parts => List.forall_mem_cons.mpr ⟨parts.1, parts.2.1⟩, fun _ _ _ _ _ => List.forall_mem_nil _⟩

theorem tells_visibility : visibilityRules.Forall (Tells P) := fun _ _ _ own _ => own

theorem tells_abi : abiRules.Forall (Tells P) := fun _ _ _ own _ => own

theorem tells_pattern : patternRules.Forall (Tells P) := ⟨fun _ _ _ own _ => own, fun _ _ _ own _ => own⟩

theorem tells_genericParams : genericParamsRules.Forall (Tells P) :=
  ⟨fun _ _ _ _ _ => List.forall_mem_nil _, fun _ _ _ _ parts => parts.2.1⟩

theorem tells_genericParam : genericParamRules.Forall (Tells P) := by
  refine ⟨fun _ _ _ own parts => ⟨parts.2.1, own, trivial⟩,
    fun _ _ _ own parts => ⟨parts.2.2.1, own, parts.2.2.2.2.1⟩, fun _ _ vs own parts => ⟨parts.2.1, own, ?_⟩⟩
  obtain ⟨_, _, bounds, _⟩ := vs
  cases bounds with
  | none => exact eachText_nil
  | some bounds => exact parts.2.2.1 _ rfl

theorem tells_genericParamList : genericParamListRules.Forall (Tells P) :=
  ⟨fun _ _ _ _ parts => List.forall_mem_cons.mpr ⟨parts.1, parts.2.2.1⟩,
    fun _ _ _ _ parts => List.forall_mem_singleton.mpr parts.1,
    fun _ _ _ _ parts => List.forall_mem_singleton.mpr parts.1⟩

theorem tells_colonBounds : colonBoundsRules.Forall (Tells P) := by
  intro _ _ vs _ parts
  obtain ⟨_, bounds, _⟩ := vs
  cases bounds with
  | none => exact eachText_nil
  | some bounds => exact parts.2.1 _ rfl

theorem tells_output : outputRules.Forall (Tells P) := fun _ _ _ _ parts => parts.2.1

theorem tells_wherePredicate : wherePredicateRules.Forall (Tells P) :=
  ⟨fun _ _ _ own _ => own, fun _ _ _ own _ => own⟩

theorem tells_wherePredicates : wherePredicatesRules.Forall (Tells P) :=
  ⟨fun _ _ _ _ parts => List.forall_mem_cons.mpr ⟨parts.1, parts.2.2.1⟩,
    fun _ _ _ _ parts => List.forall_mem_singleton.mpr parts.1,
    fun _ _ _ _ parts => List.forall_mem_singleton.mpr parts.1⟩

theorem tells_whereClause : whereClauseRules.Forall (Tells P) := by
  intro _ _ vs _ parts
  obtain ⟨_, predicates, _⟩ := vs
  cases predicates with
  | none => exact List.forall_mem_nil _
  | some predicates => exact parts.2.1 _ rfl

theorem tells_param : paramRules.Forall (Tells P) :=
  fun _ _ _ _ parts => ⟨parts.2.1, parts.2.2.2.1, parts.1⟩

theorem tells_paramList : paramListRules.Forall (Tells P) :=
  ⟨fun _ _ _ _ parts => List.forall_mem_cons.mpr ⟨parts.1, parts.2.2.1⟩,
    fun _ _ _ _ parts => List.forall_mem_singleton.mpr parts.1,
    fun _ _ _ _ parts => List.forall_mem_singleton.mpr parts.1⟩

theorem tells_selfParam : selfParamRules.Forall (Tells P) := by
  refine ⟨fun _ _ vs _ parts => ⟨parts.1, fun text listed => ?_⟩,
    fun _ _ _ _ parts => ⟨parts.1, parts.2.2.2.2.1⟩, fun _ _ _ _ parts => ⟨parts.1, trivial⟩⟩
  obtain ⟨t, own, rfl⟩ := Option.map_eq_some_iff.mp listed
  exact parts.2.2.1 t own

theorem tells_params : paramsRules.Forall (Tells P) := by
  refine ⟨fun _ _ _ _ parts => ⟨?_, parts.2.2.1⟩, fun _ _ _ _ parts => ⟨?_, List.forall_mem_nil _⟩,
    fun _ _ _ _ parts => ⟨?_, List.forall_mem_nil _⟩, fun _ _ _ _ parts => ⟨?_, parts.1⟩⟩
  · rintro r ⟨⟩
    exact parts.1
  · rintro r ⟨⟩
    exact parts.1
  · rintro r ⟨⟩
    exact parts.1
  · rintro r ⟨⟩

theorem tells_signature : signatureRules.Forall (Tells P) := by
  intro _ _ vs _ parts
  obtain ⟨visibility, _, _, _, _, abi, _, name, generics, _, params, _, output, whereClause, _⟩ := vs
  obtain ⟨shown, _, _, _, _, linked, _, named, generic, _, given, _, answered, required, _⟩ := parts
  refine ⟨named, shown, linked, ?_, ?_, ?_, answered, ?_⟩
  · cases generics with
    | none => exact List.forall_mem_nil _
    | some generics => exact generic _ rfl
  · cases params with
    | none => rintro r ⟨⟩
    | some params => exact (given _ rfl).1
  · cases params with
    | none => exact List.forall_mem_nil _
    | some params => exact (given _ rfl).2
  · cases whereClause with
    | none => exact List.forall_mem_nil _
    | some clause => exact List.forall_mem_map.mpr (required _ rfl)

theorem tells_block : blockRules.Forall (Tells P) := fun _ _ _ own _ => own

theorem tells_body : bodyRules.Forall (Tells P) := by
  refine ⟨fun _ _ _ _ parts => ?_, fun _ _ _ _ _ => ?_⟩
  · rintro b ⟨⟩
    exact parts.1
  · rintro b ⟨⟩

theorem tells_method : methodRules.Forall (Tells P) :=
  fun _ _ _ _ parts => ⟨parts.2.1, parts.2.2.1⟩

theorem tells_member : memberRules.Forall (Tells P) :=
  ⟨fun _ _ _ _ parts => parts.1, fun _ _ _ _ _ => trivial⟩

theorem tells_members : membersRules.Forall (Tells P) :=
  ⟨fun _ _ _ _ _ => List.forall_mem_nil _,
    fun _ _ _ _ parts => List.forall_mem_cons.mpr ⟨parts.1, parts.2.1⟩⟩

theorem tells_implemented : implementedRules.Forall (Tells P) := fun _ _ _ _ parts => parts.2.1

theorem tells_declaration : declarationRules.Forall (Tells P) := by
  refine ⟨fun _ _ vs _ parts => ?_, fun _ _ vs _ parts => ?_⟩
  · obtain ⟨_, _, _, _, name, generics, _, whereClause, _, members, _⟩ := vs
    obtain ⟨_, _, _, _, named, generic, _, required, _, inner, _⟩ := parts
    refine ⟨⟨named, ?_, ?_⟩, inner⟩
    · cases generics with
      | none => exact List.forall_mem_nil _
      | some generics => exact generic _ rfl
    · cases whereClause with
      | none => exact List.forall_mem_nil _
      | some clause => exact List.forall_mem_map.mpr (required _ rfl)
  · obtain ⟨_, _, _, generics, implemented, selfTy, whereClause, _, members, _⟩ := vs
    obtain ⟨_, _, _, generic, shown, own, required, _, inner, _⟩ := parts
    refine ⟨⟨⟨own, shown⟩, ?_, ?_⟩, inner⟩
    · cases generics with
      | none => exact List.forall_mem_nil _
      | some generics => exact generic _ rfl
    · cases whereClause with
      | none => exact List.forall_mem_nil _
      | some clause => exact List.forall_mem_map.mpr (required _ rfl)

end

section

variable {P : String → Prop} {source : String}

-- What holds of the tokens and of the stretches of a row holds of what is copied from it.
theorem eachText_of_quoted {items : List Item} {w : List Token} (quoted : Quoted source items w)
    (tokens : ∀ t ∈ w, P t.text) (stretches : ∀ u, u <:+: w → P (wording source u)) :
    EachText P items := by
  induction quoted with
  | nil => exact eachText_nil
  | @bare item items w none _ ih =>
    refine List.forall_mem_cons.mpr ⟨fun text own => ?_, ih tokens stretches⟩
    rw [none] at own
    cases own
  | @text item items row w front from_ _ ih =>
    have later := ih (fun t listed => tokens t (by simp [listed])) fun u inside => stretches u
      (inside.trans ((List.suffix_append _ _).trans (List.suffix_append _ _)).isInfix)
    have part : row <:+: front ++ (row ++ w) := ⟨front, w, by simp⟩
    refine List.forall_mem_cons.mpr ⟨fun text own => ?_, later⟩
    cases item with
    | mark kind => cases own
    | blank => cases own
    | name _ =>
      cases own
      obtain ⟨t, rfl, rfl, _⟩ := from_
      exact tokens t (part.subset (.head _))
    | lifetime _ =>
      cases own
      obtain ⟨t, rfl, rfl, _⟩ := from_
      exact tokens t (part.subset (.head _))
    | quote _ =>
      cases own
      rw [from_.1]
      exact stretches row part
    | length _ =>
      cases own
      rw [from_.1]
      exact stretches row part

variable (P source) in
-- What is known of a row of tokens, and of what it is read as.
structure Voiced (w : List Token) : Prop where
  tokens : ∀ t ∈ w, P t.text
  stretches : ∀ u, u <:+: w → P (wording source u)
  faithful : Faithful source w

theorem Voiced.stretch {w u : List Token} (voiced : Voiced P source w) (part : u <:+: w) :
    Voiced P source u where
  tokens t listed := voiced.tokens t (part.subset listed)
  stretches v inside := voiced.stretches v (inside.trans part)
  faithful := voiced.faithful.stretch part

theorem Grammar.PartSym.told {s : Sym Nonterminal} {w : List Token} {v : s.Val declarations.Val}
    (part : PartSym declarations (fun n w v => Voiced P source w → n.Told P v) s w v)
    (voiced : Voiced P source w) : symTold P s v := by
  induction s generalizing w with
  | tok kinds =>
    cases part with
    | tok _ => exact voiced.tokens v (.head _)
  | ref n =>
    cases part with
    | ref told => exact told voiced
  | maybe s ih =>
    cases part with
    | absent _ => rintro v ⟨⟩
    | present inner =>
      rintro v ⟨⟩
      exact ih inner voiced

theorem Grammar.Parts.told {rhs : List (Sym Nonterminal)} {w : List Token}
    {vs : Values declarations.Val rhs}
    (parts : Parts declarations (fun n w v => Voiced P source w → n.Told P v) rhs w vs)
    (voiced : Voiced P source w) : rhsTold P rhs vs := by
  induction rhs generalizing w with
  | nil => trivial
  | cons s rest ih =>
    cases parts with
    | @cons _ _ w u v vs first others _ =>
      exact ⟨first.told (voiced.stretch (List.prefix_append w u).isInfix),
        ih others (voiced.stretch (List.suffix_append w u).isInfix)⟩

theorem told_printed {n : Nonterminal} (printed : n ∈ printedNonterminals) (v : n.Val) :
    n.Told P v ↔ EachText P (n.face.items v) := by
  cases n <;> first | exact Iff.rfl | exact absurd printed (by decide)

theorem tells_productions {n : Nonterminal} (other : n ∉ printedNonterminals) {p : Rule n}
    (listed : p ∈ declarations.productions n) : Tells P p := by
  have from_ {rules : List (Rule n)} (same : declarations.productions n = rules)
      (all : rules.Forall (Tells P)) : Tells P p :=
    List.forall_iff_forall_mem.mp all p (same ▸ listed)
  cases n with
  | outerAttribute => exact from_ rfl tells_outerAttribute
  | outerAttributes => exact from_ rfl tells_outerAttributes
  | visibility => exact from_ rfl tells_visibility
  | abi => exact from_ rfl tells_abi
  | genericParams => exact from_ rfl tells_genericParams
  | genericParam => exact from_ rfl tells_genericParam
  | genericParamList => exact from_ rfl tells_genericParamList
  | colonBounds => exact from_ rfl tells_colonBounds
  | wherePredicate => exact from_ rfl tells_wherePredicate
  | wherePredicates => exact from_ rfl tells_wherePredicates
  | whereClause => exact from_ rfl tells_whereClause
  | pattern => exact from_ rfl tells_pattern
  | param => exact from_ rfl tells_param
  | paramList => exact from_ rfl tells_paramList
  | selfParam => exact from_ rfl tells_selfParam
  | params => exact from_ rfl tells_params
  | output => exact from_ rfl tells_output
  | signature => exact from_ rfl tells_signature
  | block => exact from_ rfl tells_block
  | body => exact from_ rfl tells_body
  | method => exact from_ rfl tells_method
  | member => exact from_ rfl tells_member
  | members => exact from_ rfl tells_members
  | implemented => exact from_ rfl tells_implemented
  | declaration => exact from_ rfl tells_declaration
  | delimited | tree | roundRest | squareRest | curlyRest | constTree | constTrees | scope
  | lifetimeBounds | colonLifetimes | constValue | equalsConst | equalsType | patternAtom | equalsTrees
  | associated => exact fun _ _ _ _ _ => eachText_nil
  | genericArgs | segment | pathTail | path | asPath | qualifiedPath | plainOutput | plainType | bound
  | boundTail | bounds | type | typeList | genericArg | genericArgList | functionPointer | binder
  | arrayLength => exact absurd (by decide) other

theorem told_passed :
    PassedOn declarations source fun n w v => Voiced P source w → n.Told P v := by
  intro n p before after w vs listed first all parts voiced
  by_cases printed : n ∈ printedNonterminals
  · have kept : Kept source source n w (p.build source w vs) :=
      (Preferred.production listed first all).induction carried_passed printed voiced.faithful
    have copied := eachText_of_quoted (kept.quoted false) voiced.tokens voiced.stretches
    exact (told_printed printed _).mpr (eachText_solid.mp copied)
  · exact tells_productions printed (listed ▸ List.mem_append_cons_self) source w vs
      (voiced.stretches w List.infix_rfl) (parts.told voiced)

theorem infix_slice (text : String) (start stop : Nat) : (Text.slice text start stop).toList <:+: text.toList := by
  rw [Text.toList_slice]
  exact (List.take_prefix _ _).isInfix.trans (List.drop_suffix _ _).isInfix

theorem infix_token {text : String} {tokens : List Token} {t : Token} (lexed : lex text = .ok tokens)
    (listed : t ∈ tokens) : t.text.toList <:+: text.toList := by
  obtain ⟨row, whole, _, rfl⟩ := lex_eq_ok_iff.mp lexed
  obtain ⟨before, later, split⟩ := List.append_of_mem listed
  obtain ⟨p, read, q, rfl, _, same, _⟩ := placed_split split
  rw [same, String.toList_ofList, ← whole, joined_append, joined_cons]
  exact ⟨joined p, joined q, by simp⟩

theorem told_of_read {d : Declaration} (read : Declaration.read source = .ok d)
    (texts : ∀ text, text.toList <:+: source.toList → P text) : d.Told P := by
  obtain ⟨tokens, lexed, _, found, _⟩ := Declaration.read_eq_ok_iff.mp read
  have voiced : Voiced P source tokens := {
    tokens := fun t listed => texts _ (infix_token lexed listed)
    stretches := fun u _ => texts _ (infix_slice source _ _)
    faithful := faithful_of_lex lexed }
  exact ((read_eq_ok_iff declarations_ranked).mp found).induction told_passed voiced

end

end Deasync
