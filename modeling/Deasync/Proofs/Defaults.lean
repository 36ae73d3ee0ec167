import Deasync.Proofs.BareParameters

namespace Deasync

open Grammar Rules Lexeme

variable {text : String}

def Member.parameters : Member → List GenericParam
  | method m => m.signature.genericParams
  | associated _ => []

-- The generic parameters of a declaration and of its methods.
def Declaration.parameters (d : Declaration) : List GenericParam :=
  d.genericParams ++ d.members.flatMap Member.parameters

-- The parameters in a value.
def Nonterminal.parameters : (n : Nonterminal) → n.Val → List GenericParam
  | .genericParam, p => [p]
  | .genericParamList, list => list
  | .genericParams, g => Generics.params g
  | .signature, s => Signature.genericParams s
  | .method, m => (Method.signature m).genericParams
  | .member, m => Member.parameters m
  | .members, list => List.flatMap Member.parameters list
  | .declaration, d => Declaration.parameters d
  | _, _ => []

def symParameters : (s : Sym Nonterminal) → s.Val Nonterminal.Val → List GenericParam
  | .tok _, _ => []
  | .ref n, v => n.parameters v
  | .maybe _, none => []
  | .maybe s, some v => symParameters s v

def rhsParameters : (rhs : List (Sym Nonterminal)) → Values Nonterminal.Val rhs → List GenericParam
  | [], _ => []
  | s :: rest, vs => symParameters s vs.1 ++ rhsParameters rest vs.2

-- What a production builds has no parameters but those of its parts.
def Gathers {n : Nonterminal} (p : Rule n) : Prop :=
  ∀ text w vs, n.parameters (p.build text w vs) ⊆ rhsParameters p.rhs vs

theorem symParameters_generics (generics : Option Generics) :
    symParameters (opt .genericParams) generics = Generics.paramsOf generics := by
  cases generics <;> rfl

theorem gathers_genericParamList : genericParamListRules.Forall Gathers := by
  refine ⟨?_, fun _ _ _ _ listed => listed, fun _ _ _ _ listed => listed⟩
  rintro _ _ ⟨first, _, rest, _⟩ q listed
  rcases List.mem_cons.mp listed with rfl | later
  · exact .head _
  · exact List.mem_append_right _ (List.mem_append_right _ (List.mem_append_left _ later))

theorem gathers_genericParams : genericParamsRules.Forall Gathers := by
  refine ⟨fun _ _ _ => List.nil_subset _, ?_⟩
  rintro _ _ ⟨_, list, _⟩ q listed
  exact List.mem_append_right _ (List.mem_append_left _ listed)

theorem gathers_signature : signatureRules.Forall Gathers := by
  rintro _ _ ⟨_, _, _, _, _, _, _, _, generics, _⟩ q listed
  have own : q ∈ symParameters (opt .genericParams) generics := symParameters_generics generics ▸ listed
  simp [rhsParameters, own]

theorem gathers_method : methodRules.Forall Gathers := by
  rintro _ _ ⟨_, signature, _⟩ q listed
  exact List.mem_append_right _ (List.mem_append_left _ listed)

theorem gathers_member : memberRules.Forall Gathers :=
  ⟨fun _ _ _ _ listed => List.mem_append_left _ listed, fun _ _ _ => List.nil_subset _⟩

theorem gathers_members : membersRules.Forall Gathers := by
  refine ⟨fun _ _ _ => List.nil_subset _, ?_⟩
  rintro _ _ ⟨member, rest, _⟩ q listed
  rcases List.mem_append.mp listed with own | later
  · exact List.mem_append_left _ own
  · exact List.mem_append_right _ (List.mem_append_left _ later)

theorem gathers_declaration : declarationRules.Forall Gathers := by
  refine ⟨?_, ?_⟩
  · rintro _ _ ⟨_, _, _, _, _, generics, _, _, _, members, _⟩ q listed
    rcases List.mem_append.mp listed with own | inner
    · have own : q ∈ symParameters (opt .genericParams) generics := symParameters_generics generics ▸ own
      simp [rhsParameters, own]
    · have inner : q ∈ symParameters (ref .members) members := inner
      simp [rhsParameters, inner]
  · rintro _ _ ⟨_, _, _, generics, _, _, _, _, members, _⟩ q listed
    rcases List.mem_append.mp listed with own | inner
    · have own : q ∈ symParameters (opt .genericParams) generics := symParameters_generics generics ▸ own
      simp [rhsParameters, own]
    · have inner : q ∈ symParameters (ref .members) members := inner
      simp [rhsParameters, inner]

theorem gathers_productions {n : Nonterminal} (other : n ≠ .genericParam) {p : Rule n}
    (listed : p ∈ declarations.productions n) : Gathers p := by
  have from_ {rules : List (Rule n)} (same : declarations.productions n = rules)
      (all : rules.Forall Gathers) : Gathers p :=
    List.forall_iff_forall_mem.mp all p (same ▸ listed)
  cases n with
  | genericParam => exact absurd rfl other
  | genericParamList => exact from_ rfl gathers_genericParamList
  | genericParams => exact from_ rfl gathers_genericParams
  | signature => exact from_ rfl gathers_signature
  | method => exact from_ rfl gathers_method
  | member => exact from_ rfl gathers_member
  | members => exact from_ rfl gathers_members
  | declaration => exact from_ rfl gathers_declaration
  | _ => exact fun _ _ _ => List.nil_subset _

section

variable (text : String) (tokens : List Token)

-- The parameter is read from a stretch of the tokens.
def ReadsWithin (p : GenericParam) : Prop :=
  ∃ own, own <:+: tokens ∧ declarations.Preferred text .genericParam own p

-- What is read from a stretch of the tokens has parameters of the tokens.
def Grants (n : Nonterminal) (w : List Token) (v : n.Val) : Prop :=
  w <:+: tokens → ∀ p ∈ n.parameters v, ReadsWithin text tokens p

end

section

variable {tokens : List Token}

theorem Grammar.PartSym.grants {s : Sym Nonterminal} {w : List Token} {v : s.Val declarations.Val}
    (part : PartSym declarations (Grants text tokens) s w v) (inside : w <:+: tokens) :
    ∀ p ∈ symParameters s v, ReadsWithin text tokens p := by
  induction part with
  | tok _ => exact List.forall_mem_nil _
  | ref grants => exact grants inside
  | absent _ => exact List.forall_mem_nil _
  | present _ ih => exact ih inside

theorem Grammar.Parts.grants {rhs : List (Sym Nonterminal)} {w : List Token}
    {vs : Values declarations.Val rhs} (parts : Parts declarations (Grants text tokens) rhs w vs)
    (inside : w <:+: tokens) : ∀ p ∈ rhsParameters rhs vs, ReadsWithin text tokens p := by
  induction parts with
  | nil => exact List.forall_mem_nil _
  | @cons _ _ w u _ _ first _ _ ih =>
    exact List.forall_mem_append.mpr
      ⟨first.grants ((List.prefix_append w u).isInfix.trans inside),
        ih ((List.suffix_append w u).isInfix.trans inside)⟩

theorem grants_passed : PassedOn declarations text (Grants text tokens) := by
  intro n p before after w vs listed first all parts inside
  by_cases own : n = .genericParam
  · subst own
    exact List.forall_mem_singleton.mpr ⟨w, inside, .production listed first all⟩
  · intro q built
    have member : p ∈ declarations.productions n := listed ▸ List.mem_append_cons_self
    exact parts.grants inside q (gathers_productions own member text w vs built)

theorem parameters_stand {d : Declaration} (read : Declaration.read text = .ok d) :
    ∃ tokens, lex text = .ok tokens ∧ ∀ p ∈ d.parameters, ReadsWithin text tokens p := by
  obtain ⟨tokens, lexed, _, found, _⟩ := Declaration.read_eq_ok_iff.mp read
  exact ⟨tokens, lexed, ((read_eq_ok_iff declarations_ranked).mp found).induction grants_passed
    List.infix_rfl⟩

end

-- No array length that stands in front of the default, however deep, ends with a line of documentation.
def GenericParam.PlainLengths (p : GenericParam) : Prop :=
  p.hasDefault → ∀ item ∈ p.bareItems, item.EndsPlain

instance (p : GenericParam) : Decidable p.PlainLengths :=
  inferInstanceAs (Decidable (_ → ∀ item ∈ p.bareItems, item.EndsPlain))

theorem parameter_read_alone {d : Declaration} {p : GenericParam} (read : Declaration.read text = .ok d)
    (listed : p ∈ d.parameters) :
    (ReadsAlone p.text fun q => q.unplaced = p.unplaced) ∧
      (p.PlainLengths →
        ReadsAlone p.renderBare fun q => q.name = p.name ∧ q.sort.unplaced = p.sort.bare.unplaced) := by
  obtain ⟨tokens, lexed, stand⟩ := parameters_stand read
  obtain ⟨w, ⟨front, later, rfl⟩, own⟩ := stand p listed
  rw [List.append_assoc] at lexed
  have whole := readsAlone_text lexed own
  refine ⟨whole, fun plain => ?_⟩
  cases given : p.hasDefault with
  | true => exact readsAlone_bare lexed own given (plain given)
  | false =>
    obtain ⟨same, sort⟩ := GenericParam.renderBare_plain given
    rw [same, sort]
    exact whole.imp fun _ => GenericParam.of_unplaced

def defaultsText : String :=
  "trait A<T: ?Sized + for<'a> Fn(&'a T) = u8> \x7b fn f<const N: u8 = 3>(); \x7d"

theorem parameter_read_alone_defaults : ∃ d, Declaration.read defaultsText = .ok d ∧
    d.parameters.map GenericParam.name = ["T", "N"] ∧
    ∀ p ∈ d.parameters, p.PlainLengths ∧ (ReadsAlone p.text fun q => q.unplaced = p.unplaced) ∧
      ReadsAlone p.renderBare fun q => q.name = p.name ∧ q.sort.unplaced = p.sort.bare.unplaced := by
  have accepted : (Declaration.read defaultsText).toOption.any fun d =>
      d.parameters.map GenericParam.name = ["T", "N"] ∧
        ∀ p ∈ d.parameters, p.PlainLengths := by
    decide +kernel
  obtain ⟨d, found, fits⟩ := (Option.any_eq_true _ _).mp accepted
  have read := toOption_eq_some found
  obtain ⟨names, plain⟩ := of_decide_eq_true fits
  refine ⟨d, read, names, fun p listed => ?_⟩
  obtain ⟨whole, bare⟩ := parameter_read_alone read listed
  exact ⟨plain p listed, whole, bare (plain p listed)⟩

def documentedDefault : String := "trait A<T: B<[u8; 3 /// x\n]> = u8> \x7b\x7d"

-- The line of documentation takes in the bracket that is printed behind it.
theorem parameter_read_alone_documented : ∃ d, Declaration.read documentedDefault = .ok d ∧
    ∃ p ∈ d.parameters, ¬ReadsAlone p.renderBare fun q =>
      q.name = p.name ∧ q.sort.unplaced = p.sort.bare.unplaced := by
  have accepted : (Declaration.read documentedDefault).toOption.any fun d =>
      ∃ p ∈ d.parameters,
        (Declaration.read ("trait A<" ++ p.renderBare ++ "> \x7b\x7d")).toOption.isNone := by
    decide +kernel
  obtain ⟨d, found, fits⟩ := (Option.any_eq_true _ _).mp accepted
  obtain ⟨p, listed, refused⟩ := of_decide_eq_true fits
  refine ⟨d, toOption_eq_some found, p, listed, fun reads => ?_⟩
  obtain ⟨_, _, again, _⟩ := reads.trait
  rw [again] at refused
  cases refused

end Deasync
