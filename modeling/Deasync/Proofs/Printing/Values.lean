import Deasync.Grammar.Rules
import Deasync.Proofs.Printing.Sources
import Deasync.Proofs.Printing.Unplaced

namespace Deasync

open Rules

-- Arguments stand behind a `::`.
def Segment.expressed : Segment → Segment
  | .angled name _ arguments => .angled name true arguments
  | segment => segment

def Path.expressed : Path → Path
  | .mk root head tail extent => .mk root head.expressed (tail.map Segment.expressed) extent

def Ty.expressed : Ty → Ty
  | .path p => .path p.expressed
  | ty => ty

-- How the values of a nonterminal are printed, and what is left of them without places. A list that was
-- read is `filled`: it has a first element.
structure Face (V : Type) where
  unplaced : V → V
  items : V → List Item
  expressed : V → V
  filled : V → Prop

-- A value as it is printed inside an expression, or outside.
def Face.given {V : Type} (face : Face V) (expression : Bool) (v : V) : V :=
  match expression with
  | true => face.expressed v
  | false => v

def textFace (items : String → List Item) : Face String := ⟨id, items, id, fun _ => True⟩

def Ty.face : Face Ty := ⟨Ty.unplaced, Ty.items, Ty.expressed, fun _ => True⟩

def Ty.faceOutput : Face Ty :=
  ⟨Ty.unplaced, fun ty => .blank :: .mark .arrow :: .blank :: ty.items, id, fun _ => True⟩

def Ty.faceEach : Face (List Ty) :=
  ⟨Ty.unplacedEach, fun types => listed (Ty.itemsEach types), id, (· ≠ [])⟩

def Path.face : Face Path := ⟨Path.unplaced, Path.items, Path.expressed, fun _ => True⟩

def Path.faceAs : Face Path :=
  ⟨Path.unplaced, fun path => .blank :: .mark .asWord :: .blank :: path.items, id, fun _ => True⟩

def Segment.face : Face Segment :=
  ⟨Segment.unplaced, Segment.items false, Segment.expressed, fun _ => True⟩

def Segment.faceTail : Face (List Segment) :=
  ⟨Segment.unplacedEach, Segment.itemsTail false, List.map Segment.expressed, fun _ => True⟩

def GenericArg.face : Face GenericArg := ⟨GenericArg.unplaced, GenericArg.items, id, fun _ => True⟩

def GenericArg.faceEach : Face (List GenericArg) :=
  ⟨GenericArg.unplacedEach, fun list => listed (GenericArg.itemsEach list), id, (· ≠ [])⟩

def GenericArg.faceAngled : Face (List GenericArg) :=
  ⟨GenericArg.unplacedEach,
    fun list => .mark .less :: (listed (GenericArg.itemsEach list) ++ [.mark .greater]), id,
    fun _ => True⟩

def Bound.face : Face Bound := ⟨Bound.unplaced, Bound.items, id, fun _ => True⟩

def Bound.faceEach : Face (List Bound) :=
  ⟨Bound.unplacedEach, fun bounds => summed (Bound.itemsEach bounds), id, fun _ => True⟩

def Bound.faceTail : Face (List Bound) :=
  ⟨Bound.unplacedEach,
    fun bounds => .blank :: .mark .plus :: .blank :: summed (Bound.itemsEach bounds), id, (· ≠ [])⟩

namespace Nonterminal

def face : (n : Nonterminal) → Face n.Val
  | genericArgs => GenericArg.faceAngled
  | genericArgList => GenericArg.faceEach
  | genericArg => GenericArg.face
  | segment => Segment.face
  | pathTail => Segment.faceTail
  | path | qualifiedPath => Path.face
  | asPath => Path.faceAs
  | plainOutput => Ty.faceOutput
  | functionPointer | plainType | type => Ty.face
  | typeList => Ty.faceEach
  | bound => Bound.face
  | bounds => Bound.faceEach
  | boundTail => Bound.faceTail
  | binder => textFace fun names => [.quote names]
  | arrayLength => textFace fun text => [.length text]
  | _ => ⟨id, fun _ => [], id, fun _ => True⟩

-- Whether the arguments of `m` stand behind a `::` when those of `n` do.
def inherits (n m : Nonterminal) : Bool :=
  match n with
  | type => m = plainType
  | plainType => m = path ∨ m = qualifiedPath ∨ m = functionPointer
  | path | qualifiedPath | pathTail => m = segment ∨ m = pathTail
  | _ => false

@[simp] theorem face_genericArgs : genericArgs.face = GenericArg.faceAngled := rfl
@[simp] theorem face_genericArgList : genericArgList.face = GenericArg.faceEach := rfl
@[simp] theorem face_genericArg : genericArg.face = GenericArg.face := rfl
@[simp] theorem face_segment : segment.face = Segment.face := rfl
@[simp] theorem face_pathTail : pathTail.face = Segment.faceTail := rfl
@[simp] theorem face_path : path.face = Path.face := rfl
@[simp] theorem face_qualifiedPath : qualifiedPath.face = Path.face := rfl
@[simp] theorem face_asPath : asPath.face = Path.faceAs := rfl
@[simp] theorem face_plainOutput : plainOutput.face = Ty.faceOutput := rfl
@[simp] theorem face_functionPointer : functionPointer.face = Ty.face := rfl
@[simp] theorem face_plainType : plainType.face = Ty.face := rfl
@[simp] theorem face_type : type.face = Ty.face := rfl
@[simp] theorem face_typeList : typeList.face = Ty.faceEach := rfl
@[simp] theorem face_bound : bound.face = Bound.face := rfl
@[simp] theorem face_bounds : bounds.face = Bound.faceEach := rfl
@[simp] theorem face_boundTail : boundTail.face = Bound.faceTail := rfl
@[simp] theorem face_binder : binder.face = textFace fun names => [.quote names] := rfl
@[simp] theorem face_arrayLength : arrayLength.face = textFace fun text => [.length text] := rfl

end Nonterminal

attribute [simp] textFace Ty.face Ty.faceOutput Ty.faceEach Path.face Path.faceAs Segment.face
  Segment.faceTail GenericArg.face GenericArg.faceEach GenericArg.faceAngled Bound.face Bound.faceEach
  Bound.faceTail

-- The kinds of tokens that are printed as they are spelled.
def Kind.spelled : List Kind := [.ident, .selfWord, .lifetime]

def Token.item (t : Token) : Item :=
  if t.kind = .lifetime then .lifetime t.text
  else if t.kind ∈ Kind.spelled then .name t.text
  else .mark t.kind

section

variable (n : Nonterminal) (expression : Bool)

def symItems : (s : Sym Nonterminal) → s.Val Nonterminal.Val → List Item
  | .tok _, t => [Token.item t]
  | .ref m, v => solid (m.face.items (m.face.given (n.inherits m && expression) v))
  | .maybe _, none => []
  | .maybe s, some v => symItems s v

def rhsItems : (rhs : List (Sym Nonterminal)) → Values Nonterminal.Val rhs → List Item
  | [], _ => []
  | s :: rest, vs => symItems n expression s vs.1 ++ rhsItems rest vs.2

-- Values that differ in nothing but their places, and in a `::` in front of arguments.
def symAlike : (s : Sym Nonterminal) → s.Val Nonterminal.Val → s.Val Nonterminal.Val → Prop
  | .tok kinds, t, t' => t.kind ∈ kinds ∧ t'.kind = t.kind ∧ (t.kind ∈ Kind.spelled → t'.text = t.text)
  | .ref m, v, v' => m.face.unplaced v' = m.face.unplaced (m.face.given (n.inherits m && expression) v)
  | .maybe _, none, none => True
  | .maybe s, some v, some v' => symAlike s v v'
  | .maybe _, _, _ => False

def rhsAlike : (rhs : List (Sym Nonterminal)) → (vs vs' : Values Nonterminal.Val rhs) → Prop
  | [], _, _ => True
  | s :: rest, vs, vs' => symAlike n expression s vs.1 vs'.1 ∧ rhsAlike rest vs.2 vs'.2

end

def symFilled : (s : Sym Nonterminal) → s.Val Nonterminal.Val → Prop
  | .tok kinds, t => Token.kind t ∈ kinds
  | .ref n, v => n.face.filled v
  | .maybe _, none => True
  | .maybe s, some v => symFilled s v

def rhsFilled : (rhs : List (Sym Nonterminal)) → Values Nonterminal.Val rhs → Prop
  | [], _ => True
  | s :: rest, vs => symFilled s vs.1 ∧ rhsFilled rest vs.2

theorem Path.unplaced_congr {root root' : Root} {head head' : Segment} {tail tail' : List Segment}
    (start : root'.unplaced = root.unplaced) (first : head'.unplaced = head.unplaced)
    (rest : Segment.unplacedEach tail' = Segment.unplacedEach tail) :
    Path.mk root'.unplaced head'.unplaced (Segment.unplacedEach tail') default =
      .mk root.unplaced head.unplaced (Segment.unplacedEach tail) default := by
  rw [start, first, rest]

structure Regular {n : Nonterminal} (p : Rule n) (expression : Bool)
    (vs : Values Nonterminal.Val p.rhs) : Prop where
  items : ∀ text w, rhsFilled p.rhs vs →
    solid (n.face.items (n.face.given expression (p.build text w vs))) = rhsItems n expression p.rhs vs
  alike : ∀ text w text' w' vs', rhsAlike n expression p.rhs vs vs' →
    n.face.unplaced (p.build text' w' vs') =
      n.face.unplaced (n.face.given expression (p.build text w vs))

-- Right-hand sides of what is kept as text.
def copiedSymbols : List (List (Sym Nonterminal)) :=
  [[opt .binder, may .unsafeWord, opt .abi, one .fnWord, one .openRound, ref .roundRest,
    opt .plainOutput],
   [ref .path, one .bang, ref .delimited],
   [one .forWord, ref .genericParams],
   [ref .constTrees],
   [one .openCurly, ref .curlyRest],
   [one .number]]

-- Right-hand sides that are not printed as their parts are: those of texts and of references, where
-- ampersands may run together; a list with a comma at its end; and arguments that may get a `::`.
def irregular : List (List (Sym Nonterminal)) :=
  copiedSymbols ++
  [[one .ampersand, may .lifetime, may .mutWord, ref .type],
   [one .ampersands, may .lifetime, may .mutWord, ref .type],
   [ref .type, one .comma],
   [ref .genericArg, one .comma],
   [.tok [.ident, .selfWord], opt .genericArgs]]

section

variable {n : Nonterminal} {e : Bool}

theorem alike_isSome {s : Sym Nonterminal} {o o' : Option (s.Val Nonterminal.Val)}
    (alike : symAlike n e (.maybe s) o o') : o'.isSome = o.isSome := by
  cases o <;> cases o' <;> first | rfl | cases alike

theorem alike_texts {kinds : List Kind} {o o' : Option Token}
    (alike : symAlike n e (.maybe (.tok kinds)) o o') (spelled : ∀ k ∈ kinds, k ∈ Kind.spelled) :
    o'.map Token.text = o.map Token.text := by
  cases o with
  | none => cases o' with
    | none => rfl
    | some t' => cases alike
  | some t => cases o' with
    | none => cases alike
    | some t' => exact congrArg some (alike.2.2 (spelled _ alike.1))

theorem alike_binder {o o' : Option String} (alike : symAlike n e (.maybe (.ref .binder)) o o')
    (outside : n.inherits .binder = false) : o' = o := by
  cases o with
  | none => cases o' with
    | none => rfl
    | some names' => cases alike
  | some names => cases o' with
    | none => cases alike
    | some names' =>
      simp only [symAlike, outside] at alike
      exact congrArg some alike

theorem trait_alike {maybe maybe' : Option Token}
    {binder binder' : Option String} {path path' : Path} (paren : Bool)
    (begun : symAlike n e (may .question) maybe maybe')
    (bound : symAlike n e (opt .binder) binder binder') (outside : n.inherits .binder = false)
    (same : path'.unplaced = path.unplaced) :
    (Bound.trait maybe'.isSome binder' paren path').unplaced =
      (Bound.trait maybe.isSome binder paren path).unplaced := by
  rw [Bound.unplaced, Bound.unplaced, show maybe'.isSome = maybe.isSome from alike_isSome begun,
    alike_binder bound outside, same]

theorem root_alike {lead lead' : Option Token}
    (alike : symAlike n e (may .pathSep) lead lead') :
    (rootOf lead').unplaced = (rootOf lead).unplaced := by
  rw [rootOf, rootOf, show lead'.isSome = lead.isSome from alike_isSome alike]

theorem qualified_alike {ty ty' : Ty} {asTrait asTrait' : Option Path}
    (same : ty'.unplaced = ty.unplaced)
    (alike : symAlike .qualifiedPath e (opt .asPath) asTrait asTrait') :
    (Root.qualified ty' asTrait').unplaced = (Root.qualified ty asTrait).unplaced := by
  cases asTrait <;> cases asTrait' <;> first
    | exact alike.elim
    | exact congrArg (Root.qualified · none) same
    | exact congrArg₂ (fun t p => Root.qualified t (some p)) same alike

theorem binding_alike {name : String} {list list' : Option (List GenericArg)} {ty ty' : Ty}
    (alike : symAlike .genericArg e (opt .genericArgs) list list') (same : ty'.unplaced = ty.unplaced) :
    (GenericArg.binding name list' ty').unplaced = (GenericArg.binding name list ty).unplaced := by
  cases list <;> cases list' <;> first
    | exact alike.elim
    | exact congrArg (GenericArg.binding name none) same
    | exact congrArg₂ (fun list ty => GenericArg.binding name (some list) ty) alike same

theorem constraint_alike {name : String} {list list' : Option (List GenericArg)}
    {bounds bounds' : List Bound} (alike : symAlike .genericArg e (opt .genericArgs) list list')
    (same : Bound.unplacedEach bounds' = Bound.unplacedEach bounds) :
    (GenericArg.constraint name list' bounds').unplaced =
      (GenericArg.constraint name list bounds).unplaced := by
  cases list <;> cases list' <;> first
    | exact alike.elim
    | exact congrArg (GenericArg.constraint name none) same
    | exact congrArg₂ (fun list bounds => GenericArg.constraint name (some list) bounds) alike same

end

theorem listed_cons {row : List Item} {rows : List (List Item)} (more : rows ≠ []) :
    listed (row :: rows) = row ++ .mark .comma :: .blank :: listed rows := by
  obtain ⟨next, rows, rfl⟩ := List.exists_cons_of_ne_nil more
  rw [listed, separated_cons, List.append_assoc]
  rfl

theorem summed_cons {row : List Item} {rows : List (List Item)} (more : rows ≠ []) :
    summed (row :: rows) = row ++ .blank :: .mark .plus :: .blank :: summed rows := by
  obtain ⟨next, rows, rfl⟩ := List.exists_cons_of_ne_nil more
  rw [summed, separated_cons, List.append_assoc]
  rfl

theorem Ty.itemsEach_ne_nil {ts : List Ty} (filled : ts ≠ []) : Ty.itemsEach ts ≠ [] := by
  obtain ⟨t, ts, rfl⟩ := List.exists_cons_of_ne_nil filled
  simp [Ty.itemsEach]

theorem GenericArg.itemsEach_ne_nil {list : List GenericArg} (filled : list ≠ []) :
    GenericArg.itemsEach list ≠ [] := by
  obtain ⟨a, list, rfl⟩ := List.exists_cons_of_ne_nil filled
  simp [GenericArg.itemsEach]

theorem Bound.itemsEach_ne_nil {bs : List Bound} (filled : bs ≠ []) : Bound.itemsEach bs ≠ [] := by
  obtain ⟨b, bs, rfl⟩ := List.exists_cons_of_ne_nil filled
  simp [Bound.itemsEach]

theorem listed_single (row : List Item) : listed [row] = row := rfl

theorem summed_single (row : List Item) : summed [row] = row := rfl

section

attribute [local simp] Face.given rhsFilled symFilled rhsItems symItems Token.item Kind.spelled
  Nonterminal.inherits listed_single summed_single listed_cons summed_cons Ty.itemsEach_ne_nil
  GenericArg.itemsEach_ne_nil Bound.itemsEach_ne_nil

variable (e : Bool)

theorem typeList_regular :
    ∀ p ∈ typeListRules, p.rhs ∉ irregular → ∀ vs, Regular p e vs := by
  simp only [typeListRules, List.forall_mem_cons]
  refine ⟨?_, fun out => absurd (by decide) out, ?_, List.forall_mem_nil _⟩
  · rintro - ⟨(ty : Ty), comma, (rest : List Ty), _⟩
    constructor
    · intro text w full
      cases e <;> simp_all [Ty.itemsEach]
    · rintro text w text' w' ⟨ty', comma', rest', _⟩ ⟨first, -, others, -⟩
      cases e <;> exact congrArg₂ List.cons first others
  · rintro - ⟨(ty : Ty), _⟩
    constructor
    · intro text w full
      cases e <;> simp_all [Ty.itemsEach]
    · rintro text w text' w' ⟨ty', _⟩ ⟨only, -⟩
      cases e <;> exact congrArg ([·]) only

theorem genericArgList_regular :
    ∀ p ∈ genericArgListRules, p.rhs ∉ irregular → ∀ vs, Regular p e vs := by
  simp only [genericArgListRules, List.forall_mem_cons]
  refine ⟨?_, fun out => absurd (by decide) out, ?_, List.forall_mem_nil _⟩
  · rintro - ⟨(a : GenericArg), comma, (rest : List GenericArg), _⟩
    constructor
    · intro text w full
      cases e <;> simp_all [GenericArg.itemsEach]
    · rintro text w text' w' ⟨a', comma', rest', _⟩ ⟨first, -, others, -⟩
      cases e <;> exact congrArg₂ List.cons first others
  · rintro - ⟨(a : GenericArg), _⟩
    constructor
    · intro text w full
      cases e <;> simp_all [GenericArg.itemsEach]
    · rintro text w text' w' ⟨a', _⟩ ⟨only, -⟩
      cases e <;> exact congrArg ([·]) only

theorem boundTail_regular : ∀ p ∈ boundTailRules, ∀ vs, Regular p e vs := by
  simp only [boundTailRules, List.forall_mem_cons]
  refine ⟨?_, ?_, List.forall_mem_nil _⟩
  · rintro ⟨plus, (b : Bound), _⟩
    constructor
    · intro text w full
      cases e <;> simp_all [Bound.itemsEach]
    · rintro text w text' w' ⟨plus', b', _⟩ ⟨-, only, -⟩
      cases e <;> exact congrArg ([·]) only
  · rintro ⟨plus, (b : Bound), (rest : List Bound), _⟩
    constructor
    · intro text w full
      cases e <;> simp_all [Bound.itemsEach]
    · rintro text w text' w' ⟨plus', b', rest', _⟩ ⟨-, first, others, -⟩
      cases e <;> exact congrArg₂ List.cons first others

theorem bounds_regular : ∀ p ∈ boundsRules, ∀ vs, Regular p e vs := by
  simp only [boundsRules, List.forall_mem_cons]
  refine ⟨?_, ?_, List.forall_mem_nil _⟩
  · rintro ⟨(b : Bound), (rest : List Bound), _⟩
    constructor
    · intro text w full
      cases e <;> simp_all [Bound.itemsEach]
    · rintro text w text' w' ⟨b', rest', _⟩ ⟨first, others, -⟩
      cases e <;> exact congrArg₂ List.cons first others
  · rintro ⟨(b : Bound), _⟩
    constructor
    · intro text w full
      cases e <;> simp_all [Bound.itemsEach]
    · rintro text w text' w' ⟨b', _⟩ ⟨only, -⟩
      cases e <;> exact congrArg ([·]) only

theorem genericArgs_regular : ∀ p ∈ genericArgsRules, ∀ vs, Regular p e vs := by
  simp only [genericArgsRules, List.forall_mem_cons]
  refine ⟨?_, ?_, List.forall_mem_nil _⟩
  · rintro ⟨less, greater, _⟩
    constructor
    · intro text w full
      cases e <;> simp_all [GenericArg.itemsEach, listed, separated]
    · intro text w text' w' vs' alike
      cases e <;> rfl
  · rintro ⟨less, (list : List GenericArg), greater, _⟩
    constructor
    · intro text w full
      cases e <;> simp_all
    · rintro text w text' w' ⟨less', list', greater', _⟩ ⟨-, same, -⟩
      cases e <;> exact same

-- The rule for a segment that may have arguments.
def segmentRule : Rule .segment := segmentRules.head (by decide)

theorem spelled_of_name {t : Token} (kind : t.kind ∈ [.ident, .selfWord]) : t.kind ∈ Kind.spelled := by
  rcases List.mem_pair.mp kind with same | same <;> rw [same] <;> decide

theorem item_of_name {t : Token} (kind : t.kind ∈ [.ident, .selfWord]) : t.item = .name t.text := by
  rcases List.mem_pair.mp kind with same | same <;> simp [same]

theorem segmentRule_regular {name : Token} {arguments : Option (List GenericArg)}
    (plain : e = false ∨ arguments = none) : Regular segmentRule e (name, arguments, ()) where
  items := by
    rintro text w ⟨kind, -⟩
    have first : Token.item name = .name name.text := item_of_name kind
    cases arguments with
    | none => cases e <;> exact congrArg ([·]) first.symm
    | some list =>
      obtain rfl : e = false := plain.resolve_right (by simp)
      change solid (Segment.items false (.angled name.text false list)) =
        Token.item name :: (solid (GenericArg.faceAngled.items list) ++ [])
      rw [first]
      simp [Segment.items]
  alike := by
    rintro text w text' w' ⟨name', (arguments' : Option (List GenericArg)), _⟩
      ⟨⟨kind, -, same⟩, list, -⟩
    have spelled : Token.text name' = name.text := same (spelled_of_name kind)
    cases arguments with
    | none =>
      cases arguments' with
      | some list' => exact list.elim
      | none => cases e <;> exact congrArg Segment.plain spelled
    | some list =>
      obtain rfl : e = false := plain.resolve_right (by simp)
      cases arguments' with
      | none => exact list.elim
      | some list' => exact congrArg₂ (Segment.angled · false ·) spelled list

theorem segment_regular :
    ∀ p ∈ segmentRules, p.rhs ∉ irregular → ∀ vs, Regular p e vs := by
  simp only [segmentRules, List.forall_mem_cons]
  refine ⟨fun out => absurd (by decide) out, ?_, ?_, List.forall_mem_nil _⟩
  · rintro - ⟨name, sep, (list : List GenericArg), _⟩
    constructor
    · rintro text w ⟨kind, full⟩
      have first := item_of_name kind
      cases e <;> simp_all [Segment.expressed, Segment.items]
    · rintro text w text' w' ⟨name', sep', list', _⟩ ⟨⟨kind, -, same⟩, -, arguments, -⟩
      have spelled : Token.text name' = name.text := same (spelled_of_name kind)
      cases e <;> exact congrArg₂ (Segment.angled · true ·) spelled arguments
  · rintro - ⟨name, opens, inputs, closes, output, _⟩
    constructor
    · intro text w full
      cases e <;> cases inputs <;> cases output <;>
        (simp_all [Segment.expressed, Segment.items]; rfl)
    · rintro text w text' w' ⟨name', opens', inputs', closes', output', _⟩
        ⟨⟨kind, -, same⟩, -, taken, -, returned, -⟩
      change Option (List Ty) at inputs inputs'
      change Option Ty at output output'
      have spelled : Token.text name' = name.text := same (by rw [List.mem_singleton.mp kind]; decide)
      have list : Ty.unplacedEach (inputs'.getD []) = Ty.unplacedEach (inputs.getD []) := by
        cases inputs <;> cases inputs' <;> first | rfl | exact taken | exact taken.elim
      cases output with
      | none =>
        cases output' with
        | some ty' => exact returned.elim
        | none => cases e <;> exact congrArg₂ (Segment.call · · none) spelled list
      | some ty =>
        cases output' with
        | none => exact returned.elim
        | some ty' =>
          have result : ty'.unplaced = ty.unplaced := returned
          have whole : Segment.call name'.text (Ty.unplacedEach (inputs'.getD [])) (some ty'.unplaced) =
              .call name.text (Ty.unplacedEach (inputs.getD [])) (some ty.unplaced) := by
            rw [spelled, list, result]
          cases e <;> exact whole

theorem pathTail_regular : ∀ p ∈ pathTailRules, ∀ vs, Regular p e vs := by
  simp only [pathTailRules, List.forall_mem_cons]
  refine ⟨?_, ?_, List.forall_mem_nil _⟩
  · rintro ⟨sep, (only : Segment), _⟩
    constructor
    · intro text w full
      cases e <;> simp_all [Segment.itemsTail]
    · rintro text w text' w' ⟨sep', only', _⟩ ⟨-, same, -⟩
      cases e <;> exact congrArg ([·]) same
  · rintro ⟨sep, (first : Segment), (rest : List Segment), _⟩
    constructor
    · intro text w full
      cases e <;> simp_all [Segment.itemsTail]
    · rintro text w text' w' ⟨sep', first', rest', _⟩ ⟨-, same, others, -⟩
      cases e <;> exact congrArg₂ List.cons same others

theorem path_regular : ∀ p ∈ pathRules, ∀ vs, Regular p e vs := by
  simp only [pathRules, List.forall_mem_cons]
  refine ⟨?_, ?_, List.forall_mem_nil _⟩
  · rintro ⟨(lead : Option Token), (head : Segment), (tail : List Segment), _⟩
    constructor
    · intro text w full
      cases e <;> cases lead <;> simp_all [rootOf, Path.expressed, Path.items, Root.items]
    · rintro text w text' w' ⟨lead', head', tail', _⟩ ⟨begun, same, others, -⟩
      cases e <;> exact Path.unplaced_congr (root_alike begun) same others
  · rintro ⟨(lead : Option Token), (head : Segment), _⟩
    constructor
    · intro text w full
      cases e <;> cases lead <;>
        simp_all [rootOf, Path.expressed, Path.items, Root.items, Segment.itemsTail]
    · rintro text w text' w' ⟨lead', head', _⟩ ⟨begun, same, -⟩
      cases e <;> exact Path.unplaced_congr (root_alike begun) same rfl

theorem asPath_regular : ∀ p ∈ asPathRules, ∀ vs, Regular p e vs := by
  simp only [asPathRules, List.forall_mem_singleton]
  rintro ⟨word, (path : Path), _⟩
  constructor
  · intro text w full
    cases e <;> simp_all
  · rintro text w text' w' ⟨word', path', _⟩ ⟨-, same, -⟩
    cases e <;> exact same

theorem qualifiedPath_regular : ∀ p ∈ qualifiedPathRules, ∀ vs, Regular p e vs := by
  simp only [qualifiedPathRules, List.forall_mem_cons]
  refine ⟨?_, ?_, List.forall_mem_nil _⟩
  · rintro ⟨less, (ty : Ty), (asTrait : Option Path), greater, sep, (head : Segment),
      (tail : List Segment), _⟩
    constructor
    · intro text w full
      cases e <;> cases asTrait <;> simp_all [Path.expressed, Path.items, Root.items]
    · rintro text w text' w' ⟨less', ty', asTrait', greater', sep', head', tail', _⟩
        ⟨-, self, bound, -, -, same, others, -⟩
      cases e <;> exact Path.unplaced_congr (qualified_alike self bound) same others
  · rintro ⟨less, (ty : Ty), (asTrait : Option Path), greater, sep, (head : Segment), _⟩
    constructor
    · intro text w full
      cases e <;> cases asTrait <;> simp_all [Path.expressed, Path.items, Root.items, Segment.itemsTail]
    · rintro text w text' w' ⟨less', ty', asTrait', greater', sep', head', _⟩
        ⟨-, self, bound, -, -, same, -⟩
      cases e <;> exact Path.unplaced_congr (qualified_alike self bound) same rfl

theorem plainOutput_regular : ∀ p ∈ plainOutputRules, ∀ vs, Regular p e vs := by
  simp only [plainOutputRules, List.forall_mem_singleton]
  rintro ⟨arrow, (ty : Ty), _⟩
  constructor
  · intro text w full
    cases e <;> simp_all
  · rintro text w text' w' ⟨arrow', ty', _⟩ ⟨-, same, -⟩
    cases e <;> exact same

theorem bound_regular : ∀ p ∈ boundRules, ∀ vs, Regular p e vs := by
  simp only [boundRules, List.forall_mem_cons]
  refine ⟨?_, ?_, ?_, List.forall_mem_nil _⟩
  · rintro ⟨name, _⟩
    constructor
    · intro text w full
      cases e <;> simp_all [Bound.items]
    · rintro text w text' w' ⟨name', _⟩ ⟨⟨kind, -, same⟩, -⟩
      have spelled : Token.text name' = name.text := same (by rw [List.mem_singleton.mp kind]; decide)
      cases e <;> exact congrArg Bound.lifetime spelled
  · rintro ⟨maybe, (binder : Option String), (path : Path), _⟩
    constructor
    · intro text w full
      cases e <;> cases maybe <;> cases binder <;> simp_all [Bound.items]
    · rintro text w text' w' ⟨maybe', binder', path', _⟩ ⟨begun, bound, same, -⟩
      cases e <;> exact trait_alike false begun bound rfl same
  · rintro ⟨opens, maybe, (binder : Option String), (path : Path), closes, _⟩
    constructor
    · intro text w full
      cases e <;> cases maybe <;> cases binder <;> simp_all [Bound.items]
    · rintro text w text' w' ⟨opens', maybe', binder', path', closes', _⟩ ⟨-, begun, bound, same, -⟩
      cases e <;> exact trait_alike true begun bound rfl same

theorem type_regular : ∀ p ∈ typeRules, ∀ vs, Regular p e vs := by
  simp only [typeRules, List.forall_mem_cons]
  refine ⟨?_, ?_, ?_, List.forall_mem_nil _⟩
  · rintro ⟨(ty : Ty), _⟩
    constructor
    · intro text w full
      cases e <;> simp_all
    · rintro text w text' w' ⟨ty', _⟩ ⟨same, -⟩
      cases e <;> exact same
  · rintro ⟨word, (bounds : List Bound), _⟩
    constructor
    · intro text w full
      cases e <;> simp_all [Ty.expressed, Ty.items]
    · rintro text w text' w' ⟨word', bounds', _⟩ ⟨-, same, -⟩
      cases e <;> exact congrArg (Ty.implTrait · default) same
  · rintro ⟨word, (bounds : List Bound), _⟩
    constructor
    · intro text w full
      cases e <;> simp_all [Ty.expressed, Ty.items]
    · rintro text w text' w' ⟨word', bounds', _⟩ ⟨-, same, -⟩
      cases e <;> exact congrArg (Ty.traitObject · default) same

theorem genericArg_regular :
    ∀ p ∈ genericArgRules, p.rhs ∉ irregular → ∀ vs, Regular p e vs := by
  simp only [genericArgRules, List.forall_mem_cons]
  refine ⟨?_, ?_, ?_, ?_, fun out => absurd (by decide) out, fun out => absurd (by decide) out,
    List.forall_mem_nil _⟩
  · rintro - ⟨name, _⟩
    constructor
    · intro text w full
      cases e <;> simp_all [GenericArg.items]
    · rintro text w text' w' ⟨name', _⟩ ⟨⟨kind, -, same⟩, -⟩
      have spelled : Token.text name' = name.text := same (by rw [List.mem_singleton.mp kind]; decide)
      cases e <;> exact congrArg GenericArg.lifetime spelled
  · rintro - ⟨(ty : Ty), _⟩
    constructor
    · intro text w full
      cases e <;> simp_all [GenericArg.items]
    · rintro text w text' w' ⟨ty', _⟩ ⟨same, -⟩
      cases e <;> exact congrArg GenericArg.type same
  · rintro - ⟨name, (list : Option (List GenericArg)), equal, (ty : Ty), _⟩
    constructor
    · intro text w full
      cases e <;> cases list <;> simp_all [GenericArg.items]
    · rintro text w text' w' ⟨name', list', equal', (ty' : Ty), _⟩
        ⟨⟨kind, -, same⟩, arguments, -, given, -⟩
      have spelled : Token.text name' = name.text := same (by rw [List.mem_singleton.mp kind]; decide)
      change (GenericArg.binding (Token.text name') list' ty').unplaced = _
      rw [spelled]
      cases e <;> exact binding_alike arguments given
  · rintro - ⟨name, (list : Option (List GenericArg)), colon, (bounds : List Bound), _⟩
    constructor
    · intro text w full
      cases e <;> cases list <;> simp_all [GenericArg.items]
    · rintro text w text' w' ⟨name', list', colon', (bounds' : List Bound), _⟩
        ⟨⟨kind, -, same⟩, arguments, -, given, -⟩
      have spelled : Token.text name' = name.text := same (by rw [List.mem_singleton.mp kind]; decide)
      change (GenericArg.constraint (Token.text name') list' bounds').unplaced = _
      rw [spelled]
      cases e <;> exact constraint_alike arguments given

theorem plainType_regular :
    ∀ p ∈ plainTypeRules, p.rhs ∉ irregular → ∀ vs, Regular p e vs := by
  simp only [plainTypeRules, List.forall_mem_cons]
  refine ⟨?_, ?_, ?_, ?_, fun out => absurd (by decide) out, fun out => absurd (by decide) out, ?_,
    ?_, ?_, ?_, ?_, ?_, ?_, ?_, fun out => absurd (by decide) out, List.forall_mem_nil _⟩
  · rintro - ⟨opens, closes, _⟩
    constructor
    · intro text w full
      cases e <;> simp_all [Ty.expressed, Ty.items, Ty.itemsEach, listed, separated]
    · intro text w text' w' vs' alike
      cases e <;> rfl
  · rintro - ⟨opens, (ty : Ty), closes, _⟩
    constructor
    · intro text w full
      cases e <;> simp_all [Ty.expressed, Ty.items]
    · rintro text w text' w' ⟨opens', ty', closes', _⟩ ⟨-, same, -⟩
      cases e <;> exact congrArg (Ty.paren · default) same
  · rintro - ⟨opens, (ty : Ty), comma, closes, _⟩
    constructor
    · intro text w full
      cases e <;> simp_all [Ty.expressed, Ty.items]
    · rintro text w text' w' ⟨opens', ty', comma', closes', _⟩ ⟨-, same, -⟩
      cases e <;> exact congrArg (fun t => Ty.tuple [t] default) same
  · rintro - ⟨opens, (ty : Ty), comma, (rest : List Ty), closes, _⟩
    constructor
    · intro text w full
      obtain ⟨next, more, rfl⟩ : ∃ t ts, rest = t :: ts := List.exists_cons_of_ne_nil full.2.2.2.1
      cases e <;> simp_all [Ty.expressed, Ty.items, Ty.itemsEach]
    · rintro text w text' w' ⟨opens', ty', comma', rest', closes', _⟩ ⟨-, same, -, others, -⟩
      cases e <;> exact congrArg₂ (fun t ts => Ty.tuple (t :: ts) default) same others
  · rintro - ⟨star, word, (ty : Ty), _⟩
    constructor
    · rintro text w ⟨first, second, -⟩
      rcases List.mem_pair.mp second with kind | kind <;>
        cases e <;> simp_all [Ty.expressed, Ty.items]
    · rintro text w text' w' ⟨star', word', ty', _⟩ ⟨-, ⟨-, kind, -⟩, same, -⟩
      change Ty.pointer (Token.kind word' == .mutWord) _ _ = _
      rw [kind]
      cases e <;> exact congrArg (Ty.pointer (Token.kind word == .mutWord) · default) same
  · rintro - ⟨opens, (ty : Ty), closes, _⟩
    constructor
    · intro text w full
      cases e <;> simp_all [Ty.expressed, Ty.items]
    · rintro text w text' w' ⟨opens', ty', closes', _⟩ ⟨-, same, -⟩
      cases e <;> exact congrArg (Ty.slice · default) same
  · rintro - ⟨opens, (ty : Ty), semicolon, (length : String), closes, _⟩
    constructor
    · intro text w full
      cases e <;> simp_all [Ty.expressed, Ty.items]
    · rintro text w text' w' ⟨opens', ty', semicolon', length', closes', _⟩ ⟨-, same, -, size, -⟩
      cases e <;> exact congrArg₂ (fun t l => Ty.array t l default) same size
  · rintro - ⟨bang, _⟩
    constructor
    · intro text w full
      cases e <;> simp_all [Ty.expressed, Ty.items]
    · intro text w text' w' vs' alike
      cases e <;> rfl
  · rintro - ⟨word, _⟩
    constructor
    · intro text w full
      cases e <;> simp_all [Ty.expressed, Ty.items]
    · intro text w text' w' vs' alike
      cases e <;> rfl
  · rintro - ⟨(path : Path), _⟩
    constructor
    · intro text w full
      cases e <;> simp_all [Ty.expressed, Ty.items]
    · rintro text w text' w' ⟨path', _⟩ ⟨same, -⟩
      cases e <;> exact congrArg Ty.path same
  · rintro - ⟨(path : Path), _⟩
    constructor
    · intro text w full
      cases e <;> simp_all [Ty.expressed, Ty.items]
    · rintro text w text' w' ⟨path', _⟩ ⟨same, -⟩
      cases e <;> exact congrArg Ty.path same
  · rintro - ⟨(ty : Ty), _⟩
    constructor
    · intro text w full
      cases e <;> simp_all
    · rintro text w text' w' ⟨ty', _⟩ ⟨same, -⟩
      cases e <;> exact same

end

end Deasync
