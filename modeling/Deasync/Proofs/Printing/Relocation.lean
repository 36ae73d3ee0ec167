import Deasync.Proofs.Printing.RoundTrip

namespace Deasync

open Grammar Rules

-- Tokens of one text, each with one of another text that it cannot be told from but by its place.
structure Twins (old new : String) (row : List (Token × Token)) : Prop where
  same : ∀ pair ∈ row, pair.2.kind = pair.1.kind ∧ pair.2.text = pair.1.text
  wordings : ∀ part, part <:+: row → wording new (part.map Prod.snd) = wording old (part.map Prod.fst)

section

variable {old new : String} {row : List (Token × Token)}

theorem Twins.stretch (twins : Twins old new row) {part : List (Token × Token)} (inside : part <:+: row) :
    Twins old new part where
  same pair listed := twins.same pair (inside.subset listed)
  wordings u own := twins.wordings u (own.trans inside)

theorem Twins.kinds (twins : Twins old new row) :
    kindsOf (row.map Prod.snd) = kindsOf (row.map Prod.fst) := by
  rw [kindsOf, kindsOf, List.map_map, List.map_map]
  exact List.map_congr_left fun pair listed => (twins.same pair listed).1

end

theorem placed_length (a b : Cursor) (row : List Piece) :
    (placed a row).length = (placed b row).length := by
  have kinds := congrArg List.length (kindsOf_placed a b row)
  rwa [kindsOf, kindsOf, List.length_map, List.length_map] at kinds

theorem zip_fst (a b : Cursor) (row : List Piece) :
    ((placed a row).zip (placed b row)).map Prod.fst = placed a row :=
  List.map_fst_zip (placed_length a b row).le

theorem zip_snd (a b : Cursor) (row : List Piece) :
    ((placed a row).zip (placed b row)).map Prod.snd = placed b row :=
  List.map_snd_zip (placed_length b a row).le

theorem placed_same (a b : Cursor) (row : List Piece) : ∀ pair ∈ (placed a row).zip (placed b row),
    pair.2.kind = pair.1.kind ∧ pair.2.text = pair.1.text := by
  induction row generalizing a b with
  | nil => exact List.forall_mem_nil _
  | cons piece row ih =>
    obtain ⟨found, read⟩ := piece
    cases found with
    | gap => exact ih _ _
    | token kind => exact List.forall_mem_cons.mpr ⟨⟨rfl, rfl⟩, ih _ _⟩

theorem wording_nil (text : String) : wording text [] = "" := by
  have void : (default : Extent).stop - (default : Extent).start = 0 := rfl
  simp [wording, Extent.covering, Extent.slice, Text.slice, void]

-- A stretch of the tokens of two rows is read from the same pieces.
theorem twin_stretch {a b : Cursor} {row : List Piece} {part : List (Token × Token)} (filled : part ≠ [])
    (inside : part <:+: (placed a row).zip (placed b row)) :
    ∃ p r q, row = p ++ (r ++ q) ∧ part.map Prod.fst = placed (a.advance (joined p)) r ∧
      part.map Prod.snd = placed (b.advance (joined p)) r ∧ ∃ first last, Tight first last r := by
  obtain ⟨before, later, split⟩ := inside
  have left := congrArg (List.map Prod.fst) split
  have right := congrArg (List.map Prod.snd) split
  rw [List.append_assoc, List.map_append, List.map_append, zip_fst] at left
  rw [List.append_assoc, List.map_append, List.map_append, zip_snd] at right
  obtain ⟨p, r, q, rfl, own, after, tight, -⟩ := placed_row (by simpa using filled) left.symm
  refine ⟨p, r, q, rfl, own.symm, ?_, _, _, tight⟩
  -- both rows have as many tokens, so they are cut at the same places
  rw [placed_append, placed_append, own, ← advance_append, ← joined_append, after] at left
  have front : (before.map Prod.snd).length = (placed b p).length := by
    rw [List.length_map, ← List.length_map Prod.fst, List.append_cancel_right left, placed_length a b]
  have count : (part.map Prod.snd).length = (placed (b.advance (joined p)) r).length := by
    rw [List.length_map, ← List.length_map Prod.fst, ← own, placed_length]
  rw [placed_append, placed_append] at right
  exact (List.append_inj (List.append_inj right front).2 count).1

-- The same pieces at two places.
theorem placed_twins {old new : String} {a b : Cursor} {row : List Piece} (front front' : List Char)
    {behind behind' : List Char} (whole : old.toList = front ++ (joined row ++ behind))
    (here : a.offset = front.length) (whole' : new.toList = front' ++ (joined row ++ behind'))
    (here' : b.offset = front'.length) :
    Twins old new ((placed a row).zip (placed b row)) := by
  refine ⟨placed_same a b row, fun part inside => ?_⟩
  by_cases void : part = []
  · rw [void, List.map_nil, List.map_nil, wording_nil, wording_nil]
  · obtain ⟨p, r, q, rfl, own, own', _, _, tight⟩ := twin_stretch void inside
    rw [joined_append, joined_append, List.append_assoc, List.append_assoc] at whole whole'
    have words : wording old (placed (a.advance (joined p)) r) = String.ofList (joined r) :=
      wording_placed (front ++ joined p) tight (by rw [whole, List.append_assoc]) (by simp [here])
    have words' : wording new (placed (b.advance (joined p)) r) = String.ofList (joined r) :=
      wording_placed (front' ++ joined p) tight (by rw [whole', List.append_assoc]) (by simp [here'])
    rw [own, own', words, words']

def ParamSort.unplaced : ParamSort → ParamSort
  | .lifetime bounds => .lifetime bounds
  | .type bounds default => .type (Bound.unplacedEach bounds) (default.map Ty.unplaced)
  | .const ty default => .const ty.unplaced default

def GenericParam.unplaced (p : GenericParam) : GenericParam := { p with sort := p.sort.unplaced }

-- The nonterminals of generic parameters, with those of types.
def parameterNonterminals : List Nonterminal :=
  [.genericParam, .colonBounds, .equalsType, .colonLifetimes, .lifetimeBounds, .equalsConst, .constValue]

def Nonterminal.unplaced : (n : Nonterminal) → n.Val → n.Val
  | .genericParam, p => GenericParam.unplaced p
  | .colonBounds, list => Bound.unplacedEach list
  | .equalsType, ty => Ty.unplaced ty
  | n, v => n.face.unplaced v

def Nonterminal.Moves (n : Nonterminal) : Prop := n ∈ printedNonterminals ∨ n ∈ parameterNonterminals

-- Values that were read from the same pieces at two places.
def symMoved : (s : Sym Nonterminal) → s.Val Nonterminal.Val → s.Val Nonterminal.Val → Prop
  | .tok kinds, t, t' => t.kind ∈ kinds ∧ t'.kind = t.kind ∧ t'.text = t.text
  | .ref m, v, v' => m.Moves → m.unplaced v' = m.unplaced v
  | .maybe _, none, none => True
  | .maybe s, some v, some v' => symMoved s v v'
  | .maybe _, _, _ => False

def rhsMoved : (rhs : List (Sym Nonterminal)) → (vs vs' : Values Nonterminal.Val rhs) → Prop
  | [], _, _ => True
  | s :: rest, vs, vs' => symMoved s vs.1 vs'.1 ∧ rhsMoved rest vs.2 vs'.2

theorem unplaced_printed {n : Nonterminal} (printed : n ∈ printedNonterminals) (v : n.Val) :
    n.unplaced v = n.face.unplaced v := by
  cases n <;> first | rfl | exact absurd printed (by decide)

theorem symMoved.alike {n : Nonterminal} {s : Sym Nonterminal} {v v' : s.Val Nonterminal.Val}
    (moved : symMoved s v v') (printed : ∀ m ∈ s.nonterminal?, m ∈ printedNonterminals) :
    symAlike n false s v v' := by
  induction s with
  | tok kinds => exact ⟨moved.1, moved.2.1, fun _ => moved.2.2⟩
  | ref m =>
    change m.Val at v v'
    have own := printed m rfl
    have same : m.unplaced v' = m.unplaced v := moved (.inl own)
    rw [unplaced_printed own, unplaced_printed own] at same
    change _ = m.face.unplaced (m.face.given (n.inherits m && false) v)
    rw [Bool.and_false]
    exact same
  | maybe s ih =>
    cases v <;> cases v' <;> first
      | exact trivial
      | exact moved.elim
      | exact ih moved printed

theorem rhsMoved.alike {n : Nonterminal} {rhs : List (Sym Nonterminal)}
    {vs vs' : Values Nonterminal.Val rhs} (moved : rhsMoved rhs vs vs') (printed : typical rhs) :
    rhsAlike n false rhs vs vs' := by
  induction rhs with
  | nil => trivial
  | cons s rest ih =>
    obtain ⟨here, behind⟩ := Bool.and_eq_true_iff.mp (List.all_cons.symm.trans printed)
    refine ⟨moved.1.alike fun m own => ?_, ih moved.2 behind⟩
    rw [own] at here
    exact of_decide_eq_true here

section

variable {old new : String} {n : Nonterminal}

-- What a production builds at the other place.
def Keeps (p : Rule n) : Prop :=
  ∀ (old new : String) (w u : List Token) (vs vs' : Values Nonterminal.Val p.rhs),
    wording new u = wording old w → rhsMoved p.rhs vs vs' →
    n.unplaced (p.build new u vs') = n.unplaced (p.build old w vs)

theorem keeps_copied {p : Rule n} (listed : p ∈ declarations.productions n)
    (printed : n ∈ printedNonterminals) (copied : p.rhs ∈ copiedSymbols) : Keeps p := by
  intro old new w u vs vs' words _
  have keeps {item : String → Item} (kept : Copied p item) :
      n.unplaced (p.build new u vs') = n.unplaced (p.build old w vs) := by
    rw [unplaced_printed printed, unplaced_printed printed]
    exact kept.alike false old new w u vs vs' words
  rcases copied_places n printed p.rhs (List.mem_map_of_mem listed) copied with rfl | ⟨place, _⟩
  · exact keeps (arrayLength_copied p listed)
  · simp only [List.mem_cons, List.not_mem_nil, or_false] at place
    rcases place with rfl | rfl | rfl | rfl
    · exact keeps (functionPointer_copied p listed)
    · exact keeps (plainType_copied p listed copied)
    · exact keeps (genericArg_copied p listed copied)
    · exact keeps (binder_copied p listed)

theorem keeps_regular {p : Rule n} (listed : p ∈ declarations.productions n)
    (printed : n ∈ printedNonterminals) (plain : p.rhs ∉ irregular) : Keeps p := by
  intro old new w u vs vs' _ moved
  have other : p.rhs ∉ copiedSymbols := fun copied => plain (List.mem_append_left _ copied)
  have own := (printed_typical n printed p.rhs (List.mem_map_of_mem listed)).resolve_left other
  rw [unplaced_printed printed, unplaced_printed printed]
  exact (regular_of_listed printed listed plain false vs).alike old w new u vs' (moved.alike own)

theorem keeps_segment : ∀ p ∈ segmentRules, p.rhs ∈ irregular → Keeps p := by
  simp only [segmentRules, List.forall_mem_cons]
  refine ⟨?_, fun special => absurd special (by decide), fun special => absurd special (by decide),
    List.forall_mem_nil _⟩
  rintro - old new w u ⟨name, (arguments : Option (List GenericArg)), ⟨⟩⟩ vs' - moved
  exact (segmentRule_regular false (.inl rfl)).alike old w new u vs' (moved.alike (by decide))

theorem keeps_reference : ∀ p ∈ plainTypeRules, p.rhs ∈ irregular → p.rhs ∉ copiedSymbols → Keeps p := by
  have referred {k : Kind} {t t' : Token} {vs vs' : Values Nonterminal.Val referredSymbols}
      (moved : rhsMoved (referenceSymbols k) (t, vs) (t', vs')) (a b : Extent) :
      (Ty.reference (Option.map Token.text vs'.1) (Option.isSome vs'.2.1) vs'.2.2.1 a).unplaced =
        (Ty.reference (Option.map Token.text vs.1) (Option.isSome vs.2.1) vs.2.2.1 b).unplaced :=
    reference_alike (moved.2.alike (by decide)) b
  intro p listed special other
  simp only [plainTypeRules, List.mem_cons, List.not_mem_nil, or_false] at listed
  rcases listed with rfl | rfl | rfl | rfl | rfl | rfl | rfl | rfl | rfl | rfl | rfl | rfl | rfl | rfl |
    rfl
  all_goals first | exact absurd special (by decide) | exact absurd (by decide) other | skip
  · rintro old new w u ⟨t, vs⟩ ⟨t', vs'⟩ - moved
    exact referred moved (.covering u) (.covering w)
  · rintro old new w u ⟨t, vs⟩ ⟨t', vs'⟩ - moved
    exact congrArg (Ty.reference none false · default) (referred moved (.covering u) (.covering w))

theorem keeps_typeList : ∀ p ∈ typeListRules, p.rhs ∈ irregular → Keeps p := by
  simp only [typeListRules, List.forall_mem_cons]
  refine ⟨fun special => absurd special (by decide), ?_, fun special => absurd special (by decide),
    List.forall_mem_nil _⟩
  rintro - old new w u ⟨ty, _⟩ ⟨ty', _⟩ - moved
  exact congrArg ([·]) (moved.1 (.inl (by decide)))

theorem keeps_genericArgList : ∀ p ∈ genericArgListRules, p.rhs ∈ irregular → Keeps p := by
  simp only [genericArgListRules, List.forall_mem_cons]
  refine ⟨fun special => absurd special (by decide), ?_, fun special => absurd special (by decide),
    List.forall_mem_nil _⟩
  rintro - old new w u ⟨a, _⟩ ⟨a', _⟩ - moved
  exact congrArg ([·]) (moved.1 (.inl (by decide)))

theorem keeps_printed {p : Rule n} (listed : p ∈ declarations.productions n)
    (printed : n ∈ printedNonterminals) : Keeps p := by
  by_cases copied : p.rhs ∈ copiedSymbols
  · exact keeps_copied listed printed copied
  by_cases special : p.rhs ∈ irregular
  · have place := special_places n printed p.rhs (List.mem_map_of_mem listed) special copied
    simp only [List.mem_cons, List.not_mem_nil, or_false] at place
    rcases place with rfl | rfl | rfl | rfl
    · exact keeps_segment p listed special
    · exact keeps_reference p listed special copied
    · exact keeps_typeList p listed special
    · exact keeps_genericArgList p listed special
  · exact keeps_regular listed printed special

-- A part that may be left out, when it has a value of its own.
theorem moved_option {m : Nonterminal} (moves : m.Moves) {o o' : Option m.Val}
    (moved : symMoved (.maybe (.ref m)) o o') : o'.map m.unplaced = o.map m.unplaced := by
  cases o <;> cases o' <;> first
    | rfl
    | exact moved.elim
    | exact congrArg some (moved moves)

theorem moved_plain {m : Nonterminal} (moves : m.Moves) (plain : ∀ v, m.unplaced v = v)
    {o o' : Option m.Val} (moved : symMoved (.maybe (.ref m)) o o') : o' = o := by
  have same := moved_option moves moved
  rwa [funext plain, Option.map_id', Option.map_id'] at same

theorem unplacedEach_getD {o o' : Option (List Bound)}
    (same : o'.map Bound.unplacedEach = o.map Bound.unplacedEach) :
    Bound.unplacedEach (o'.getD []) = Bound.unplacedEach (o.getD []) := by
  cases o <;> cases o' <;> first
    | rfl
    | cases same
    | exact Option.some.inj same

theorem keeps_lifetimeBounds : lifetimeBoundsRules.Forall Keeps := by
  refine ⟨?_, ?_⟩
  · rintro old new w u ⟨first, plus, rest, _⟩ ⟨first', plus', rest', _⟩ - ⟨⟨-, -, same⟩, -, others, -⟩
    exact congrArg₂ List.cons same (others (.inr (by decide)))
  · rintro old new w u ⟨only, _⟩ ⟨only', _⟩ - ⟨⟨-, -, same⟩, -⟩
    exact congrArg ([·]) same

theorem keeps_colonLifetimes : colonLifetimesRules.Forall Keeps := by
  rintro old new w u ⟨colon, bounds, _⟩ ⟨colon', bounds', _⟩ - ⟨-, given, -⟩
  exact congrArg (Option.getD · []) (moved_plain (.inr (by decide)) (fun _ => rfl) given)

theorem keeps_constValue : constValueRules.Forall Keeps :=
  ⟨fun _ _ _ _ _ _ words _ => words, fun _ _ _ _ _ _ words _ => words,
    fun _ _ _ _ _ _ words _ => words⟩

theorem keeps_equalsConst : equalsConstRules.Forall Keeps := by
  rintro old new w u ⟨equal, value, _⟩ ⟨equal', value', _⟩ - ⟨-, same, -⟩
  exact same (.inr (by decide))

theorem keeps_colonBounds : colonBoundsRules.Forall Keeps := by
  rintro old new w u ⟨colon, bounds, _⟩ ⟨colon', bounds', _⟩ - ⟨-, given, -⟩
  exact unplacedEach_getD (moved_option (.inl (by decide)) given)

theorem keeps_equalsType : equalsTypeRules.Forall Keeps := by
  rintro old new w u ⟨equal, ty, _⟩ ⟨equal', ty', _⟩ - ⟨-, same, -⟩
  exact same (.inl (by decide))

theorem keeps_genericParam : genericParamRules.Forall Keeps := by
  refine ⟨?_, ?_, ?_⟩
  · rintro old new w u ⟨_, name, bounds, _⟩ ⟨_, name', bounds', _⟩ words ⟨-, ⟨-, -, named⟩, given, -⟩
    have same : bounds'.getD [] = bounds.getD [] :=
      congrArg (Option.getD · []) (moved_plain (.inr (by decide)) (fun _ => rfl) given)
    change GenericParam.mk name'.text (.lifetime (bounds'.getD [])) (wording new u) =
      ⟨name.text, .lifetime (bounds.getD []), wording old w⟩
    rw [named, same, words]
  · rintro old new w u ⟨_, _, name, _, ty, value, _⟩ ⟨_, _, name', _, ty', value', _⟩ words
      ⟨-, -, ⟨-, -, named⟩, -, same, given, -⟩
    have valued : value' = value := moved_plain (.inr (by decide)) (fun _ => rfl) given
    have typed : Ty.unplaced ty' = Ty.unplaced ty := same (.inl (by decide))
    change GenericParam.mk name'.text (.const (Ty.unplaced ty') value') (wording new u) =
      ⟨name.text, .const (Ty.unplaced ty) value, wording old w⟩
    rw [named, typed, valued, words]
  · rintro old new w u ⟨_, name, (bounds : Option (List Bound)), (value : Option Ty), _⟩
      ⟨_, name', (bounds' : Option (List Bound)), (value' : Option Ty), _⟩ words
      ⟨-, ⟨-, -, named⟩, given, valued, -⟩
    have bounded : Bound.unplacedEach (bounds'.getD []) = Bound.unplacedEach (bounds.getD []) :=
      unplacedEach_getD (moved_option (.inr (by decide)) given)
    have standard : value'.map Ty.unplaced = value.map Ty.unplaced :=
      moved_option (.inr (by decide)) valued
    change GenericParam.mk name'.text
        (.type (Bound.unplacedEach (bounds'.getD [])) (value'.map Ty.unplaced)) (wording new u) =
      ⟨name.text, .type (Bound.unplacedEach (bounds.getD [])) (value.map Ty.unplaced), wording old w⟩
    rw [named, bounded, standard, words]

theorem keeps_parameter {p : Rule n} (listed : p ∈ declarations.productions n)
    (own : n ∈ parameterNonterminals) : Keeps p := by
  have from_ {rules : List (Rule n)} (same : declarations.productions n = rules)
      (keeps : rules.Forall Keeps) : Keeps p :=
    List.forall_iff_forall_mem.mp keeps p (same ▸ listed)
  simp only [parameterNonterminals, List.mem_cons, List.not_mem_nil, or_false] at own
  rcases own with rfl | rfl | rfl | rfl | rfl | rfl | rfl
  · exact from_ rfl keeps_genericParam
  · exact from_ rfl keeps_colonBounds
  · exact from_ rfl keeps_equalsType
  · exact from_ rfl keeps_colonLifetimes
  · exact from_ rfl keeps_lifetimeBounds
  · exact from_ rfl keeps_equalsConst
  · exact from_ rfl keeps_constValue

theorem keeps_productions {p : Rule n} (listed : p ∈ declarations.productions n) (moves : n.Moves) :
    Keeps p :=
  moves.elim (keeps_printed listed) (keeps_parameter listed)

end

section

variable (old new : String)

-- What is read is read again from the twins of its tokens.
def Moved (n : Nonterminal) (w : List Token) (v : n.Val) : Prop :=
  ∀ row, row.map Prod.fst = w → Twins old new row →
    ∃ v', declarations.Preferred new n (row.map Prod.snd) v' ∧ (n.Moves → n.unplaced v' = n.unplaced v)

end

variable {old new : String}

theorem Grammar.PartSym.moved {s : Sym Nonterminal} {w : List Token} {v : s.Val declarations.Val}
    (part : PartSym declarations (Moved old new) s w v) {row : List (Token × Token)}
    (here : row.map Prod.fst = w) (twins : Twins old new row) :
    ∃ v', declarations.PreferredSym new s (row.map Prod.snd) v' ∧ symMoved s v v' := by
  induction s generalizing w with
  | tok kinds =>
    cases part with
    | tok fits =>
      obtain ⟨⟨t, t'⟩, rfl, rfl⟩ := List.map_eq_singleton_iff.mp here
      obtain ⟨kind, words⟩ := twins.same _ (.head _)
      exact ⟨t', .tok (show t'.kind ∈ kinds from kind ▸ fits), fits, kind, words⟩
  | ref m =>
    cases part with
    | ref moved =>
      obtain ⟨v', preferred, same⟩ := moved row here twins
      exact ⟨v', .ref preferred, same⟩
  | maybe s ih =>
    cases part with
    | absent void =>
      obtain rfl := List.map_eq_nil_iff.mp here
      exact ⟨none, .absent void, trivial⟩
    | present inner =>
      obtain ⟨v', preferred, moved⟩ := ih inner here
      exact ⟨some v', .present preferred, moved⟩

theorem Grammar.Parts.moved {rhs : List (Sym Nonterminal)} {w : List Token}
    {vs : Values declarations.Val rhs} (parts : Parts declarations (Moved old new) rhs w vs)
    {row : List (Token × Token)} (here : row.map Prod.fst = w) (twins : Twins old new row) :
    ∃ vs', declarations.PreferredAll new rhs (row.map Prod.snd) vs' ∧ rhsMoved rhs vs vs' := by
  induction parts generalizing row with
  | nil =>
    obtain rfl := List.map_eq_nil_iff.mp here
    exact ⟨(), .nil, trivial⟩
  | @cons s rest w u v vs first _ longest ih =>
    obtain ⟨front, behind, rfl, rfl, rfl⟩ := List.map_eq_append_iff.mp here
    have left := twins.stretch (List.prefix_append front behind).isInfix
    have right := twins.stretch (List.suffix_append front behind).isInfix
    obtain ⟨v', one, moved⟩ := first.moved rfl left
    obtain ⟨vs', all, others⟩ := ih rfl right
    refine ⟨(v', vs'), ?_, moved, others⟩
    rw [List.map_append]
    refine .cons one all ?_
    intro x y split filled longer rest
    obtain ⟨a, b, rfl, rfl, rfl⟩ := List.map_eq_append_iff.mp split
    have near := right.stretch (List.prefix_append a b).isInfix
    have far := right.stretch (List.suffix_append a b).isInfix
    refine longest (a.map Prod.fst) (b.map Prod.fst) List.map_append (by simpa using filled) ?_ ?_
    · rwa [kindsOf_append, ← left.kinds, ← near.kinds, ← kindsOf_append]
    · rwa [← far.kinds]

theorem moved_passed : PassedOn declarations old (Moved old new) := by
  intro n p before after w vs listed first all parts row here twins
  obtain ⟨vs', preferred, moved⟩ := parts.moved here twins
  refine ⟨p.build new (row.map Prod.snd) vs', .production listed ?_ preferred, fun moves => ?_⟩
  · rw [twins.kinds, here]
    exact first
  · have words := twins.wordings row List.infix_rfl
    rw [here] at words
    exact keeps_productions (listed ▸ List.mem_append_cons_self) moves _ _ _ _ _ _ words moved

theorem Twins.preferred {row : List (Token × Token)} (twins : Twins old new row) {n : Nonterminal}
    {v : n.Val} (read : declarations.Preferred old n (row.map Prod.fst) v) :
    ∃ v', declarations.Preferred new n (row.map Prod.snd) v' ∧ (n.Moves → n.unplaced v' = n.unplaced v) :=
  read.induction moved_passed row rfl twins

end Deasync
