import Deasync.Proofs.Heading
import Deasync.Proofs.Printing.TypeReading

namespace Deasync

open Grammar Rules

variable {old text : String} {n : Nonterminal}

section

variable (old text : String) (n : Nonterminal) (w : List Token) (v : n.Val)

-- The texts that are printed for `v` are those of `w`, in order, and what is printed is read as `v`.
structure Kept : Prop where
  quoted : ∀ e, Quoted old (solid (n.face.items (n.face.given e v))) w
  known : Known text n (kindsOf w) v

def Carried : Prop := n ∈ printedNonterminals → Faithful old w → Kept old text n w v

end

theorem quoted_single {item : Item} {row : List Token} (source : item.Source old row) :
    Quoted old [item] row := by
  have quoted := Quoted.text [] source (.nil [])
  rwa [List.nil_append, List.append_nil] at quoted

theorem token_quoted {t : Token} (word : t.kind ∈ [.ident, .selfWord] → t.kind = .ofWord t.text) :
    Quoted old [t.item] [t] := by
  unfold Token.item
  split
  · rename_i kind
    exact quoted_single ⟨t, rfl, rfl, kind⟩
  · rename_i other
    split
    · rename_i spelled
      have named : t.kind ∈ [.ident, .selfWord] := by
        simp only [Kind.spelled, List.mem_cons, List.not_mem_nil, or_false] at spelled ⊢
        exact spelled.imp_right fun h => h.resolve_right other
      exact quoted_single ⟨t, rfl, rfl, word named, named⟩
    · exact .bare rfl (.nil _)

theorem Grammar.PartSym.carried {s : Sym Nonterminal} {w : List Token} {v : s.Val declarations.Val}
    (part : PartSym declarations (Carried old text) s w v) (faithful : Faithful old w)
    (printed : ∀ m ∈ s.nonterminal?, m ∈ printedNonterminals) :
    (∀ n e, Quoted old (symItems n e s v) w) ∧ KnownSym text s (kindsOf w) v := by
  induction s generalizing w with
  | tok kinds =>
    cases part with
    | tok fits =>
      have word := faithful.words v (.head _)
      exact ⟨fun _ _ => token_quoted word, .tok fits word⟩
  | ref m =>
    cases part with
    | ref carried =>
      obtain ⟨quoted, known⟩ := carried (printed m rfl) faithful
      exact ⟨fun _ _ => quoted _, .ref known⟩
  | maybe s ih =>
    cases part with
    | absent void => exact ⟨fun _ _ => .nil _, .absent void⟩
    | present inner =>
      obtain ⟨quoted, known⟩ := ih inner faithful printed
      exact ⟨quoted, .present known⟩

-- The nonterminals of a right-hand side are those of types.
def typical (rhs : List (Sym Nonterminal)) : Bool :=
  rhs.all fun s => s.nonterminal?.all (· ∈ printedNonterminals)

theorem Grammar.Parts.carried {rhs : List (Sym Nonterminal)} {w : List Token}
    {vs : Values declarations.Val rhs} (parts : Parts declarations (Carried old text) rhs w vs)
    (faithful : Faithful old w) (printed : typical rhs) :
    (∀ n e, Quoted old (rhsItems n e rhs vs) w) ∧ KnownAll text rhs (kindsOf w) vs := by
  induction rhs generalizing w with
  | nil =>
    cases parts
    exact ⟨fun _ _ => .nil _, .nil⟩
  | cons s rest ih =>
    cases parts with
    | @cons _ _ w u v vs first others longest =>
      obtain ⟨here, behind⟩ := Bool.and_eq_true_iff.mp (List.all_cons.symm.trans printed)
      obtain ⟨quoted, known⟩ := first.carried (faithful.stretch (List.prefix_append w u).isInfix) (by
        intro m own
        rw [own] at here
        exact of_decide_eq_true here)
      obtain ⟨quotedAll, knownAll⟩ := ih others (faithful.stretch (List.suffix_append w u).isInfix) behind
      refine ⟨fun n e => (quoted n e).append (quotedAll n e), ?_⟩
      rw [kindsOf_append]
      refine .cons known knownAll (.inr ?_)
      intro x y split filled longer rest
      obtain ⟨a, b, rfl, rfl, rfl⟩ := kindsOf_split split.symm
      rw [← kindsOf_append] at longer
      refine longest a b rfl ?_ longer rest
      rintro rfl
      exact filled rfl

theorem built_filled {p : Rule n} (listed : p ∈ declarations.productions n) (source : String)
    (w : List Token) (vs : Values Nonterminal.Val p.rhs) : n.face.filled (p.build source w vs) := by
  cases n with
  | typeList =>
    have member : p ∈ typeListRules := listed
    simp only [typeListRules, List.mem_cons, List.not_mem_nil, or_false] at member
    rcases member with rfl | rfl | rfl <;> exact List.cons_ne_nil _ _
  | genericArgList =>
    have member : p ∈ genericArgListRules := listed
    simp only [genericArgListRules, List.mem_cons, List.not_mem_nil, or_false] at member
    rcases member with rfl | rfl | rfl <;> exact List.cons_ne_nil _ _
  | boundTail =>
    have member : p ∈ boundTailRules := listed
    simp only [boundTailRules, List.mem_cons, List.not_mem_nil, or_false] at member
    rcases member with rfl | rfl <;> exact List.cons_ne_nil _ _
  | _ => exact trivial

theorem printed_typical : ∀ n ∈ printedNonterminals, ∀ rhs ∈ declarations.alternatives n,
    rhs ∈ copiedSymbols ∨ typical rhs := by
  decide +kernel

theorem regular_of_listed (printed : n ∈ printedNonterminals) {p : Rule n}
    (listed : p ∈ declarations.productions n) (plain : p.rhs ∉ irregular) (e : Bool)
    (vs : Values Nonterminal.Val p.rhs) : Regular p e vs := by
  simp only [printedNonterminals, List.mem_cons, List.not_mem_nil, or_false] at printed
  rcases printed with rfl | rfl | rfl | rfl | rfl | rfl | rfl | rfl | rfl | rfl | rfl | rfl | rfl | rfl |
    rfl | rfl | rfl | rfl
  · exact genericArgs_regular e p listed vs
  · exact segment_regular e p listed plain vs
  · exact pathTail_regular e p listed vs
  · exact path_regular e p listed vs
  · exact asPath_regular e p listed vs
  · exact qualifiedPath_regular e p listed vs
  · exact plainOutput_regular e p listed vs
  · exact plainType_regular e p listed plain vs
  · exact bound_regular e p listed vs
  · exact boundTail_regular e p listed vs
  · exact bounds_regular e p listed vs
  · exact type_regular e p listed vs
  · exact typeList_regular e p listed plain vs
  · exact genericArg_regular e p listed plain vs
  · exact genericArgList_regular e p listed plain vs
  · exact absurd (List.mem_singleton.mp listed ▸ by decide) plain
  · exact absurd (List.mem_singleton.mp listed ▸ by decide) plain
  · exact absurd (List.mem_singleton.mp listed ▸ by decide) plain

theorem regular_opens {p : Rule n} (listed : p ∈ declarations.productions n) (plain : p.rhs ∉ irregular)
    {ks : List Kind} {vs : Values Nonterminal.Val p.rhs} (known : KnownAll text p.rhs ks vs)
    (source : String) (w : List Token) : ∀ t ∈ n.ty? (p.build source w vs), Opens text ks t := by
  cases n with
  | type =>
    have member : p ∈ typeRules := listed
    simp only [typeRules, List.mem_cons, List.not_mem_nil, or_false] at member
    rcases member with rfl | rfl | rfl
    · exact known.single.opens
    · rintro t ⟨⟩
      exact opens_of_other (by rintro _ _ _ _ ⟨⟩)
    · rintro t ⟨⟩
      exact opens_of_other (by rintro _ _ _ _ ⟨⟩)
  | plainType =>
    have member : p ∈ plainTypeRules := listed
    simp only [plainTypeRules, List.mem_cons, List.not_mem_nil, or_false] at member
    rcases member with rfl | rfl | rfl | rfl | rfl | rfl | rfl | rfl | rfl | rfl | rfl | rfl | rfl | rfl |
      rfl
    all_goals first
      | exact absurd (by decide) plain
      | exact known.single.opens
      | (rintro t ⟨⟩; exact opens_of_other (by rintro _ _ _ _ ⟨⟩))
  | functionPointer => exact absurd (List.mem_singleton.mp listed ▸ by decide) plain
  | _ => rintro t ⟨⟩

theorem printed_solid : ∀ n ∈ printedNonterminals, ∀ rhs ∈ declarations.alternatives n,
    rhs.all (nullable Nonterminal.isEmpty) = false := by
  decide +kernel

theorem copied_places : ∀ n ∈ printedNonterminals, ∀ rhs ∈ declarations.alternatives n,
    rhs ∈ copiedSymbols → n = .arrayLength ∨
      n ∈ [.functionPointer, .plainType, .genericArg, .binder] ∧ quotable n rhs := by
  decide +kernel

section

variable {p : Rule n} {item : String → Item} {w : List Token} {vs : Values Nonterminal.Val p.rhs}

theorem Copied.quoted (copied : Copied p item) (source : (item (wording old w)).Source old w) (e : Bool) :
    Quoted old (solid (n.face.items (n.face.given e (p.build old w vs)))) w := by
  rw [copied.items]
  exact quoted_single source

theorem Copied.known (copied : Copied p item)
    (kind : ∀ own, item own = .quote own ∨ item own = .length own) {before after : List (Rule n)}
    (listed : declarations.productions n = before ++ p :: after)
    (first : ∀ q ∈ before, ¬declarations.SpellsAll q.rhs (kindsOf w))
    (all : declarations.PreferredAll old p.rhs w vs) (faithful : Faithful old w) (filled : w ≠ []) :
    Known text n (kindsOf w) (p.build old w vs) where
  filled := built_filled (listed ▸ List.mem_append_cons_self) old w vs
  reread _ _ shown := copied.fresh kind listed first all faithful filled shown
  opens t own := opens_of_other (copied.other old w vs t own)

end

theorem carried_copied {p : Rule n} {before after : List (Rule n)}
    (listed : declarations.productions n = before ++ p :: after) (copied : p.rhs ∈ copiedSymbols)
    {w : List Token} (first : ∀ q ∈ before, ¬declarations.SpellsAll q.rhs (kindsOf w))
    {vs : Values Nonterminal.Val p.rhs} (all : declarations.PreferredAll old p.rhs w vs) :
    Carried old text n w (p.build old w vs) := by
  intro printed faithful
  have member : p ∈ declarations.productions n := listed ▸ List.mem_append_cons_self
  have alternative : p.rhs ∈ declarations.alternatives n := List.mem_map_of_mem member
  have spelled := all.derives.spells
  have filled : w ≠ [] := by
    rintro rfl
    have void := printed_solid n printed p.rhs alternative
    rw [spelled.nullable declarations_ranked rfl] at void
    cases void
  rcases copied_places n printed p.rhs alternative copied with rfl | ⟨place, fit⟩
  · have copied := arrayLength_copied p member
    exact ⟨copied.quoted ⟨rfl, filled⟩,
      copied.known (fun _ => .inr rfl) listed first all faithful filled⟩
  · have copied : Copied p .quote := by
      simp only [List.mem_cons, List.not_mem_nil, or_false] at place
      rcases place with rfl | rfl | rfl | rfl
      · exact functionPointer_copied p member
      · exact plainType_copied p member copied
      · exact genericArg_copied p member copied
      · exact binder_copied p member
    exact ⟨copied.quoted (quote_source member fit spelled),
      copied.known (fun _ => .inl rfl) listed first all faithful filled⟩

theorem carried_regular {p : Rule n} {before after : List (Rule n)}
    (listed : declarations.productions n = before ++ p :: after) (plain : p.rhs ∉ irregular)
    {w : List Token} (first : ∀ q ∈ before, ¬declarations.SpellsAll q.rhs (kindsOf w))
    {vs : Values Nonterminal.Val p.rhs} (parts : Parts declarations (Carried old text) p.rhs w vs) :
    Carried old text n w (p.build old w vs) := by
  intro printed faithful
  have member : p ∈ declarations.productions n := listed ▸ List.mem_append_cons_self
  have other : p.rhs ∉ copiedSymbols := fun copied => plain (List.mem_append_left _ copied)
  have own := (printed_typical n printed p.rhs (List.mem_map_of_mem member)).resolve_left other
  obtain ⟨quoted, known⟩ := parts.carried faithful own
  obtain ⟨even, bare⟩ := steady_of_listed printed listed
  have regular (e : Bool) := regular_of_listed printed member plain e vs
  refine ⟨?_, ⟨built_filled member old w vs, ?_, regular_opens member plain known old w⟩⟩
  · intro e
    rw [(regular e).items old w known.filled]
    exact quoted n e
  · intro e u shown
    exact known.fresh listed (even.resolve_left other) (bare.resolve_left plain) first (regular e)
      old w shown

theorem KnownAll.tok {k : Kind} {rest : List (Sym Nonterminal)} {ks : List Kind} {t : Token}
    {vs : Values Nonterminal.Val rest} (known : KnownAll text (one k :: rest) ks (t, vs)) :
    t.kind = k ∧ ∃ ls, ks = k :: ls ∧ KnownAll text rest ls vs := by
  cases known with
  | @cons _ _ _ ls _ _ first others _ =>
    cases first with
    | tok fits _ =>
      have kind := List.mem_singleton.mp fits
      exact ⟨kind, ls, by rw [kind]; rfl, others⟩

theorem special_places : ∀ n ∈ printedNonterminals, ∀ rhs ∈ declarations.alternatives n,
    rhs ∈ irregular → rhs ∉ copiedSymbols → n ∈ [.segment, .plainType, .typeList, .genericArgList] := by
  decide +kernel

theorem item_of_mark {t : Token} {k : Kind} (kind : t.kind = k) (plain : k ∉ Kind.spelled) :
    t.item = .mark k := by
  have other : k ≠ .lifetime := by
    rintro rfl
    exact plain (by decide)
  rw [Token.item, kind, if_neg other, if_neg plain]

section

variable {w : List Token}

theorem segment_kept {p : Rule .segment} (listed : p ∈ segmentRules) (special : p.rhs ∈ irregular)
    {vs : Values Nonterminal.Val p.rhs} (quoted : Quoted old (rhsItems .segment false p.rhs vs) w)
    (known : KnownAll text p.rhs (kindsOf w) vs) : Kept old text .segment w (p.build old w vs) := by
  simp only [segmentRules, List.mem_cons, List.not_mem_nil, or_false] at listed
  rcases listed with rfl | rfl | rfl
  · obtain ⟨name, (arguments : Option (List GenericArg)), ⟨⟩⟩ := vs
    refine ⟨fun e => quoted.of_texts ?_, known_segment known w⟩
    have item : Token.item name = .name name.text := item_of_name known.filled.1
    cases arguments <;> cases e <;>
      simp [Face.given, rhsItems, symItems, item, Segment.items, Segment.expressed]
  · exact absurd special (by decide)
  · exact absurd special (by decide)

theorem reference_texts {k : Kind} (plain : k ∉ Kind.spelled) {t : Token}
    {lifetime mutable : Option Token} {inner : Ty}
    (filled : rhsFilled (referenceSymbols k) (t, lifetime, mutable, inner, ())) :
    texts (rhsItems .plainType false (referenceSymbols k) (t, lifetime, mutable, inner, ())) =
      texts (solid (referenceItems (lifetime.map Token.text) mutable.isSome inner)) := by
  obtain ⟨kind, named, worded, -⟩ := filled
  have item : t.item = .mark k := item_of_mark (List.mem_singleton.mp kind) plain
  rw [reference_items inner named worded]
  change texts (t.item :: _) = _
  rw [item]
  rfl

theorem reference_kept {p : Rule .plainType} (listed : p ∈ plainTypeRules) (special : p.rhs ∈ irregular)
    (other : p.rhs ∉ copiedSymbols) {vs : Values Nonterminal.Val p.rhs}
    (quoted : Quoted old (rhsItems .plainType false p.rhs vs) w)
    (known : KnownAll text p.rhs (kindsOf w) vs) : Kept old text .plainType w (p.build old w vs) := by
  simp only [plainTypeRules, List.mem_cons, List.not_mem_nil, or_false] at listed
  rcases listed with rfl | rfl | rfl | rfl | rfl | rfl | rfl | rfl | rfl | rfl | rfl | rfl | rfl | rfl |
    rfl
  all_goals first | exact absurd special (by decide) | exact absurd (by decide) other | skip
  · obtain ⟨t, (lifetime : Option Token), (mutable : Option Token), (inner : Ty), ⟨⟩⟩ := vs
    obtain ⟨kind, ls, same, behind⟩ := known.tok
    refine ⟨fun e => quoted.of_texts ?_, same ▸ known_reference behind _⟩
    refine Eq.trans ?_ (reference_texts (by decide) known.filled).symm
    cases e <;> rfl
  · obtain ⟨t, (lifetime : Option Token), (mutable : Option Token), (inner : Ty), ⟨⟩⟩ := vs
    obtain ⟨kind, ls, same, behind⟩ := known.tok
    refine ⟨fun e => quoted.of_texts ?_, same ▸ known_references behind _⟩
    refine Eq.trans ?_ (reference_texts (by decide) known.filled).symm
    cases e <;> rfl

theorem typeList_kept {p : Rule .typeList} (listed : p ∈ typeListRules) (special : p.rhs ∈ irregular)
    {vs : Values Nonterminal.Val p.rhs} (quoted : Quoted old (rhsItems .typeList false p.rhs vs) w)
    (known : KnownAll text p.rhs (kindsOf w) vs) : Kept old text .typeList w (p.build old w vs) := by
  simp only [typeListRules, List.mem_cons, List.not_mem_nil, or_false] at listed
  rcases listed with rfl | rfl | rfl
  · exact absurd special (by decide)
  · obtain ⟨(ty : Ty), t, ⟨⟩⟩ := vs
    refine ⟨fun e => quoted.of_texts ?_, known_typeList_comma known⟩
    have item : Token.item t = .mark .comma :=
      item_of_mark (List.mem_singleton.mp known.filled.2.1) (by decide)
    cases e <;> simp [Face.given, rhsItems, symItems, item, Ty.itemsEach, listed_single]
  · exact absurd special (by decide)

theorem genericArgList_kept {p : Rule .genericArgList} (listed : p ∈ genericArgListRules)
    (special : p.rhs ∈ irregular) {vs : Values Nonterminal.Val p.rhs}
    (quoted : Quoted old (rhsItems .genericArgList false p.rhs vs) w)
    (known : KnownAll text p.rhs (kindsOf w) vs) :
    Kept old text .genericArgList w (p.build old w vs) := by
  simp only [genericArgListRules, List.mem_cons, List.not_mem_nil, or_false] at listed
  rcases listed with rfl | rfl | rfl
  · exact absurd special (by decide)
  · obtain ⟨(a : GenericArg), t, ⟨⟩⟩ := vs
    refine ⟨fun e => quoted.of_texts ?_, known_genericArgList_comma known⟩
    have item : Token.item t = .mark .comma :=
      item_of_mark (List.mem_singleton.mp known.filled.2.1) (by decide)
    cases e <;> simp [Face.given, rhsItems, symItems, item, GenericArg.itemsEach, listed_single]
  · exact absurd special (by decide)

end

theorem carried_special {p : Rule n} (member : p ∈ declarations.productions n)
    (special : p.rhs ∈ irregular) (other : p.rhs ∉ copiedSymbols) {w : List Token}
    {vs : Values Nonterminal.Val p.rhs} (parts : Parts declarations (Carried old text) p.rhs w vs) :
    Carried old text n w (p.build old w vs) := by
  intro printed faithful
  have alternative : p.rhs ∈ declarations.alternatives n := List.mem_map_of_mem member
  have own := (printed_typical n printed p.rhs alternative).resolve_left other
  obtain ⟨quoted, known⟩ := parts.carried faithful own
  have place := special_places n printed p.rhs alternative special other
  simp only [List.mem_cons, List.not_mem_nil, or_false] at place
  rcases place with rfl | rfl | rfl | rfl
  · exact segment_kept member special (quoted _ false) known
  · exact reference_kept member special other (quoted _ false) known
  · exact typeList_kept member special (quoted _ false) known
  · exact genericArgList_kept member special (quoted _ false) known

theorem carried_passed : PassedOn declarations old (Carried old text) := by
  intro n p before after w vs listed first all parts
  by_cases copied : p.rhs ∈ copiedSymbols
  · exact carried_copied listed copied first all
  by_cases special : p.rhs ∈ irregular
  · exact carried_special (listed ▸ List.mem_append_cons_self) special copied parts
  · exact carried_regular listed special first parts

theorem Segment.items_expressed (s : Segment) : s.expressed.items false = s.items true := by
  cases s with
  | plain name => rfl
  | angled name turbofish arguments => simp [Segment.expressed, Segment.items]
  | call name inputs output => cases output <;> simp [Segment.expressed, Segment.items]

theorem Segment.itemsTail_expressed (tail : List Segment) :
    Segment.itemsTail false (tail.map Segment.expressed) = Segment.itemsTail true tail := by
  induction tail with
  | nil => simp [Segment.itemsTail]
  | cons s tail ih => rw [List.map_cons, Segment.itemsTail, Segment.itemsTail, s.items_expressed, ih]

theorem Path.items_expressed (p : Path) : p.expressed.items = p.itemsInExpression := by
  obtain ⟨root, head, tail, extent⟩ := p
  rw [Path.expressed, Path.items, Path.itemsInExpression, head.items_expressed,
    Segment.itemsTail_expressed]

-- Only marks are added in expressions.
theorem Path.texts_expressed (p : Path) : texts p.itemsInExpression = texts p.items := by
  have segment (s : Segment) : texts (s.items true) = texts (s.items false) := by
    cases s with
    | plain name => simp [Segment.items]
    | angled name turbofish arguments => cases turbofish <;> simp [Segment.items]
    | call name inputs output => cases output <;> simp [Segment.items]
  have segments (tail : List Segment) :
      texts (Segment.itemsTail true tail) = texts (Segment.itemsTail false tail) := by
    induction tail with
    | nil => simp [Segment.itemsTail]
    | cons s tail ih => simp [Segment.itemsTail, segment, ih]
  obtain ⟨root, head, tail, extent⟩ := p
  simp [Path.items, Path.itemsInExpression, segment, segments]

-- What was read is printed, and what is printed is read as the same type.
theorem exists_reread {t : Ty} (read : Ty.read old = .ok t) {e : Bool}
    (row : neat (Ty.face.given e t).items)
    (plain : ∀ length, .length length ∈ (Ty.face.given e t).items → EndsPlain length)
    (same : written (Ty.face.given e t).items = text.toList) :
    ∃ t', Ty.read text = .ok t' ∧ t'.unplaced = (Ty.face.given e t).unplaced := by
  obtain ⟨tokens, lexed, found⟩ := Ty.read_eq_ok_iff.mp read
  have preferred := (read_eq_ok_iff declarations_ranked).mp found
  have kept : Kept old text .type tokens t :=
    preferred.induction carried_passed (by decide) (faithful_of_lex lexed)
  have quoted : Quoted old (Ty.face.given e t).items tokens :=
    (kept.quoted e).of_texts (texts_solid _).symm
  obtain ⟨pieces, whole, spread, placed⟩ := lex_eq_ok_iff.mp lexed
  have drawn := quoted.drawn [] whole.symm spread rfl placed
  obtain ⟨again, relexed, joins, answers, _⟩ := drawn.answers row plain
  rw [same] at joins
  have shown := answers.shown [] joins.symm relexed .origin rfl
  obtain ⟨(t' : Ty), fresh⟩ := kept.known.reread e _ shown
  exact ⟨t', Ty.read_eq_ok_iff.mpr ⟨_, lex_eq_ok_iff.mpr ⟨again, joins, relexed, rfl⟩,
    (read_eq_ok_iff declarations_ranked).mpr fresh.preferred⟩, fresh.alike⟩

def Item.EndsPlain : Item → Prop
  | length text => Deasync.EndsPlain text
  | _ => True

instance (text : String) : Decidable (EndsPlain text) :=
  inferInstanceAs (Decidable (∀ t ∈ (scan text).tokens.getLast?, t.kind ≠ .docLine))

instance : (item : Item) → Decidable item.EndsPlain
  | .length text => inferInstanceAs (Decidable (EndsPlain text))
  | .mark _ | .name _ | .lifetime _ | .quote _ | .blank => .isTrue trivial

-- No array length of a type, however deep, ends with a line of documentation.
def Ty.PlainLengths (t : Ty) : Prop := ∀ item ∈ t.items, item.EndsPlain

instance (t : Ty) : Decidable t.PlainLengths := inferInstanceAs (Decidable (∀ item ∈ t.items, _))

theorem type_round_trip {text : String} {t : Ty} (read : Ty.read text = .ok t) (plain : t.PlainLengths) :
    (∃ t', Ty.read t.render = .ok t' ∧ t'.unplaced = t.unplaced ∧ t'.render = t.render) ∧
      ∀ p, t = .path p → ∃ p', Ty.read p.renderInExpression = .ok (.path p') ∧
        p'.unplaced = p.expressed.unplaced := by
  constructor
  · obtain ⟨t', again, alike⟩ := exists_reread read (e := false) t.neat_items
      (fun _ => plain _) t.written_items
    refine ⟨t', again, alike, ?_⟩
    rw [← t'.render_unplaced, alike]
    exact t.render_unplaced
  · rintro p rfl
    have items : (Ty.face.given true (.path p)).items = p.itemsInExpression := p.items_expressed
    have lengths : ∀ length, .length length ∈ p.itemsInExpression → EndsPlain length := by
      intro length own
      have kept : .length length ∈ texts p.itemsInExpression := List.mem_filter.mpr ⟨own, rfl⟩
      rw [p.texts_expressed] at kept
      exact plain _ (List.mem_filter.mp kept).1
    obtain ⟨t', again, alike⟩ := exists_reread read (e := true) (items ▸ p.neat_itemsInExpression)
      (items ▸ lengths) (items ▸ p.written_itemsInExpression)
    cases t' with
    | path p' => exact ⟨p', again, Ty.path.inj alike⟩
    | _ => cases alike

def mapText : String := "Map<&&'a [u8; N + 1], dyn B<C = u8>,>"

theorem type_round_trip_map : ∃ t, Ty.read mapText = .ok t ∧ t.PlainLengths ∧
    (∃ t', Ty.read t.render = .ok t' ∧ t'.unplaced = t.unplaced ∧ t'.render = t.render) ∧
      ∀ p, t = .path p → ∃ p', Ty.read p.renderInExpression = .ok (.path p') ∧
        p'.unplaced = p.expressed.unplaced := by
  have accepted : (Ty.read mapText).toOption.any fun t => t.PlainLengths := by decide +kernel
  obtain ⟨t, found, plain⟩ := (Option.any_eq_true _ _).mp accepted
  have read := toOption_eq_some found
  have lengths := of_decide_eq_true plain
  exact ⟨t, read, lengths, type_round_trip read lengths⟩

def documentedText : String := "[u8; 3 /// x\n]"

-- The line of documentation takes in the bracket that is printed behind it.
theorem type_round_trip_documented : ∃ t, Ty.read documentedText = .ok t ∧
    ∀ t', Ty.read t.render ≠ .ok t' := by
  have accepted : (Ty.read documentedText).toOption.any fun t => (Ty.read t.render).toOption.isNone := by
    decide +kernel
  obtain ⟨t, found, refused⟩ := (Option.any_eq_true _ _).mp accepted
  refine ⟨t, toOption_eq_some found, ?_⟩
  intro t' again
  rw [again] at refused
  cases refused

end Deasync
