import Deasync.Proofs.Printing.Rereading

namespace Deasync

open Grammar Rules

variable {old text : String} {n : Nonterminal}

-- A production that keeps its text, as an item.
structure Copied (p : Rule n) (item : String → Item) : Prop where
  items : ∀ e source w vs, solid (n.face.items (n.face.given e (p.build source w vs))) =
    [item (wording source w)]
  alike : ∀ e source source' w w' vs vs', wording source' w' = wording source w →
    n.face.unplaced (p.build source' w' vs') = n.face.unplaced (n.face.given e (p.build source w vs))
  other : ∀ source w vs, ∀ t ∈ n.ty? (p.build source w vs), ∀ lifetime mutable inner extent,
    t ≠ .reference lifetime mutable inner extent

theorem shown_copy {item : Item} {w : List Token} {own : String}
    (kind : item = .quote own ∨ item = .length own) (shown : Shown text [item] w) :
    wording text w = own ∧ kindsOf w = kindsOf (scan own).tokens := by
  have textual : item.text? = some own := by rcases kind with rfl | rfl <;> rfl
  obtain ⟨row, u, rfl, copied, rest⟩ := shown_text textual shown
  cases rest
  rw [List.append_nil]
  rcases kind with rfl | rfl <;> exact copied

theorem Copied.fresh {p : Rule n} {item : String → Item} (copied : Copied p item)
    (kind : ∀ own, item own = .quote own ∨ item own = .length own) {before after : List (Rule n)}
    (listed : declarations.productions n = before ++ p :: after) {w : List Token}
    (first : ∀ q ∈ before, ¬declarations.SpellsAll q.rhs (kindsOf w))
    {vs : Values Nonterminal.Val p.rhs} (all : declarations.PreferredAll old p.rhs w vs)
    (faithful : Faithful old w) (filled : w ≠ []) {e : Bool} {u : List Token}
    (shown : Shown text (solid (n.face.items (n.face.given e (p.build old w vs)))) u) :
    ∃ v', Fresh text e n (kindsOf w) (p.build old w vs) u v' := by
  rw [copied.items] at shown
  obtain ⟨words, kinds⟩ := shown_copy (kind _) shown
  rw [faithful.rows w List.infix_rfl filled] at kinds
  obtain ⟨vs', again⟩ := all.of_kinds text u kinds
  refine ⟨_, .production listed (kinds ▸ first) again, copied.alike _ _ _ _ _ _ _ words, ?_⟩
  rw [kinds]
  exact .refl _

theorem functionPointer_copied : ∀ p ∈ functionPointerRules, Copied p .quote := by
  simp only [functionPointerRules, List.forall_mem_singleton]
  constructor
  · intro e source w vs
    cases e <;> rfl
  · intro e source source' w w' vs vs' same
    cases e <;> exact congrArg (Ty.functionPointer · default) same
  · rintro source w vs t ⟨⟩ _ _ _ _ ⟨⟩

theorem plainType_copied : ∀ p ∈ plainTypeRules, p.rhs ∈ copiedSymbols → Copied p .quote := by
  have copied : ∀ p ∈ plainTypeRules.getLast?, Copied p .quote := by
    rintro p ⟨⟩
    constructor
    · intro e source w vs
      cases e <;> rfl
    · intro e source source' w w' vs vs' same
      cases e <;> exact congrArg (Ty.macroCall · default) same
    · rintro source w vs t ⟨⟩ _ _ _ _ ⟨⟩
  have others : ∀ rhs ∈ plainTypeRules.dropLast.map Production.rhs, rhs ∉ copiedSymbols := by decide
  intro p listed own
  have split : plainTypeRules = plainTypeRules.dropLast ++ plainTypeRules.getLast?.toList := rfl
  rw [split, List.mem_append, Option.mem_toList] at listed
  rcases listed with early | last
  · exact absurd own (others p.rhs (List.mem_map_of_mem early))
  · exact copied p last

theorem genericArg_copied : ∀ p ∈ genericArgRules, p.rhs ∈ copiedSymbols → Copied p .quote := by
  have copied (rhs : List (Sym Nonterminal)) :
      Copied (verbatim rhs GenericArg.const : Rule .genericArg) .quote := by
    constructor
    · intro e source w vs
      cases e <;> rfl
    · intro e source source' w w' vs vs' same
      cases e <;> exact congrArg GenericArg.const same
    · rintro source w vs t ⟨⟩
  simp only [genericArgRules, List.forall_mem_cons]
  refine ⟨?_, ?_, ?_, ?_, fun _ => copied _, fun _ => copied _, List.forall_mem_nil _⟩ <;>
    exact fun own => absurd own (by decide)

theorem binder_copied : ∀ p ∈ binderRules, Copied p .quote := by
  simp only [binderRules, List.forall_mem_singleton]
  constructor
  · intro e source w vs
    cases e <;> rfl
  · intro e source source' w w' vs vs' same
    cases e <;> exact same
  · rintro source w vs t ⟨⟩

theorem arrayLength_copied : ∀ p ∈ arrayLengthRules, Copied p .length := by
  simp only [arrayLengthRules, List.forall_mem_singleton]
  constructor
  · intro e source w vs
    cases e <;> rfl
  · intro e source source' w w' vs vs' same
    cases e <;> exact same
  · rintro source w vs t ⟨⟩

-- Spots behind which the last kind was none that a quiet character could continue.
def Spot.endsPlain : Spot → Bool
  | typed role last => !(role ∈ [.angled, .argument] && last = .fresh)
  | _ => false

theorem walkStep_plain {place next : Place Spot} {k : Kind}
    (stepped : walkStep Spot.move place k = some next) (plain : next.1.endsPlain) :
    k ∉ [.docLine, .colon, .otherPunct, .equal] := by
  intro listed
  simp only [List.mem_cons, List.not_mem_nil, or_false] at listed
  obtain ⟨spot, stack⟩ := place
  rcases listed with rfl | rfl | rfl | rfl <;> cases spot with
  | typed role last => cases role <;> cases stepped <;> cases plain
  | _ => cases stepped; cases plain

-- A text of this form does not begin with an ampersand and ends with a kind that nothing continues.
def quotable (n : Nonterminal) (rhs : List (Sym Nonterminal)) : Bool :=
  (declarationGuide.firsts rhs).all (· ∉ [.ampersand, .ampersands]) &&
    !rhs.all (nullable Nonterminal.isEmpty) && (Spot.contract.entries n).any fun entry =>
      (Spot.contract.exits n entry).all fun place => place.1.endsPlain

theorem quote_source {p : Rule n} (listed : p ∈ declarations.productions n) (fit : quotable n p.rhs)
    {w : List Token} (spelled : declarations.SpellsAll p.rhs (kindsOf w)) :
    (Item.quote (wording old w)).Source old w := by
  simp only [quotable, Bool.and_eq_true, Bool.not_eq_true', List.any_eq_true] at fit
  obtain ⟨⟨begins, solid⟩, entry, accepted, ends⟩ := fit
  have filled : kindsOf w ≠ [] := by
    intro void
    rw [spelled.nullable declarations_ranked void] at solid
    cases solid
  refine ⟨rfl, ?_, ?_⟩
  · obtain ⟨k, ks, same⟩ := List.exists_cons_of_ne_nil filled
    have first := Guide.firsts_of_spells declarationGuide_right spelled k ks same
    exact ⟨k, by rw [same]; rfl, of_decide_eq_true (List.all_eq_true.mp begins k first)⟩
  · obtain ⟨place, left, walked⟩ :=
      Contract.walks Spot.contract_kept (.production listed spelled) _ accepted
    obtain ⟨ks, k, same⟩ := List.eq_nil_or_concat (kindsOf w) |>.resolve_left filled
    rw [same, List.concat_eq_append] at walked ⊢
    obtain ⟨next, _, last⟩ := walk_prefix walked
    obtain ⟨final, stepped, ended⟩ := Option.bind_eq_some_iff.mp last
    cases ended
    exact ⟨k, List.getLast?_concat, walkStep_plain stepped (List.all_eq_true.mp ends _ left)⟩

-- A comma at the end of a list is left out.
theorem Respells.comma {m : Nonterminal} (ch : Change Spot) {k : Kind} (listed : ch ∈ typeChanges)
    (before : ch.old = [.comma, k]) (after : ch.new = [k]) (behind : n.bracket? = some k)
    (alone : m.bracket? = none)
    (places : ∀ entry ∈ Spot.within.entries n, entry ∈ Spot.within.entries m ∧
      ∀ exit ∈ Spot.contract.exits m entry, ch.mark exit.1)
    {ks ls : List Kind} (spelled : declarations.Spells m ls) (row : Respells m ks ls) :
    Respells n (ks ++ [.comma]) ls := by
  intro entry accepted tail closed
  obtain ⟨inner, marked⟩ := places entry accepted
  obtain ⟨rest, rfl⟩ := List.head?_eq_some_iff.mp (closed k behind)
  obtain ⟨exit, left, walked⟩ := Contract.walks Spot.contract_kept spelled _ (Spot.within_entries inner)
  have first := (row.row alone inner).append (.comma :: k :: rest)
  have second : Respelled Spot.move typeChanges entry (ls ++ .comma :: k :: rest) (ls ++ k :: rest) := by
    have step := Respelled.step (q := rest) listed walked (marked exit left) (.refl _)
    rwa [before, after] at step
  rw [List.append_assoc]
  exact first.trans second

theorem segment_places : ∀ entry ∈ Spot.within.entries .segment, ∀ k ∈ [Kind.ident, .selfWord],
    (walkStep Spot.move entry k).any fun place =>
      place ∈ Spot.within.entries .genericArgs ∧ turbofishChange.mark place.1 := by
  decide +kernel

-- A `::` is put in front of arguments.
theorem Respells.turbofish {k : Kind} (named : k ∈ [.ident, .selfWord]) {ks ls : List Kind}
    (row : Respells .genericArgs ks (.less :: ls)) :
    Respells .segment (k :: ks) (k :: .pathSep :: .less :: ls) := by
  intro entry accepted tail closed
  obtain ⟨place, stepped, fit⟩ := (Option.any_eq_true _ _).mp (segment_places entry accepted k named)
  obtain ⟨inner, marked⟩ := of_decide_eq_true fit
  have walked : walk Spot.move entry [k] = some place := by
    rw [walk, stepped]
    rfl
  have first := (row place inner tail (by intro k void; cases void)).behind walked
  have listed : turbofishChange ∈ typeChanges := by simp [typeChanges]
  exact first.trans (.step listed walked marked (.refl _))

theorem genericArgs_less {ks : List Kind} (spelled : declarations.Spells .genericArgs ks) :
    ∃ ls, ks = .less :: ls := by
  obtain ⟨rhs, listed, all⟩ := spells_iff_alternative.mp spelled
  have either : rhs = [.tok [.less], .tok [.greater]] ∨ rhs = argsSymbols := List.mem_pair.mp listed
  rcases either with rfl | rfl
  · obtain ⟨ls, rfl, _⟩ := spellsAll_tok.mp all
    exact ⟨ls, rfl⟩
  · obtain ⟨ls, rfl, _⟩ := spellsAll_tok.mp all
    exact ⟨ls, rfl⟩

theorem turbofish_fresh {name : Token} {list : List GenericArg} {ks : List Kind}
    (named : name.kind ∈ [.ident, .selfWord]) (word : name.kind = .ofWord name.text)
    (known : Known text .genericArgs ks list) {w : List Token}
    (shown : Shown text
      (.name name.text :: .mark .pathSep :: solid (GenericArg.faceAngled.items list)) w) :
    ∃ v', Fresh text true .segment (name.kind :: ks) (.angled name.text false list) w v' := by
  obtain ⟨row, _, rfl, ⟨t, rfl, spelled, kind⟩, rest⟩ := shown_text rfl shown
  rcases shown_mark rest with ⟨sep, u, rfl, separates, rest⟩ | ⟨void, _⟩
  · obtain ⟨(list' : List GenericArg), fresh⟩ := known.reread false u rest
    have kept : t.kind = name.kind := kind.trans word.symm
    have each : declarations.PreferredEach text turbofishSymbols ([t] ++ ([sep] ++ (u ++ [])))
        (t, sep, list', ()) :=
      .cons (.tok (kept ▸ named)) (.cons (.tok (List.mem_singleton.mpr separates))
        (.cons (.ref fresh.preferred) .nil))
    rw [List.append_nil] at each
    have listed : declarations.productions .segment =
        segmentRules.take 1 ++ segmentRules.get ⟨1, by decide⟩ :: segmentRules.drop 2 := rfl
    refine ⟨.angled t.text true list', ?_, ?_, ?_⟩
    · exact preferred_of_apart declarationGuide_right listed (by decide)
        (each.all declarationGuide_right (by decide))
    · exact congrArg₂ (Segment.angled · true ·) spelled fresh.alike
    · obtain ⟨ls, same⟩ := genericArgs_less fresh.preferred.derives.spells
      have row := fresh.respells
      rw [same] at row
      have kinds : kindsOf ([t] ++ sep :: u) = name.kind :: .pathSep :: .less :: ls := by
        simp [kept, separates, same]
      rw [kinds]
      exact Respells.turbofish named row
  · cases void

theorem type_entries : Spot.within.entries .type = Spot.within.entries .plainType := by
  decide +kernel

-- A reference may be entered wherever a type may, and leads to where a type may be.
theorem reference_places : ∀ entry ∈ Spot.within.entries .type,
    (walkStep Spot.move entry .ampersand).any fun place => place ∈ Spot.within.entries .type ∧
      (Spot.within.through Spot.move referredSymbols place).isSome ∧ entry.1.isTyped := by
  decide +kernel

theorem opens_of_other {ks : List Kind} {t : Ty}
    (other : ∀ lifetime mutable inner extent, t ≠ .reference lifetime mutable inner extent) :
    Opens text ks t := fun lifetime mutable inner extent same =>
  absurd same (other lifetime mutable inner extent)

-- Only a reference is printed with an ampersand in front.
theorem Ty.reference_of_items {t : Ty} {rest : List Item}
    (begins : solid t.items = .mark .ampersand :: rest) :
    ∃ lifetime mutable inner extent, t = .reference lifetime mutable inner extent ∧
      rest = solid (referenceItems lifetime mutable inner) := by
  cases t with
  | reference lifetime mutable inner extent =>
    exact ⟨lifetime, mutable, inner, extent, rfl, (List.cons.inj begins).2.symm⟩
  | path p =>
    exfalso
    obtain ⟨root, head, tail, extent⟩ := p
    cases root with
    | relative =>
      cases head with
      | call name inputs output =>
        cases output <;> simp [Ty.items, Path.items, Root.items, Segment.items] at begins
      | _ => simp [Ty.items, Path.items, Root.items, Segment.items] at begins
    | global => simp [Ty.items, Path.items, Root.items] at begins
    | qualified self asTrait => cases asTrait <;> simp [Ty.items, Path.items, Root.items] at begins
  | tuple elements =>
    exfalso
    rw [Ty.items.eq_def] at begins
    split at begins <;> simp_all
  | _ => simp [Ty.items] at begins

theorem reference_items {lifetime mutable : Option Token} (inner : Ty)
    (named : symFilled (may .lifetime) lifetime) (worded : symFilled (may .mutWord) mutable) :
    solid (referenceItems (lifetime.map Token.text) mutable.isSome inner) =
      rhsItems .plainType false referredSymbols (lifetime, mutable, inner, ()) := by
  change _ = symItems .plainType false (may .lifetime) lifetime ++
    (symItems .plainType false (may .mutWord) mutable ++ (solid inner.items ++ []))
  have first : symItems .plainType false (may .lifetime) lifetime =
      lifetime.toList.map fun t => .lifetime t.text := by
    cases lifetime with
    | none => rfl
    | some t => simp [symItems, Token.item, List.mem_singleton.mp named]
  have second : symItems .plainType false (may .mutWord) mutable =
      if mutable.isSome then [.mark .mutWord] else [] := by
    cases mutable with
    | none => rfl
    | some t => simp [symItems, Token.item, Kind.spelled, List.mem_singleton.mp worded]
  rw [first, second]
  cases lifetime <;> cases mutable <;> simp [referenceItems]

theorem reference_alike {lifetime mutable lifetime' mutable' : Option Token} {inner inner' : Ty}
    (alike : rhsAlike .plainType false referredSymbols (lifetime, mutable, inner, ())
      (lifetime', mutable', inner', ())) (extent : Extent) :
    (referenceOf (lifetime', mutable', inner', ())).unplaced =
      (Ty.reference (lifetime.map Token.text) mutable.isSome inner extent).unplaced := by
  obtain ⟨named, worded, same, -⟩ := alike
  have texts : lifetime'.map Token.text = lifetime.map Token.text := alike_texts named (by decide)
  have word : mutable'.isSome = mutable.isSome := alike_isSome worded
  change Ty.reference (lifetime'.map Token.text) mutable'.isSome inner'.unplaced default = _
  rw [texts, word, show inner'.unplaced = inner.unplaced from same]
  rfl

-- The production for one ampersand or for two, behind which a reference is read.
theorem reference_preferred {t : Token} {w : List Token} {vs : Values Nonterminal.Val referredSymbols}
    (each : declarations.PreferredEach text referredSymbols w vs) :
    (t.kind = .ampersand → ∃ extent, declarations.Preferred text .plainType (t :: w)
      (.reference (Option.map Token.text vs.1) (Option.isSome vs.2.1) vs.2.2.1 extent)) ∧
    (t.kind = .ampersands → ∃ extent, declarations.Preferred text .plainType (t :: w)
      (.reference none false
        (.reference (Option.map Token.text vs.1) (Option.isSome vs.2.1) vs.2.2.1 extent) extent)) := by
  constructor
  · intro kind
    have all : declarations.PreferredAll text (referenceSymbols .ampersand) (t :: w) (t, vs) :=
      PreferredEach.all declarationGuide_right (by decide)
        (.cons (.tok (List.mem_singleton.mpr kind)) each)
    have listed : declarations.productions .plainType =
        plainTypeRules.take 4 ++ plainTypeRules.get ⟨4, by decide⟩ :: plainTypeRules.drop 5 := rfl
    exact ⟨_, preferred_of_apart declarationGuide_right listed (by decide) all⟩
  · intro kind
    have all : declarations.PreferredAll text (referenceSymbols .ampersands) (t :: w) (t, vs) :=
      PreferredEach.all declarationGuide_right (by decide)
        (.cons (.tok (List.mem_singleton.mpr kind)) each)
    have listed : declarations.productions .plainType =
        plainTypeRules.take 5 ++ plainTypeRules.get ⟨5, by decide⟩ :: plainTypeRules.drop 6 := rfl
    exact ⟨_, preferred_of_apart declarationGuide_right listed (by decide) all⟩

theorem KnownAll.referred {ls : List Kind} {inner : Ty}
    (known : KnownAll text referredSymbols ls (none, none, inner, ())) : Known text .type ls inner := by
  cases known with
  | cons first others _ =>
    cases first
    cases others with
    | cons second others _ =>
      cases second
      cases others with
      | cons third others _ =>
        cases others
        cases third with
        | ref known => simpa using known

theorem known_reference {ls : List Kind} {vs : Values Nonterminal.Val referredSymbols}
    (known : KnownAll text referredSymbols ls vs) (extent : Extent) :
    Known text .plainType (.ampersand :: ls)
      (.reference (Option.map Token.text vs.1) (Option.isSome vs.2.1) vs.2.2.1 extent) := by
  obtain ⟨(lifetime : Option Token), (mutable : Option Token), (inner : Ty), ⟨⟩⟩ := vs
  obtain ⟨named, worded, -⟩ := known.filled
  have ahead {entry : Place Spot} (accepted : entry ∈ Spot.within.entries .type) :
      ∃ place ∈ Spot.within.entries .type, walk Spot.move entry [.ampersand] = some place ∧
        (∃ ends, Spot.within.through Spot.move referredSymbols place = some ends) ∧ entry.1.isTyped := by
    obtain ⟨place, stepped, fit⟩ := (Option.any_eq_true _ _).mp (reference_places entry accepted)
    obtain ⟨inside, passable, typed⟩ := of_decide_eq_true fit
    refine ⟨place, inside, ?_, Option.isSome_iff_exists.mp passable, typed⟩
    rw [walk, stepped]
    rfl
  have opens : Opens text (.ampersand :: ls)
      (.reference (lifetime.map Token.text) mutable.isSome inner extent) := by
    rintro _ _ _ _ ⟨⟩ w shown
    rw [reference_items inner named worded] at shown
    obtain ⟨⟨lifetime', mutable', inner', ⟨⟩⟩, anew⟩ := known.anew (by decide) shown
    refine ⟨_, anew.each, reference_alike anew.alike extent, ?_⟩
    intro entry accepted
    obtain ⟨place, _, walked, ⟨ends, through⟩, _⟩ := ahead accepted
    have guard : guarded none referredSymbols := by decide
    have alone : ∀ k ∈ (none : Option Kind), ([] : List Kind).head? = some k := by
      intro k void
      cases void
    have row := anew.respelled guard alone through
    rw [List.append_nil, List.append_nil] at row
    exact row.behind walked
  refine ⟨trivial, ?_, ?_⟩
  · intro e w shown
    have marked : Shown text (.mark .ampersand ::
        solid (referenceItems (lifetime.map Token.text) mutable.isSome inner)) w := by
      cases e <;> exact shown
    rcases shown_mark marked with ⟨t, u, rfl, kind, rest⟩ | ⟨-, t, u, rest, rfl, kind, begins, behind⟩
    · obtain ⟨vs', each, same, row⟩ := opens _ _ _ _ rfl u rest
      obtain ⟨place, preferred⟩ := (reference_preferred each).1 kind
      refine ⟨_, preferred, ?_, ?_⟩
      · cases e <;> exact same
      · intro entry accepted tail _
        rw [kindsOf_cons, kind]
        exact (row entry (type_entries ▸ accepted)).append tail
    · -- the ampersand of the inner type has run into the one in front of it
      obtain ⟨rfl, rfl⟩ : lifetime = none ∧ mutable = none := by
        cases lifetime <;> cases mutable <;> simp [referenceItems] at begins ⊢
      obtain ⟨_, _, _, _, rfl, rfl⟩ := Ty.reference_of_items begins
      obtain ⟨vs', each, same, row⟩ := known.referred.opens _ rfl _ _ _ _ rfl u behind
      obtain ⟨place, preferred⟩ := (reference_preferred each).2 kind
      refine ⟨_, preferred, ?_, ?_⟩
      · cases e <;> exact congrArg (Ty.reference none false · default) same
      · intro entry accepted tail _
        obtain ⟨place, inside, walked, _, typed⟩ := ahead (type_entries ▸ accepted)
        have listed : joinChange ∈ typeChanges := by simp [typeChanges]
        have first := ((row place inside).behind walked).append tail
        rw [kindsOf_cons, kind]
        exact first.trans (.step listed (p := []) (q := kindsOf u ++ tail) rfl typed (.refl _))
  · rintro t ⟨⟩
    exact opens

theorem KnownAll.single {m : Nonterminal} {ks : List Kind} {v : m.Val}
    (known : KnownAll text [.ref m] ks (v, ())) : Known text m ks v := by
  cases known with
  | cons first others _ =>
    cases others
    cases first with
    | ref known => simpa using known

theorem known_type {ks : List Kind} {t : Ty} (plain : Known text .plainType ks t) :
    Known text .type ks t where
  filled := trivial
  reread e w shown := by
    have listed : declarations.productions .type =
        [] ++ typeRules.get ⟨0, by decide⟩ :: typeRules.drop 1 := rfl
    have even := (steady_of_listed (by decide) listed).1.resolve_left (by decide)
    have known : KnownAll text [.ref .plainType] (ks ++ []) (t, ()) :=
      .cons (.ref plain) .nil (.inl (by decide))
    rw [List.append_nil] at known
    exact known.fresh listed even (by decide) (List.forall_mem_nil _) (type_regular e _ (.head _) _)
      text w shown
  opens := plain.opens

-- Two ampersands that stand for two references.
theorem known_references {ls : List Kind} {vs : Values Nonterminal.Val referredSymbols}
    (known : KnownAll text referredSymbols ls vs) (extent : Extent) :
    Known text .plainType (.ampersands :: ls) (.reference none false
      (.reference (Option.map Token.text vs.1) (Option.isSome vs.2.1) vs.2.2.1 extent) extent) := by
  have inner := known_type (known_reference known extent)
  have void (k : Kind) : ¬declarations.SpellsSym (.tok [k]) [] := by simp
  have around : KnownAll text referredSymbols ([] ++ ([] ++ (.ampersand :: ls ++ [])))
      (none, none, .reference (Option.map Token.text vs.1) (Option.isSome vs.2.1) vs.2.2.1 extent, ()) :=
    .cons (.absent (void _)) (.cons (.absent (void _)) (.cons (.ref inner) .nil (.inl (by decide)))
      (.inl (by decide))) (.inl (by decide))
  rw [List.nil_append, List.nil_append, List.append_nil] at around
  have outer := known_reference around extent
  have apart {entry : Place Spot} (typed : entry.1.isTyped) (tail : List Kind) :
      Respelled Spot.move typeChanges entry (.ampersands :: ls ++ tail)
        (.ampersand :: .ampersand :: ls ++ tail) := by
    have listed : splitChange ∈ typeChanges := by simp [typeChanges]
    exact .step listed (p := []) (q := ls ++ tail) rfl typed (.refl _)
  have typed : ∀ entry ∈ Spot.within.entries .plainType, entry.1.isTyped := by decide +kernel
  refine ⟨trivial, ?_, ?_⟩
  · intro e w shown
    obtain ⟨v', fresh⟩ := outer.reread e w shown
    refine ⟨v', fresh.preferred, fresh.alike, ?_⟩
    intro entry accepted tail closed
    exact (apart (typed entry accepted) tail).trans (fresh.respells entry accepted tail closed)
  · rintro t ⟨⟩ lifetime mutable inner extent same w shown
    obtain ⟨vs', each, alike, row⟩ := outer.opens _ rfl lifetime mutable inner extent same w shown
    refine ⟨vs', each, alike, ?_⟩
    intro entry accepted
    have first := apart (typed entry (type_entries ▸ accepted)) []
    rw [List.append_nil, List.append_nil] at first
    exact first.trans (row entry accepted)

-- A list of one, with a comma behind it.
theorem KnownAll.comma {m : Nonterminal} {ks : List Kind} {v : m.Val} {t : Token}
    (known : KnownAll text [.ref m, one .comma] ks (v, t, ())) :
    ∃ ls, ks = ls ++ [.comma] ∧ Known text m ls v := by
  cases known with
  | @cons _ _ ls _ _ _ first others _ =>
    cases others with
    | cons second others _ =>
      cases others
      cases first with
      | ref known =>
        cases second with
        | tok fits _ =>
          rw [List.mem_singleton.mp fits]
          exact ⟨ls, rfl, known⟩

theorem known_typeList_comma {ks : List Kind} {ty : Ty} {t : Token}
    (known : KnownAll text [.ref .type, one .comma] ks (ty, t, ())) : Known text .typeList ks [ty] := by
  obtain ⟨ls, rfl, inner⟩ := known.comma
  refine ⟨List.cons_ne_nil _ _, ?_, by rintro t ⟨⟩⟩
  intro e w shown
  have only : Shown text (solid ty.items) w := by cases e <;> exact shown
  obtain ⟨(ty' : Ty), fresh⟩ := inner.reread false w only
  have each : declarations.PreferredEach text [.ref .type] (w ++ []) (ty', ()) :=
    .cons (.ref fresh.preferred) .nil
  rw [List.append_nil] at each
  have listed : declarations.productions .typeList =
      typeListRules.take 2 ++ typeListRules.get ⟨2, by decide⟩ :: typeListRules.drop 3 := rfl
  refine ⟨[ty'], preferred_of_apart declarationGuide_right listed (by decide)
    (each.all declarationGuide_right (by decide)), ?_, ?_⟩
  · cases e <;> exact congrArg ([·]) fresh.alike
  · exact Respells.comma roundComma (by simp [typeChanges]) rfl rfl rfl rfl (by decide +kernel)
      fresh.preferred.derives.spells fresh.respells

theorem known_genericArgList_comma {ks : List Kind} {a : GenericArg} {t : Token}
    (known : KnownAll text [.ref .genericArg, one .comma] ks (a, t, ())) :
    Known text .genericArgList ks [a] := by
  obtain ⟨ls, rfl, inner⟩ := known.comma
  refine ⟨List.cons_ne_nil _ _, ?_, by rintro t ⟨⟩⟩
  intro e w shown
  have only : Shown text (solid a.items) w := by cases e <;> exact shown
  obtain ⟨(a' : GenericArg), fresh⟩ := inner.reread false w only
  have each : declarations.PreferredEach text [.ref .genericArg] (w ++ []) (a', ()) :=
    .cons (.ref fresh.preferred) .nil
  rw [List.append_nil] at each
  have listed : declarations.productions .genericArgList =
      genericArgListRules.take 2 ++
        genericArgListRules.get ⟨2, by decide⟩ :: genericArgListRules.drop 3 := rfl
  refine ⟨[a'], preferred_of_apart declarationGuide_right listed (by decide)
    (each.all declarationGuide_right (by decide)), ?_, ?_⟩
  · cases e <;> exact congrArg ([·]) fresh.alike
  · exact Respells.comma angleComma (by simp [typeChanges]) rfl rfl rfl rfl (by decide +kernel)
      fresh.preferred.derives.spells fresh.respells

theorem known_segment {ks : List Kind} {name : Token} {arguments : Option (List GenericArg)}
    (known : KnownAll text segmentRule.rhs ks (name, arguments, ())) (w : List Token) :
    Known text .segment ks (segmentRule.build old w (name, arguments, ())) := by
  refine ⟨trivial, ?_, by rintro t ⟨⟩⟩
  intro e u shown
  by_cases plain : e = false ∨ arguments = none
  · have listed : declarations.productions .segment = [] ++ segmentRule :: segmentRules.drop 1 := rfl
    have even := (steady_of_listed (by decide) listed).1.resolve_left (by decide)
    exact known.fresh listed even (by decide) (List.forall_mem_nil _) (segmentRule_regular e plain)
      old w shown
  · rw [not_or, Bool.not_eq_false] at plain
    obtain ⟨rfl, some⟩ := plain
    obtain ⟨list, rfl⟩ := Option.ne_none_iff_exists'.mp some
    cases known with
    | cons first others _ =>
      cases others with
      | cons second others _ =>
        cases others
        cases first with
        | tok named word =>
          cases second with
          | present second =>
            cases second with
            | ref inner =>
              have expressed : Shown text (solid (Segment.items false (.angled name.text true list))) u :=
                shown
              rw [List.append_nil]
              exact turbofish_fresh named (word named) inner (by simpa [Segment.items] using expressed)

end Deasync
