import Deasync.Proofs.ParameterLists

namespace Deasync

open Grammar Rules Lexeme

-- What is left of a sort without its default.
def ParamSort.bare : ParamSort → ParamSort
  | .type bounds _ => .type bounds none
  | .const ty _ => .const ty none
  | sort => sort

namespace GenericParam

def hasDefault (p : GenericParam) : Bool :=
  match p.sort with
  | .type _ default => default.isSome
  | .const _ default => default.isSome
  | .lifetime _ => false

-- A parameter without its default, item by item.
def bareItems (p : GenericParam) : List Item :=
  match p.sort with
  | .type [] _ => [.name p.name]
  | .type bounds _ => .name p.name :: .mark .colon :: .blank :: summed (Bound.itemsEach bounds)
  | .const ty _ => .mark .constWord :: .blank :: .name p.name :: .mark .colon :: .blank :: ty.items
  | .lifetime _ => []

theorem written_bareItems {p : GenericParam} (given : p.hasDefault) :
    written p.bareItems = p.renderBare.toList := by
  obtain ⟨name, sort, text⟩ := p
  cases sort with
  | lifetime bounds => cases given
  | type bounds default =>
    obtain ⟨ty, rfl⟩ := Option.isSome_iff_exists.mp given
    cases bounds with
    | nil => simp [bareItems, renderBare, Item.text]
    | cons first rest =>
      simp [bareItems, renderBare, Item.text, Kind.spelling, Bound.renderAll,
        written_summed (Bound.written_itemsEach (first :: rest))]
  | const ty default =>
    obtain ⟨value, rfl⟩ := Option.isSome_iff_exists.mp given
    simp [bareItems, renderBare, Item.text, Kind.spelling, ty.written_items]

theorem neat_bareItems (p : GenericParam) : neat p.bareItems := by
  obtain ⟨name, sort, text⟩ := p
  cases sort with
  | lifetime bounds => rfl
  | type bounds default =>
    cases bounds with
    | nil => rfl
    | cons first rest =>
      exact neat_name rfl (neat_spaced rfl (neat_summed (Bound.neat_itemsEach (first :: rest))))
  | const ty default => exact neat_spaced rfl (neat_name rfl (neat_spaced rfl ty.neat_items))

theorem renderBare_plain {p : GenericParam} (plain : p.hasDefault = false) :
    p.renderBare = p.text ∧ p.sort.bare = p.sort := by
  obtain ⟨name, sort, text⟩ := p
  cases sort with
  | lifetime bounds => exact ⟨rfl, rfl⟩
  | type bounds default =>
    obtain rfl := Option.isNone_iff_eq_none.mp (Option.isSome_eq_false_iff.mp plain)
    exact ⟨rfl, rfl⟩
  | const ty default =>
    obtain rfl := Option.isNone_iff_eq_none.mp (Option.isSome_eq_false_iff.mp plain)
    exact ⟨rfl, rfl⟩

end GenericParam

-- The symbols of a parameter in front of its default.
inductive Fronts (p : GenericParam) :
    (rhs : List (Sym Nonterminal)) → Values Nonterminal.Val rhs → Prop where
  | name {name : Token} : p.name = name.text → p.sort.bare = .type [] none →
      Fronts p [one .ident] (name, ())
  | bounded {name colon : Token} {bounds : List Bound} : p.name = name.text → bounds ≠ [] →
      p.sort.bare = .type bounds none →
      Fronts p [one .ident, one .colon, ref .bounds] (name, colon, bounds, ())
  | const {word name colon : Token} {ty : Ty} : p.name = name.text → p.sort.bare = .const ty none →
      Fronts p [one .constWord, one .ident, one .colon, ref .type] (word, name, colon, ty, ())

theorem bareItems_congr {p q : GenericParam} (named : p.name = q.name) (same : p.sort.bare = q.sort) :
    p.bareItems = q.bareItems := by
  obtain ⟨name, sort, text⟩ := p
  obtain ⟨name', sort', text'⟩ := q
  cases named
  cases same
  cases sort with
  | lifetime bounds => rfl
  | type bounds default => cases bounds <;> rfl
  | const ty default => rfl

theorem item_of_ident {t : Token} (kind : t.kind ∈ [.ident]) : t.item = .name t.text :=
  item_of_name (List.mem_singleton.mp kind ▸ .head _)

theorem item_of_colon {t : Token} (kind : t.kind ∈ [.colon]) : t.item = .mark .colon :=
  item_of_mark (List.mem_singleton.mp kind) (by decide)

theorem Fronts.items {p : GenericParam} {rhs : List (Sym Nonterminal)}
    {vs : Values Nonterminal.Val rhs} (fronts : Fronts p rhs vs) (filled : rhsFilled rhs vs) :
    rhsItems .genericParam false rhs vs = solid p.bareItems := by
  cases fronts with
  | @name name named sort =>
    have word : Token.item name = .name name.text := item_of_ident filled.1
    rw [bareItems_congr (q := ⟨name.text, .type [] none, ""⟩) named sort]
    simp [rhsItems, symItems, word, GenericParam.bareItems]
  | @bounded name colon bounds named some sort =>
    obtain ⟨first, rest, rfl⟩ := List.exists_cons_of_ne_nil some
    have word : Token.item name = .name name.text := item_of_ident filled.1
    have mark : Token.item colon = .mark .colon := item_of_colon filled.2.1
    rw [bareItems_congr (q := ⟨name.text, .type (first :: rest) none, ""⟩) named sort]
    simp [rhsItems, symItems, word, mark, GenericParam.bareItems, Face.given]
  | @const opener name colon ty named sort =>
    have start : Token.item opener = .mark .constWord :=
      item_of_mark (List.mem_singleton.mp filled.1) (by decide)
    have word : Token.item name = .name name.text := item_of_ident filled.2.1
    have mark : Token.item colon = .mark .colon := item_of_colon filled.2.2.1
    rw [bareItems_congr (q := ⟨name.text, .const ty none, ""⟩) named sort]
    simp [rhsItems, symItems, start, word, mark, GenericParam.bareItems, Face.given]

section

variable {old : String} (text : String)

-- The bounds behind a colon.
theorem colonBounds_given {text : String} {w : List Token} {bounds : List Bound} (filled : bounds ≠ [])
    (read : declarations.Preferred text .colonBounds w bounds) :
    ∃ colon u, w = colon :: u ∧ colon.kind = .colon ∧ declarations.Preferred text .bounds u bounds := by
  obtain ⟨p, listed, vs, each, rfl⟩ := read.rule
  obtain rfl := List.mem_singleton.mp listed
  obtain ⟨colon, given, _⟩ := vs
  obtain ⟨kind, u, rfl, others⟩ := preferredEach_tok each
  cases given with
  | none => exact absurd rfl filled
  | some bounds =>
    exact ⟨colon, u, rfl, kind, preferredSym_ref (preferredSym_present (preferredEach_single others))⟩

-- The front of a parameter that has a default, with what was read there.
theorem fronts_of_preferred {w : List Token} {p : GenericParam}
    (own : declarations.Preferred old .genericParam w p) (given : p.hasDefault) :
    ∃ front u later rhs vs, w = front ++ (u ++ later) ∧ Fronts p rhs vs ∧
      Parts declarations (Carried old text) rhs u vs := by
  obtain ⟨(r : Rule .genericParam), listed, vs, each, rfl⟩ := own.rule
  have member : r ∈ genericParamRules := listed
  simp only [genericParamRules, List.mem_cons, List.not_mem_nil, or_false] at member
  rcases member with rfl | rfl | rfl
  · cases given
  · obtain ⟨attributes, word, name, colon, ty, value, _⟩ := vs
    obtain ⟨front, _, rfl, -, behind⟩ := preferredEach_cons each
    obtain ⟨worded, _, rfl, second⟩ := preferredEach_tok behind
    obtain ⟨named, _, rfl, third⟩ := preferredEach_tok second
    obtain ⟨marked, _, rfl, fourth⟩ := preferredEach_tok third
    obtain ⟨u, later, rfl, typed, -⟩ := preferredEach_cons fourth
    have typed : Carried old text .type u ty := (preferredSym_ref typed).induction carried_passed
    exact ⟨front, word :: name :: colon :: u, later, _, _, rfl, .const rfl rfl,
      .tok (List.mem_singleton.mpr worded) (.tok (List.mem_singleton.mpr named)
        (.tok (List.mem_singleton.mpr marked) (.single typed)))⟩
  · obtain ⟨attributes, name, (bounds : Option (List Bound)), value, _⟩ := vs
    obtain ⟨front, _, rfl, -, behind⟩ := preferredEach_cons each
    obtain ⟨named, _, rfl, second⟩ := preferredEach_tok behind
    obtain ⟨u, later, rfl, bounded, -⟩ := preferredEach_cons second
    by_cases void : bounds.getD [] = []
    · exact ⟨front, [name], u ++ later, _, _, rfl, .name rfl (congrArg (ParamSort.type · none) void),
        .tok (List.mem_singleton.mpr named) .nil⟩
    · cases bounds with
      | none => exact absurd rfl void
      | some bounds =>
        obtain ⟨colon, u, rfl, marked, inner⟩ :=
          colonBounds_given void (preferredSym_ref (preferredSym_present bounded))
        have inner : Carried old text .bounds u bounds := inner.induction carried_passed
        exact ⟨front, name :: colon :: u, later, _, _, rfl, .bounded rfl void rfl,
          .tok (List.mem_singleton.mpr named) (.tok (List.mem_singleton.mpr marked) (.single inner))⟩

variable {text}

theorem preferred_colonBounds {colon : Token} {w : List Token} {bounds : List Bound}
    (marked : colon.kind = .colon) (read : declarations.Preferred text .bounds w bounds) :
    declarations.Preferred text .colonBounds (colon :: w) bounds := by
  have listed : declarations.productions .colonBounds =
      [] ++ colonBoundsRules.get ⟨0, by decide⟩ :: colonBoundsRules.drop 1 := rfl
  exact .production listed (List.forall_mem_nil _)
    (preferredAll_cons declarationGuide_right rfl (.tok (List.mem_singleton.mpr marked))
      (preferredAll_last (.present (.ref read)) .nil))

-- Productions that a token does not begin.
theorem not_begun {n : Nonterminal} {before : List (Rule n)} {k : Kind}
    (others : ∀ q ∈ before, k ∉ declarationGuide.firsts q.rhs) {t : Token} (kind : t.kind = k)
    (w : List Token) : ∀ q ∈ before, ¬declarations.SpellsAll q.rhs (kindsOf (t :: w)) := by
  intro q earlier spelled
  exact others q earlier (kind ▸ Guide.firsts_of_spells declarationGuide_right spelled _ _ rfl)

theorem preferred_typeParam {name : Token} {w : List Token} {bounds : Option (List Bound)}
    (named : name.kind = .ident) (read : declarations.PreferredSym text (opt .colonBounds) w bounds) :
    declarations.Preferred text .genericParam (name :: w)
      ⟨name.text, .type (bounds.getD []) none, wording text (name :: w)⟩ := by
  have listed : declarations.productions .genericParam =
      genericParamRules.take 2 ++ genericParamRules.get ⟨2, by decide⟩ :: genericParamRules.drop 3 := rfl
  have absent := absent_preferred text (n := .equalsType) (by decide)
  exact .production listed (not_begun (by decide) named w)
    (preferredAll_skip (.ref (outerAttributes_none text)) (by rw [named]; decide)
      (preferredAll_cons declarationGuide_right rfl (.tok (List.mem_singleton.mpr named))
        (preferredAll_last read (preferredAll_last absent .nil))))

theorem preferred_constParam {word name colon : Token} {w : List Token} {ty : Ty}
    (worded : word.kind = .constWord) (named : name.kind = .ident) (marked : colon.kind = .colon)
    (read : declarations.Preferred text .type w ty) :
    declarations.Preferred text .genericParam (word :: name :: colon :: w)
      ⟨name.text, .const ty none, wording text (word :: name :: colon :: w)⟩ := by
  have listed : declarations.productions .genericParam =
      genericParamRules.take 1 ++ genericParamRules.get ⟨1, by decide⟩ :: genericParamRules.drop 2 := rfl
  have absent := absent_preferred text (n := .equalsConst) (by decide)
  exact .production listed (not_begun (by decide) worded _)
    (preferredAll_skip (.ref (outerAttributes_none text)) (by rw [worded]; decide)
      (preferredAll_cons declarationGuide_right rfl (.tok (List.mem_singleton.mpr worded))
        (preferredAll_cons declarationGuide_right rfl (.tok (List.mem_singleton.mpr named))
          (preferredAll_cons declarationGuide_right rfl (.tok (List.mem_singleton.mpr marked))
            (preferredAll_last (.ref read) (preferredAll_last absent .nil))))))

theorem alike_name {t t' : Token} (alike : symAlike .genericParam false (one .ident) t t') :
    t'.text = t.text :=
  alike.2.2 (List.mem_singleton.mp alike.1 ▸ by decide)

-- What is read as the front of a parameter is read as the parameter without its default.
theorem Fronts.reads {p : GenericParam} {rhs : List (Sym Nonterminal)} {vs vs' : Values Nonterminal.Val rhs}
    (fronts : Fronts p rhs vs) {w : List Token} (each : declarations.PreferredEach text rhs w vs')
    (alike : rhsAlike .genericParam false rhs vs vs') :
    ∃ q, declarations.Preferred text .genericParam w q ∧ q.name = p.name ∧
      q.sort.unplaced = p.sort.bare.unplaced := by
  cases fronts with
  | name named sort =>
    obtain ⟨name', _⟩ := vs'
    obtain ⟨kind, _, rfl, none⟩ := preferredEach_tok each
    cases none
    have bare := absent_preferred text (n := .colonBounds) (by decide)
    exact ⟨_, preferred_typeParam kind bare, (alike_name alike.1).trans named.symm, sort ▸ rfl⟩
  | @bounded name colon bounds named filled sort =>
    obtain ⟨name', colon', bounds', _⟩ := vs'
    obtain ⟨kind, _, rfl, second⟩ := preferredEach_tok each
    obtain ⟨marked, _, rfl, third⟩ := preferredEach_tok second
    have inner := preferredSym_ref (preferredEach_single third)
    have same : Bound.unplacedEach bounds' = Bound.unplacedEach bounds := alike.2.2.1
    refine ⟨_, preferred_typeParam kind (.present (.ref (preferred_colonBounds marked inner))),
      (alike_name alike.1).trans named.symm, ?_⟩
    rw [sort]
    exact congrArg (ParamSort.type · none) same
  | @const word name colon ty named sort =>
    obtain ⟨word', name', colon', ty', _⟩ := vs'
    obtain ⟨worded, _, rfl, second⟩ := preferredEach_tok each
    obtain ⟨kind, _, rfl, third⟩ := preferredEach_tok second
    obtain ⟨marked, _, rfl, fourth⟩ := preferredEach_tok third
    have same : Ty.unplaced ty' = Ty.unplaced ty := alike.2.2.2.1
    refine ⟨_, preferred_constParam worded kind marked (preferredSym_ref (preferredEach_single fourth)),
      (alike_name alike.2.1).trans named.symm, ?_⟩
    rw [sort]
    exact congrArg (ParamSort.const · none) same

theorem Fronts.typical {p : GenericParam} {rhs : List (Sym Nonterminal)}
    {vs : Values Nonterminal.Val rhs} (fronts : Fronts p rhs vs) :
    typical rhs ∧ rhs.all fun s => .ampersand ∉ s.toks := by
  cases fronts <;> decide

theorem neat_bracketed {items : List Item} (row : neat items) :
    neat (.mark .less :: (items ++ [.mark .greater])) :=
  neat_eager rfl (neat_append row rfl rfl)

theorem written_bracketed {items : List Item} {inner : String} (same : written items = inner.toList) :
    written (.mark .less :: (items ++ [.mark .greater])) = ("<" ++ inner ++ ">").toList := by
  simp [same, Item.text, Kind.spelling]

theorem quoted_bracketed {items : List Item} {w : List Token} (inner : Quoted old items w)
    (front later : List Token) :
    Quoted old (.mark .less :: (items ++ [.mark .greater])) (front ++ (w ++ later)) := by
  have closed : Quoted old [.mark .greater] later := .bare rfl (.nil _)
  exact .bare rfl ((inner.append closed).later front)

-- What shows items in angle brackets has the brackets around what shows the items.
theorem shown_bracketed {items : List Item} {w : List Token} (row : neat items)
    (shown : Shown text (solid (.mark .less :: (items ++ [.mark .greater]))) w) :
    ∃ less u greater, w = less :: (u ++ [greater]) ∧ less.kind = .less ∧ greater.kind = .greater ∧
      Shown text (solid items) u := by
  rw [solid_mark, solid_append] at shown
  rcases shown_mark shown with ⟨less, u, rfl, opens, inner⟩ | ⟨other, _⟩
  · obtain ⟨x, y, rfl, middle, final⟩ := inner.split fun _ => neat_solid row
    rcases shown_mark final with ⟨greater, z, rfl, closes, none⟩ | ⟨other, _⟩
    · cases none
      exact ⟨less, x, greater, rfl, opens, closes, middle⟩
    · cases other
  · cases other

-- Items that are copied from a text are lexed, in angle brackets, as tokens that show them.
theorem bracketed_shown {items : List Item} {front w later : List Token} {inner : String}
    (lexed : lex old = .ok (front ++ (w ++ later))) (quoted : Quoted old items w) (row : neat items)
    (plain : ∀ item ∈ items, item.EndsPlain) (same : written items = inner.toList) :
    ∃ pieces less u greater, Lexed [] pieces ∧ joined pieces = ("<" ++ inner ++ ">").toList ∧
      (∃ read, pieces.getLast? = some (.token .greater, read)) ∧
      placed .origin pieces = less :: (u ++ [greater]) ∧ less.kind = .less ∧ greater.kind = .greater ∧
      Shown ("<" ++ inner ++ ">") (solid items) u := by
  obtain ⟨source, whole, spread, tokens⟩ := lex_eq_ok_iff.mp lexed
  have drawn := (quoted_bracketed quoted front later).drawn [] whole.symm spread rfl tokens
  have lengths (text : String)
      (listed : .length text ∈ Item.mark .less :: (items ++ [.mark .greater])) : EndsPlain text :=
    plain (.length text) (by simpa using listed)
  obtain ⟨pieces, relexed, joins, answers, ends⟩ := drawn.answers (neat_bracketed row) lengths
  rw [written_bracketed same] at joins
  have shown := answers.shown [] joins.symm relexed .origin rfl
  obtain ⟨less, u, greater, split, opens, closes, middle⟩ := shown_bracketed row shown
  have last := ends .greater (by decide) (by rw [← List.cons_append, List.getLast?_concat])
  exact ⟨pieces, less, u, greater, relexed, joins, last, split, opens, closes, middle⟩

theorem GenericParam.of_unplaced {p q : GenericParam} (same : q.unplaced = p.unplaced) :
    q.name = p.name ∧ q.sort.unplaced = p.sort.unplaced :=
  ⟨(GenericParam.mk.inj same).1, (GenericParam.mk.inj same).2.1⟩

theorem readsAlone_bare {front w later : List Token} {p : GenericParam}
    (lexed : lex old = .ok (front ++ (w ++ later))) (own : declarations.Preferred old .genericParam w p)
    (given : p.hasDefault) (plain : ∀ item ∈ p.bareItems, item.EndsPlain) :
    ReadsAlone p.renderBare fun q => q.name = p.name ∧ q.sort.unplaced = p.sort.bare.unplaced := by
  obtain ⟨before, u, behind, rhs, vs, rfl, fronts, parts⟩ :=
    fronts_of_preferred ("<" ++ p.renderBare ++ ">") own given
  obtain ⟨regular, single⟩ := fronts.typical
  have cut : front ++ (before ++ (u ++ behind) ++ later) =
      (front ++ before) ++ (u ++ (behind ++ later)) := by simp
  rw [cut] at lexed
  have faithful := (faithful_of_lex lexed).stretch (u := u) ⟨front ++ before, behind ++ later, by simp⟩
  obtain ⟨quoted, known⟩ := parts.carried faithful regular
  have items := fronts.items known.filled
  -- what is printed of the parameter is copied from the tokens in front of its default
  have copied : Quoted old p.bareItems u :=
    (quoted .genericParam false).of_texts (by rw [items, texts_solid])
  obtain ⟨row, less, x, greater, relexed, joins, last, split, opens, closes, shown⟩ :=
    bracketed_shown lexed copied p.neat_bareItems plain (GenericParam.written_bareItems given)
  obtain ⟨vs', anew⟩ := known.anew single (items ▸ shown)
  obtain ⟨q, again, named, sort⟩ := fronts.reads anew.each anew.alike
  refine (readsAlone_of_row relexed joins last split opens closes again).imp fun r same => ?_
  obtain ⟨name, kept⟩ := GenericParam.of_unplaced same
  exact ⟨name.trans named, kept.trans sort⟩

end

end Deasync
