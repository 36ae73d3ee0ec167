import Deasync.Proofs.LifetimeArity
import Deasync.Proofs.Printing.Relocation

namespace Deasync

open Grammar Rules Lexeme

-- Nonterminals that end with a token that an angle bracket behind it cannot continue.
def firmNonterminals : List Nonterminal :=
  [.delimited, .roundRest, .squareRest, .curlyRest, .lifetimeBounds, .colonLifetimes, .constValue,
   .equalsConst, .genericArgs, .segment, .pathTail, .path, .asPath, .qualifiedPath, .genericParams, .binder,
   .plainOutput, .functionPointer, .plainType, .bound, .boundTail, .bounds, .type, .colonBounds,
   .equalsType, .genericParam]

-- The kinds that may not stand last in front of an angle bracket.
def Kind.soft : List Kind := [.docLine, .otherPunct, .equal]

def firmSym : Sym Nonterminal → Bool
  | .tok kinds => kinds.all (· ∉ Kind.soft)
  | .ref n => n ∈ firmNonterminals
  | .maybe s => firmSym s

def firmEnd : List (Sym Nonterminal) → Bool
  | [] => true
  | s :: rest => firmEnd rest && (firmSym s || !rest.all (nullable Nonterminal.isEmpty))

theorem firm_productions : ∀ n ∈ firmNonterminals, (declarations.alternatives n).all firmEnd := by
  decide +kernel

mutual

theorem Grammar.Spells.firm {n : Nonterminal} {ks : List Kind} : declarations.Spells n ks →
    n ∈ firmNonterminals → ∀ k ∈ ks.getLast?, k ∉ Kind.soft
  | .production (p := p) listed all => by
    intro firm
    have alternative : p.rhs ∈ declarations.alternatives n := List.mem_map_of_mem listed
    exact all.firm (List.all_eq_true.mp (firm_productions n firm) _ alternative)

theorem Grammar.SpellsSym.firm {s : Sym Nonterminal} {ks : List Kind} : declarations.SpellsSym s ks →
    firmSym s → ∀ k ∈ ks.getLast?, k ∉ Kind.soft
  | .tok fits => by
    rintro firm k ⟨⟩
    exact of_decide_eq_true (List.all_eq_true.mp firm _ fits)
  | .ref inner => fun firm => inner.firm (of_decide_eq_true firm)
  | .absent => fun _ k none => by cases none
  | .present inner => inner.firm

theorem Grammar.SpellsAll.firm {rhs : List (Sym Nonterminal)} {ks : List Kind} :
    declarations.SpellsAll rhs ks → firmEnd rhs → ∀ k ∈ ks.getLast?, k ∉ Kind.soft
  | .nil => fun _ k none => by cases none
  | @SpellsAll.cons _ _ _ _ ks ls first rest => by
    intro firm k last
    rw [firmEnd, Bool.and_eq_true, Bool.or_eq_true, Bool.not_eq_true'] at firm
    by_cases void : ls = []
    · rw [void, List.append_nil] at last
      refine first.firm (firm.2.resolve_right ?_) k last
      rw [rest.nullable declarations_ranked void]
      decide
    · rw [List.getLast?_append_of_ne_nil _ void] at last
      exact rest.firm firm.1 k last

end

section

variable {text : String}

theorem zone_of_genericParam {ks : List Kind} (spelled : declarations.Spells .genericParam ks) :
    walk Zone.move (Zone.flat, []) ks = some (Zone.flat, []) := by
  obtain ⟨rhs, listed, all⟩ := spells_iff_alternative.mp spelled
  have led : ∀ rhs ∈ declarations.alternatives .genericParam,
      Zone.contract.leads Zone.move rhs (Zone.flat, []) [(Zone.flat, [])] := by
    decide +kernel
  obtain ⟨place, only, walked⟩ := Contract.walks_of_leads Zone.contract_kept (led rhs listed) all
  rw [walked, List.mem_singleton.mp only]

-- No comma of a parameter stands behind what could be another parameter.
theorem genericParam_alone {ks ls : List Kind} (first : declarations.Spells .genericParam ks) :
    ¬declarations.Spells .genericParam (ks ++ .comma :: ls) := by
  intro longer
  have walked := zone_of_genericParam longer
  rw [walk_append, zone_of_genericParam first] at walked
  cases walked

theorem single_preferred {less greater : Token} {w : List Token} {p : GenericParam}
    (own : declarations.Preferred text .genericParam w p) (opens : less.kind = .less)
    (closes : greater.kind = .greater) :
    ∃ g, declarations.Preferred text .genericParams (less :: (w ++ [greater])) g ∧ g.params = [p] := by
  have spelled := own.derives.spells
  have each : declarations.PreferredEach text [.ref .genericParam] (w ++ []) (p, ()) :=
    .cons (.ref own) .nil
  rw [List.append_nil] at each
  have listed : declarations.productions .genericParamList =
      genericParamListRules.take 2 ++
        genericParamListRules.get ⟨2, by decide⟩ :: genericParamListRules.drop 3 := rfl
  have list : declarations.Preferred text .genericParamList w [p] := by
    refine .production listed ?_ (each.all declarationGuide_right (by decide))
    have other {rest : List (Sym Nonterminal)} :
        ¬declarations.SpellsAll (.ref .genericParam :: one .comma :: rest) (kindsOf w) := by
      intro all
      obtain ⟨ks, ms, same, first, later⟩ := spellsAll_cons.mp all
      obtain ⟨ls, rfl, _⟩ := spellsAll_tok.mp later
      exact genericParam_alone (spellsSym_ref.mp first) (same ▸ spelled)
    exact List.forall_mem_cons.mpr ⟨other, List.forall_mem_singleton.mpr other⟩
  have around : declarations.PreferredEach text [one .less, ref .genericParamList, one .greater]
      ([less] ++ (w ++ ([greater] ++ []))) (less, [p], greater, ()) :=
    .cons (.tok (List.mem_singleton.mpr opens)) (.cons (.ref list)
      (.cons (.tok (List.mem_singleton.mpr closes)) .nil))
  have either : declarations.productions .genericParams =
      genericParamsRules.take 1 ++ genericParamsRules.get ⟨1, by decide⟩ :: genericParamsRules.drop 2 := rfl
  exact ⟨_, preferred_of_apart declarationGuide_right either (by decide)
    (around.all declarationGuide_right (by decide)), rfl⟩

end

-- The list with this text alone is read, by itself and in a trait, as one parameter, which `fits`.
structure ReadsAlone (text : String) (fits : GenericParam → Prop) : Prop where
  list : ∃ tokens g p, lex ("<" ++ text ++ ">") = .ok tokens ∧
    declarations.read .genericParams ("<" ++ text ++ ">") tokens = .ok g ∧ g.params = [p] ∧ fits p
  trait : ∃ d p, Declaration.read ("trait A<" ++ text ++ "> \x7b\x7d") = .ok d ∧
    d.genericParams = [p] ∧ fits p

theorem ReadsAlone.imp {text : String} {fits other : GenericParam → Prop} (reads : ReadsAlone text fits)
    (implies : ∀ p, fits p → other p) : ReadsAlone text other where
  list := by
    obtain ⟨tokens, g, p, lexed, read, only, fit⟩ := reads.list
    exact ⟨tokens, g, p, lexed, read, only, implies p fit⟩
  trait := by
    obtain ⟨d, p, read, only, fit⟩ := reads.trait
    exact ⟨d, p, read, only, implies p fit⟩

-- A symbol that is left out in front of a token that it does not begin with.
theorem preferredAll_skip {text : String} {s : Sym Nonterminal} {rest : List (Sym Nonterminal)} {t : Token}
    {w : List Token} {v : s.Val declarations.Val} {vs : Values declarations.Val rest}
    (left : declarations.PreferredSym text s [] v) (other : t.kind ∉ declarationGuide.symStarts s)
    (others : declarations.PreferredAll text rest (t :: w) vs) :
    declarations.PreferredAll text (s :: rest) (t :: w) (v, vs) := by
  refine .cons left others fun x y split filled longer _ => ?_
  obtain ⟨t', x, rfl⟩ := List.exists_cons_of_ne_nil filled
  obtain ⟨rfl, _⟩ := List.cons.inj split
  exact other (Guide.symStarts_of_spells declarationGuide_right longer _ _ rfl)

theorem outerAttributes_none (text : String) : declarations.Preferred text .outerAttributes [] [] := by
  have listed : declarations.productions .outerAttributes =
      outerAttributesRules.take 1 ++
        outerAttributesRules.get ⟨1, by decide⟩ :: outerAttributesRules.drop 2 := rfl
  exact preferred_of_apart declarationGuide_right listed (by decide) .nil

theorem absent_preferred (text : String) {n : Nonterminal} (filled : n ≠ .outerAttributes) :
    declarations.PreferredSym text (.maybe (.ref n)) [] none :=
  .absent fun spelled => spells_ne_nil filled (spellsSym_ref.mp spelled) rfl

theorem generics_preferred {text : String} {rest : List (Sym Nonterminal)} {w u : List Token} {g : Generics}
    {vs : Values declarations.Val rest} (generics : declarations.Preferred text .genericParams w g)
    (others : declarations.PreferredAll text rest u vs) :
    declarations.PreferredAll text (opt .genericParams :: rest) (w ++ u) (some g, vs) := by
  refine .cons (.present (.ref generics)) others fun x y _ filled longer _ => ?_
  obtain ⟨t, x, rfl⟩ := List.exists_cons_of_ne_nil filled
  rw [kindsOf_append, kindsOf_cons] at longer
  rcases spellsSym_maybe.mp longer with void | longer
  · simp at void
  · exact genericParams_closed generics.derives.spells (spellsSym_ref.mp longer)

theorem trait_preferred {text : String} {word name opens closes : Token} {w : List Token} {g : Generics}
    (worded : word.kind = .traitWord) (named : name.kind = .ident)
    (generics : declarations.Preferred text .genericParams w g) (opened : opens.kind = .openCurly)
    (closed : closes.kind = .closeCurly) :
    ∃ d : Declaration, declarations.Preferred text .declaration (word :: name :: (w ++ [opens, closes])) d ∧
      d.generics = some g ∧ d.members = [] := by
  have tok {t : Token} {k : Kind} (kind : t.kind = k) : declarations.PreferredSym text (one k) [t] t :=
    .tok (List.mem_singleton.mpr kind)
  have void : declarations.productions .members =
      [] ++ membersRules.get ⟨0, by decide⟩ :: membersRules.drop 1 := rfl
  have ends : declarations.PreferredEach text [one .closeCurly] ([closes] ++ []) (closes, ()) :=
    .cons (tok closed) .nil
  have members : declarations.Preferred text .members [closes] [] :=
    preferred_of_apart declarationGuide_right void (by decide) (ends.all declarationGuide_right (by decide))
  have body : declarations.PreferredEach text [one .openCurly, ref .members]
      ([opens] ++ ([closes] ++ [])) (opens, [], ()) := .cons (tok opened) (.cons (.ref members) .nil)
  have bare := preferredAll_skip (absent_preferred text (n := .colonBounds) (by decide))
    (by rw [opened]; decide) (preferredAll_skip (absent_preferred text (n := .whereClause) (by decide))
      (by rw [opened]; decide) (body.all declarationGuide_right (by decide)))
  have header := preferredAll_cons declarationGuide_right rfl (tok worded)
    (preferredAll_cons declarationGuide_right rfl (tok named)
      (generics_preferred generics bare))
  have unsafety : declarations.PreferredSym text (may .unsafeWord) [] none := .absent (by simp)
  have all := preferredAll_skip (.ref (outerAttributes_none text)) (by rw [worded]; decide)
    (preferredAll_skip (absent_preferred text (n := .visibility) (by decide)) (by rw [worded]; decide)
      (preferredAll_skip unsafety (by rw [worded]; decide) header))
  have listed : declarations.productions .declaration =
      [] ++ declarationRules.get ⟨0, by decide⟩ :: declarationRules.drop 1 := rfl
  exact ⟨_, .production listed (List.forall_mem_nil _) all, rfl, rfl⟩

theorem shy_plain {old new : List Char} (plain : ∀ c ∈ new, c ∉ ['"', '*']) : Shy old new := by
  intro stop listed _
  have void : through stop [] = none := by
    simp only [closers, List.mem_cons, List.not_mem_nil, or_false] at listed
    rcases listed with rfl | rfl | rfl | rfl <;> rfl
  simpa using through_plain listed plain void

-- What stands in front of the list in a trait, and behind it.
def traitFront : List Piece :=
  [(.token .traitWord, ['t', 'r', 'a', 'i', 't']), (.gap, [' ']), (.token .ident, ['A'])]

def traitBehind : List Piece := [(.gap, [' ']), (.token .openCurly, ['\x7b']), (.token .closeCurly, ['\x7d'])]

theorem traitFront_placed (cursor : Cursor) : ∃ word name : Token, placed cursor traitFront = [word, name] ∧
    word.kind = .traitWord ∧ name.kind = .ident :=
  ⟨_, _, rfl, rfl, rfl⟩

theorem traitBehind_placed (cursor : Cursor) : ∃ opens closes : Token,
    placed cursor traitBehind = [opens, closes] ∧ opens.kind = .openCurly ∧ closes.kind = .closeCurly :=
  ⟨_, _, rfl, rfl, rfl⟩

theorem traitFront_lexed (cs : List Char) : Lexed ('<' :: cs) traitFront :=
  .cons (List.cons_ne_nil _ _) rfl (.cons (List.cons_ne_nil _ _) rfl (.cons (List.cons_ne_nil _ _) rfl .nil))

theorem traitBehind_lexed : Lexed [] traitBehind :=
  .cons (List.cons_ne_nil _ _) rfl (.cons (List.cons_ne_nil _ _) rfl (.cons (List.cons_ne_nil _ _) rfl .nil))

-- A list of one parameter is read where its pieces stand in another text.
theorem single_moved {old new : String} {a b : Cursor} {row : List Piece} {less greater : Token}
    {w : List Token} {p : GenericParam} (twins : Twins old new ((placed a row).zip (placed b row)))
    (tokens : placed a row = less :: (w ++ [greater])) (opens : less.kind = .less)
    (closes : greater.kind = .greater) (own : declarations.Preferred old .genericParam w p) :
    ∃ g p', declarations.Preferred new .genericParams (placed b row) g ∧ g.params = [p'] ∧
      p'.unplaced = p.unplaced := by
  have firsts := zip_fst a b row
  have seconds := zip_snd a b row
  generalize (placed a row).zip (placed b row) = pairs at twins firsts seconds
  rw [tokens] at firsts
  obtain ⟨⟨opener, less'⟩, others, rfl, rfl, mapped⟩ := List.map_eq_cons_iff.mp firsts
  obtain ⟨middle, final, rfl, rfl, one⟩ := List.map_eq_append_iff.mp mapped
  obtain ⟨⟨closer, greater'⟩, rfl, rfl⟩ := List.map_eq_singleton_iff.mp one
  have opens' := (twins.same (opener, less') (.head _)).1.trans opens
  have closes' := (twins.same (closer, greater') (by simp)).1.trans closes
  have inside : middle <:+: (opener, less') :: (middle ++ [(closer, greater')]) :=
    (List.prefix_append _ _).isInfix.trans (List.suffix_cons _ _).isInfix
  obtain ⟨p', again, same⟩ := (twins.stretch inside).preferred own
  obtain ⟨g, list, only⟩ := single_preferred again opens' closes'
  refine ⟨g, p', ?_, only, same (.inr (.head _))⟩
  rw [← seconds]
  simpa using list

section

variable {text : String} {row : List Piece}

theorem joined_trait (whole : joined row = ("<" ++ text ++ ">").toList) :
    ("trait A<" ++ text ++ "> \x7b\x7d").toList =
      joined traitFront ++ (joined row ++ joined traitBehind) := by
  rw [whole]
  simp [traitFront, traitBehind]

-- The list in a trait is lexed as it is alone.
theorem trait_lexed (lexed : Lexed [] row) (whole : joined row = ("<" ++ text ++ ">").toList)
    (ends : ∃ read, row.getLast? = some (.token .greater, read)) :
    Lexed [] (traitFront ++ (row ++ traitBehind)) := by
  have inside : Lexed (joined traitBehind) row := by
    obtain ⟨read, last⟩ := ends
    refine lexed.grow (shy_plain (by simp [traitBehind])) ?_ ?_
    · rintro c ⟨⟩
      decide
    · rintro piece final c ⟨⟩
      cases last.symm.trans final
      rfl
  have begins : joined (row ++ traitBehind) ++ [] =
      '<' :: (text.toList ++ '>' :: joined traitBehind) := by
    simp [whole]
  exact lexed_append.mpr ⟨begins ▸ traitFront_lexed _,
    lexed_append.mpr ⟨(List.append_nil _).symm ▸ inside, traitBehind_lexed⟩⟩

-- A trait with a list that can be read there is accepted.
theorem trait_read (lexed : Lexed [] row) (whole : joined row = ("<" ++ text ++ ">").toList)
    (ends : ∃ read, row.getLast? = some (.token .greater, read)) {g : Generics}
    (list : declarations.Preferred ("trait A<" ++ text ++ "> \x7b\x7d") .genericParams
      (placed (Cursor.origin.advance (joined traitFront)) row) g) :
    ∃ d, Declaration.read ("trait A<" ++ text ++ "> \x7b\x7d") = .ok d ∧ d.genericParams = g.params := by
  obtain ⟨word, name, front, worded, named⟩ := traitFront_placed .origin
  obtain ⟨opens, closes, behind, opened, closed⟩ :=
    traitBehind_placed ((Cursor.origin.advance (joined traitFront)).advance (joined row))
  obtain ⟨d, read, generics, members⟩ := trait_preferred worded named list opened closed
  have tokens : placed .origin (traitFront ++ (row ++ traitBehind)) = word :: name ::
      (placed (Cursor.origin.advance (joined traitFront)) row ++ [opens, closes]) := by
    rw [placed_append, placed_append, front, behind]
    rfl
  have spread := lex_eq_ok_iff.mpr
    ⟨_, by rw [joined_trait whole]; simp, trait_lexed lexed whole ends, tokens⟩
  refine ⟨d, Declaration.read_eq_ok_iff.mpr ⟨_, spread, checkTarget_of_spells read.derives.spells,
    (read_eq_ok_iff declarations_ranked).mpr read, ?_⟩, ?_⟩
  · rw [Declaration.strayModifier_eq_none, Declaration.methods, members]
    exact List.forall_mem_nil _
  · rw [Declaration.genericParams, generics]
    rfl

theorem readsAlone_of_row {less greater : Token} {w : List Token} {p : GenericParam}
    (lexed : Lexed [] row) (whole : joined row = ("<" ++ text ++ ">").toList)
    (ends : ∃ read, row.getLast? = some (.token .greater, read))
    (tokens : placed .origin row = less :: (w ++ [greater])) (opens : less.kind = .less)
    (closes : greater.kind = .greater)
    (own : declarations.Preferred ("<" ++ text ++ ">") .genericParam w p) :
    ReadsAlone text fun q => q.unplaced = p.unplaced where
  list := by
    obtain ⟨g, list, only⟩ := single_preferred own opens closes
    exact ⟨_, g, p, lex_eq_ok_iff.mpr ⟨row, whole, lexed, tokens⟩,
      (read_eq_ok_iff declarations_ranked).mpr list, only, rfl⟩
  trait := by
    have alone : ("<" ++ text ++ ">").toList = [] ++ (joined row ++ []) := by
      rw [← whole, List.append_nil, List.nil_append]
    have twins := placed_twins (a := .origin) (b := Cursor.origin.advance (joined traitFront)) []
      (joined traitFront) alone rfl (joined_trait whole) (by simp [Cursor.origin])
    obtain ⟨g, p', list, only, same⟩ := single_moved twins tokens opens closes own
    obtain ⟨d, read, params⟩ := trait_read lexed whole ends list
    exact ⟨d, p', read, params.trans only, same⟩

end

theorem genericParam_text {text : String} {w : List Token} {p : GenericParam}
    (derived : declarations.Derives text .genericParam w p) : p.text = wording text w := by
  obtain ⟨(q : Rule .genericParam), listed, vs, _, rfl⟩ := derives_def.mp derived
  have member : q ∈ genericParamRules := listed
  simp only [genericParamRules, List.mem_cons, List.not_mem_nil, or_false] at member
  rcases member with rfl | rfl | rfl <;> rfl

-- A row in angle brackets.
def bracketed (row : List Piece) : List Piece :=
  (.token .less, ['<']) :: (row ++ [(.token .greater, ['>'])])

theorem bracketed_placed (cursor : Cursor) (row : List Piece) : ∃ less greater : Token,
    placed cursor (bracketed row) = less :: (placed (cursor.advance ['<']) row ++ [greater]) ∧
      less.kind = .less ∧ greater.kind = .greater :=
  ⟨_, _, by rw [bracketed, placed, placed_append, placed, placed], rfl, rfl⟩

theorem lexeme_less (cs : List Char) : lexeme ('<' :: cs) = some (.token .less, 1) := by
  cases cs <;> rfl

theorem bracketed_lexed {row : List Piece} (lexed : Lexed ['>'] row) : Lexed [] (bracketed row) :=
  .cons (List.cons_ne_nil _ _) (lexeme_less _)
    (lexed_append.mpr ⟨lexed, .cons (List.cons_ne_nil _ _) rfl .nil⟩)

theorem bracketed_last (row : List Piece) :
    ∃ read, (bracketed row).getLast? = some (.token .greater, read) :=
  ⟨['>'], by rw [bracketed, ← List.cons_append, List.getLast?_concat]⟩

-- Behind a firm end an angle bracket begins a token of its own.
theorem lexed_closed {behind : List Char} {row : List Piece} {kind : Kind} {read : List Char}
    (lexed : Lexed behind row) (last : row.getLast? = some (.token kind, read)) (firm : kind ∉ Kind.soft) :
    Lexed ['>'] row := by
  refine lexed.grow (shy_plain (by simp)) ?_ ?_
  · rintro c ⟨⟩
    decide
  · rintro piece final c ⟨⟩
    cases last.symm.trans final
    simp only [Kind.soft, List.mem_cons, List.not_mem_nil, or_false, not_or] at firm
    simp [Class.endsBefore, firm]

theorem readsAlone_text {old : String} {front w later : List Token} {p : GenericParam}
    (lexed : lex old = .ok (front ++ (w ++ later))) (own : declarations.Preferred old .genericParam w p) :
    ReadsAlone p.text fun q => q.unplaced = p.unplaced := by
  have spelled := own.derives.spells
  have filled : w ≠ [] := List.length_pos_iff.mp (spells_length_pos (by decide) spelled)
  obtain ⟨pieces, whole, spread, tokens⟩ := lex_eq_ok_iff.mp lexed
  obtain ⟨before, row, behind, rfl, here, _, tight, _⟩ := placed_row filled tokens
  rw [joined_append, joined_append] at whole
  have text : joined row = p.text.toList := by
    have words : wording old (placed (Cursor.origin.advance (joined before)) row) =
        String.ofList (joined row) :=
      wording_placed (joined before) tight whole.symm (by simp [Cursor.origin])
    rw [here] at words
    rw [genericParam_text own.derives, words, String.toList_ofList]
  obtain ⟨_, kind, read, final, last⟩ := tight
  have firm := spelled.firm (by decide) kind (of_decide_eq_true last)
  have closed := lexed_closed (lexed_append.mp (lexed_append.mp spread).2).1 final firm
  -- the same row, in brackets of its own
  have around : ("<" ++ p.text ++ ">").toList = ['<'] ++ (joined row ++ ['>']) := by
    rw [text]
    simp
  have twins := placed_twins (a := Cursor.origin.advance (joined before))
    (b := Cursor.origin.advance ['<']) (joined before) ['<'] whole.symm (by simp [Cursor.origin]) around
    (by simp [Cursor.origin])
  obtain ⟨p', again, same⟩ := twins.preferred ((zip_fst _ _ row).trans here ▸ own)
  rw [zip_snd] at again
  obtain ⟨less, greater, split, opens, closes⟩ := bracketed_placed .origin row
  exact (readsAlone_of_row (bracketed_lexed closed) (by rw [around]; simp [bracketed]) (bracketed_last row)
    split opens closes again).imp fun q fit => fit.trans (same (.inr (.head _)))

end Deasync
