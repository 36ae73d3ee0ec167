import Deasync.Proofs.Grammar.Parts
import Deasync.Proofs.Grammar.TypeRespelling
import Deasync.Proofs.Printing.Values

namespace Deasync

open Grammar Rules

-- The contract of the walk over types, entered within a type only.
def Spot.within : Contract Nonterminal Spot :=
  { Spot.contract with
    entries := fun n =>
      (Spot.contract.entries n).filter fun place => place.1.isTyped || n = .arrayLength }

theorem Spot.within_entries {n : Nonterminal} {entry : Place Spot}
    (accepted : entry ∈ Spot.within.entries n) : entry ∈ Spot.contract.entries n :=
  (List.mem_filter.mp accepted).1

-- The bracket behind a list, where a comma may stand in front of it.
def Nonterminal.bracket? : Nonterminal → Option Kind
  | .typeList => some .closeRound
  | .genericArgList => some .greater
  | _ => none

def Sym.bracket? : Sym Nonterminal → Option Kind
  | .tok _ => none
  | .ref n => n.bracket?
  | .maybe s => s.bracket?

-- Wherever `n` may stand, `ls` is a respelling of `ks`.
def Respells (n : Nonterminal) (ks ls : List Kind) : Prop :=
  ∀ entry ∈ Spot.within.entries n, ∀ tail, (∀ k ∈ n.bracket?, tail.head? = some k) →
    Respelled Spot.move typeChanges entry (ks ++ tail) (ls ++ tail)

theorem Respells.refl {n : Nonterminal} (ks : List Kind) : Respells n ks ks := fun _ _ _ _ => .refl _

theorem Respells.row {n : Nonterminal} {ks ls : List Kind} (respells : Respells n ks ls)
    (alone : n.bracket? = none) {entry : Place Spot} (accepted : entry ∈ Spot.within.entries n) :
    Respelled Spot.move typeChanges entry ks ls := by
  have row := respells entry accepted [] (by simp [alone])
  rwa [List.append_nil, List.append_nil] at row

section

variable (text : String)

-- The tokens `w` are read as `v'`, which is the value `v` as it is printed.
structure Fresh (e : Bool) (n : Nonterminal) (ks : List Kind) (v : n.Val) (w : List Token) (v' : n.Val) :
    Prop where
  preferred : declarations.Preferred text n w v'
  alike : n.face.unplaced v' = n.face.unplaced (n.face.given e v)
  respells : Respells n ks (kindsOf w)

-- What is printed behind the ampersand of a reference.
def referenceItems (lifetime : Option String) (mutable : Bool) (inner : Ty) : List Item :=
  (match lifetime with | some name => [.lifetime name, .blank] | none => []) ++
    (if mutable then [.mark .mutWord, .blank] else []) ++ inner.items

def referenceOf (vs : Values Nonterminal.Val referredSymbols) : Ty :=
  .reference (Option.map Token.text vs.1) (Option.isSome vs.2.1) vs.2.2.1 default

-- Behind its ampersand a reference is read as such.
def Opens (ks : List Kind) (t : Ty) : Prop :=
  ∀ lifetime mutable inner extent, t = .reference lifetime mutable inner extent →
    ∀ w, Shown text (solid (referenceItems lifetime mutable inner)) w →
      ∃ vs, declarations.PreferredEach text referredSymbols w vs ∧
        (referenceOf vs).unplaced = t.unplaced ∧
        ∀ entry ∈ Spot.within.entries .type,
          Respelled Spot.move typeChanges entry ks (.ampersand :: kindsOf w)

def Nonterminal.ty? : (n : Nonterminal) → n.Val → Option Ty
  | .type, t | .plainType, t | .functionPointer, t => some t
  | _, _ => none

-- `ks` are the kinds that `v` was read from at first.
structure Known (n : Nonterminal) (ks : List Kind) (v : n.Val) : Prop where
  filled : n.face.filled v
  reread : ∀ e w, Shown text (solid (n.face.items (n.face.given e v))) w → ∃ v', Fresh text e n ks v w v'
  opens : ∀ t ∈ n.ty? v, Opens text ks t

inductive KnownSym : (s : Sym Nonterminal) → (ks : List Kind) → (v : s.Val Nonterminal.Val) → Prop where
  | tok {kinds : List Kind} {t : Token} : t.kind ∈ kinds →
      (t.kind ∈ [.ident, .selfWord] → t.kind = .ofWord t.text) → KnownSym (.tok kinds) [t.kind] t
  | ref {n : Nonterminal} {ks : List Kind} {v : n.Val} : Known text n ks v → KnownSym (.ref n) ks v
  | absent {s : Sym Nonterminal} : ¬declarations.SpellsSym s [] → KnownSym (.maybe s) [] none
  | present {s : Sym Nonterminal} {ks : List Kind} {v : s.Val Nonterminal.Val} : KnownSym s ks v →
      KnownSym (.maybe s) ks (some v)

-- The symbol `s` takes all that it can and still leave the rest to `rest`.
def Settles (s : Sym Nonterminal) (rest : List (Sym Nonterminal)) (ks ls : List Kind) : Prop :=
  declarationGuide.parts s rest ∨ ∀ x y, ls = x ++ y → x ≠ [] →
    declarations.SpellsSym s (ks ++ x) → ¬declarations.SpellsAll rest y

inductive KnownAll :
    (rhs : List (Sym Nonterminal)) → (ks : List Kind) → (vs : Values Nonterminal.Val rhs) → Prop where
  | nil : KnownAll [] [] ()
  | cons {s : Sym Nonterminal} {rest : List (Sym Nonterminal)} {ks ls : List Kind}
      {v : s.Val Nonterminal.Val} {vs : Values Nonterminal.Val rest} : KnownSym text s ks v →
      KnownAll rest ls vs → Settles s rest ks ls → KnownAll (s :: rest) (ks ++ ls) (v, vs)

variable (n : Nonterminal) (e : Bool)

inductive AnewSym : (s : Sym Nonterminal) → (ks : List Kind) → (v : s.Val Nonterminal.Val) →
    (w : List Token) → (v' : s.Val Nonterminal.Val) → Prop where
  | tok {kinds : List Kind} {t t' : Token} : t.kind ∈ kinds → t'.kind = t.kind →
      (t.kind ∈ Kind.spelled → t'.text = t.text) → AnewSym (.tok kinds) [t.kind] t [t'] t'
  | ref {m : Nonterminal} {ks : List Kind} {v v' : m.Val} {w : List Token} :
      Fresh text (n.inherits m && e) m ks v w v' → AnewSym (.ref m) ks v w v'
  | absent {s : Sym Nonterminal} : ¬declarations.SpellsSym s [] → AnewSym (.maybe s) [] none [] none
  | present {s : Sym Nonterminal} {ks : List Kind} {v v' : s.Val Nonterminal.Val} {w : List Token} :
      AnewSym s ks v w v' → AnewSym (.maybe s) ks (some v) w (some v')

inductive Anew : (rhs : List (Sym Nonterminal)) → (ks : List Kind) →
    (vs : Values Nonterminal.Val rhs) → (w : List Token) → (vs' : Values Nonterminal.Val rhs) → Prop where
  | nil : Anew [] [] () [] ()
  | cons {s : Sym Nonterminal} {rest : List (Sym Nonterminal)} {ks ls : List Kind}
      {v v' : s.Val Nonterminal.Val} {vs vs' : Values Nonterminal.Val rest} {w u : List Token} :
      AnewSym text n e s ks v w v' → Anew rest ls vs u vs' → Settles s rest ks ls →
      Anew (s :: rest) (ks ++ ls) (v, vs) (w ++ u) (v', vs')

end

variable {text : String} {n : Nonterminal} {e : Bool}

-- What is printed for a nonterminal does not end with an ampersand.
theorem face_last (n : Nonterminal) (v : n.Val) (front : List Item) :
    solid (n.face.items v) ≠ front ++ [.mark .ampersand] := by
  cases n with
  | arrayLength =>
    intro same
    have last := congrArg List.getLast? same
    rw [List.getLast?_concat] at last
    cases last
  | genericArgs => exact neat_solid (neat_arguments (GenericArg.neat_itemsEach v) rfl)
  | genericArgList => exact neat_solid (neat_listed (GenericArg.neat_itemsEach v))
  | genericArg => exact neat_solid (GenericArg.neat_items v)
  | segment => exact neat_solid (Segment.neat_items false v)
  | pathTail => exact neat_solid (Segment.neat_itemsTail false v [] rfl)
  | path | qualifiedPath => exact neat_solid (Path.neat_items v)
  | asPath => exact neat_solid (neat_eager rfl (neat_spaced rfl (Path.neat_items v)))
  | plainOutput => exact neat_solid (neat_eager rfl (neat_spaced rfl (Ty.neat_items v)))
  | functionPointer | plainType | type => exact neat_solid (Ty.neat_items v)
  | typeList => exact neat_solid (neat_listed (Ty.neat_itemsEach v))
  | bound => exact neat_solid (Bound.neat_items v)
  | bounds => exact neat_solid (neat_summed (Bound.neat_itemsEach v))
  | boundTail =>
    exact neat_solid (neat_eager rfl (neat_spaced rfl (neat_summed (Bound.neat_itemsEach v))))
  | _ => exact neat_solid rfl

theorem KnownSym.filled {s : Sym Nonterminal} {ks : List Kind} {v : s.Val Nonterminal.Val}
    (known : KnownSym text s ks v) : symFilled s v := by
  induction known with
  | tok fits _ => exact fits
  | ref inner => exact inner.filled
  | absent _ => exact trivial
  | present _ ih => exact ih

theorem KnownAll.filled {rhs : List (Sym Nonterminal)} {ks : List Kind}
    {vs : Values Nonterminal.Val rhs} (known : KnownAll text rhs ks vs) : rhsFilled rhs vs := by
  induction known with
  | nil => exact trivial
  | cons first _ _ ih => exact ⟨first.filled, ih⟩

-- What is printed for a symbol does not end with an ampersand.
theorem symItems_last {s : Sym Nonterminal} {v : s.Val Nonterminal.Val} (plain : .ampersand ∉ s.toks)
    (filled : symFilled s v) (front : List Item) : symItems n e s v ≠ front ++ [.mark .ampersand] := by
  induction s with
  | tok kinds =>
    intro same
    have last := congrArg List.getLast? same
    rw [List.getLast?_concat] at last
    have item : Token.item v = .mark .ampersand := Option.some.inj last
    unfold Token.item at item
    split at item
    · cases item
    · split at item
      · cases item
      · have kind : v.kind = .ampersand := Item.mark.inj item
        exact plain (kind ▸ filled)
  | ref m => exact face_last m _ front
  | maybe s ih =>
    cases v with
    | none => simp [symItems]
    | some v => exact ih plain filled

theorem shown_token {t : Token} {w : List Token}
    (word : t.kind ∈ [.ident, .selfWord] → t.kind = .ofWord t.text)
    (shown : Shown text [t.item] w) :
    ∃ t', w = [t'] ∧ t'.kind = t.kind ∧ (t.kind ∈ Kind.spelled → t'.text = t.text) := by
  unfold Token.item at shown
  split at shown
  · rename_i kind
    obtain ⟨row, u, rfl, ⟨t', rfl, own, same⟩, rest⟩ := shown_text rfl shown
    cases rest
    exact ⟨t', rfl, same.trans kind.symm, fun _ => own⟩
  · rename_i other
    split at shown
    · rename_i spelled
      have named : t.kind ∈ [.ident, .selfWord] := by
        simp only [Kind.spelled, List.mem_cons, List.not_mem_nil, or_false] at spelled ⊢
        exact spelled.imp_right fun h => h.resolve_right other
      obtain ⟨row, u, rfl, ⟨t', rfl, own, same⟩, rest⟩ := shown_text rfl shown
      cases rest
      exact ⟨t', rfl, same.trans (word named).symm, fun _ => own⟩
    · rename_i unspelled
      rcases shown_mark shown with ⟨t', u, rfl, kind, rest⟩ | ⟨_, _, _, _, _, _, void, _⟩
      · cases rest
        exact ⟨t', rfl, kind, fun spelled => absurd spelled unspelled⟩
      · cases void

theorem KnownSym.anew {s : Sym Nonterminal} {ks : List Kind} {v : s.Val Nonterminal.Val}
    (known : KnownSym text s ks v) {w : List Token} (shown : Shown text (symItems n e s v) w) :
    ∃ v', AnewSym text n e s ks v w v' := by
  induction known with
  | tok fits word =>
    obtain ⟨t', rfl, kind, spelled⟩ := shown_token word shown
    exact ⟨t', .tok fits kind spelled⟩
  | ref inner =>
    obtain ⟨v', fresh⟩ := inner.reread _ w shown
    exact ⟨v', .ref fresh⟩
  | absent void =>
    cases shown
    exact ⟨none, .absent void⟩
  | present _ ih =>
    obtain ⟨v', anew⟩ := ih shown
    exact ⟨some v', .present anew⟩

theorem KnownAll.anew {rhs : List (Sym Nonterminal)} {ks : List Kind}
    {vs : Values Nonterminal.Val rhs} (known : KnownAll text rhs ks vs)
    (plain : rhs.all fun s => .ampersand ∉ s.toks) {w : List Token}
    (shown : Shown text (rhsItems n e rhs vs) w) : ∃ vs', Anew text n e rhs ks vs w vs' := by
  induction known generalizing w with
  | nil =>
    cases shown
    exact ⟨(), .nil⟩
  | cons first _ settles ih =>
    obtain ⟨here, behind⟩ := Bool.and_eq_true_iff.mp (List.all_cons.symm.trans plain)
    obtain ⟨x, y, rfl, own, others⟩ := shown.split (symItems_last (of_decide_eq_true here) first.filled)
    obtain ⟨v', one⟩ := first.anew own
    obtain ⟨vs', all⟩ := ih behind others
    exact ⟨(v', vs'), .cons one all settles⟩

theorem AnewSym.alike {s : Sym Nonterminal} {ks : List Kind} {v v' : s.Val Nonterminal.Val}
    {w : List Token} (anew : AnewSym text n e s ks v w v') : symAlike n e s v v' := by
  induction anew with
  | tok fits kind spelled => exact ⟨fits, kind, spelled⟩
  | ref fresh => exact fresh.alike
  | absent _ => exact trivial
  | present _ ih => exact ih

theorem Anew.alike {rhs : List (Sym Nonterminal)} {ks : List Kind}
    {vs vs' : Values Nonterminal.Val rhs} {w : List Token} (anew : Anew text n e rhs ks vs w vs') :
    rhsAlike n e rhs vs vs' := by
  induction anew with
  | nil => exact trivial
  | cons first _ _ ih => exact ⟨first.alike, ih⟩

theorem AnewSym.preferred {s : Sym Nonterminal} {ks : List Kind} {v v' : s.Val Nonterminal.Val}
    {w : List Token} (anew : AnewSym text n e s ks v w v') : declarations.PreferredSym text s w v' := by
  induction anew with
  | tok fits kind _ => exact .tok (kind ▸ fits)
  | ref fresh => exact .ref fresh.preferred
  | absent void => exact .absent void
  | present _ ih => exact .present ih

theorem Anew.each {rhs : List (Sym Nonterminal)} {ks : List Kind}
    {vs vs' : Values Nonterminal.Val rhs} {w : List Token} (anew : Anew text n e rhs ks vs w vs') :
    declarations.PreferredEach text rhs w vs' := by
  induction anew with
  | nil => exact .nil
  | cons first _ _ ih => exact .cons first.preferred ih

theorem Spot.within_throughSym {s : Sym Nonterminal} {place : Place Spot} {ends : List (Place Spot)}
    (through : Spot.within.throughSym Spot.move s place = some ends) :
    Spot.contract.throughSym Spot.move s place = some ends := by
  induction s generalizing ends with
  | tok kinds => exact through
  | ref m =>
    have accepted := Spot.within_entries (accepted_of_through through)
    simp only [Contract.throughSym, if_pos (accepted_of_through through)] at through
    simp only [Contract.throughSym]
    exact (if_pos accepted).trans through
  | maybe s ih =>
    obtain ⟨others, inside, rfl⟩ := Option.map_eq_some_iff.mp through
    exact Option.map_eq_some_iff.mpr ⟨others, ih inside, rfl⟩

theorem AnewSym.walks {s : Sym Nonterminal} {ks : List Kind} {v v' : s.Val Nonterminal.Val}
    {w : List Token} (anew : AnewSym text n e s ks v w v') {entry : Place Spot} {ends : List (Place Spot)}
    (through : Spot.within.throughSym Spot.move s entry = some ends) :
    ∃ next ∈ ends, walk Spot.move entry (kindsOf w) = some next :=
  Contract.walksSym Spot.contract_kept anew.preferred.derives.spells entry ends
    (Spot.within_throughSym through)

theorem AnewSym.respelled {s : Sym Nonterminal} {ks : List Kind} {v v' : s.Val Nonterminal.Val}
    {w : List Token} (anew : AnewSym text n e s ks v w v') {entry : Place Spot} {ends : List (Place Spot)}
    (through : Spot.within.throughSym Spot.move s entry = some ends) {tail : List Kind}
    (closed : ∀ k ∈ s.bracket?, tail.head? = some k) :
    Respelled Spot.move typeChanges entry (ks ++ tail) (kindsOf w ++ tail) := by
  induction anew generalizing ends with
  | tok fits kind _ =>
    rw [kindsOf_cons, kind]
    exact .refl _
  | @ref m ks v v' w fresh =>
    have row := fresh.respells _ (accepted_of_through through) tail closed
    have deeper := row.deeper (entry.2.drop (Spot.within.depth m))
    rwa [List.take_append_drop] at deeper
  | absent _ => exact .refl _
  | present _ ih =>
    obtain ⟨others, inside, rfl⟩ := Option.map_eq_some_iff.mp through
    exact ih inside closed

-- Each list of a right-hand side stands in front of its bracket.
def guarded (own : Option Kind) : List (Sym Nonterminal) → Bool
  | [] => true
  | s :: rest => s.bracket?.all (fun k => rest = [] ∧ own = some k ∨ rest.head? = some (.tok [k])) &&
    guarded own rest

theorem Anew.closed {own : Option Kind} {s : Sym Nonterminal} {rest : List (Sym Nonterminal)}
    (guard : guarded own (s :: rest)) {ls tail : List Kind} {vs vs' : Values Nonterminal.Val rest}
    {u : List Token} (anew : Anew text n e rest ls vs u vs') (closed : ∀ k ∈ own, tail.head? = some k) :
    ∀ k ∈ s.bracket?, (ls ++ tail).head? = some k := by
  intro k behind
  rw [guarded, Bool.and_eq_true, behind] at guard
  rcases of_decide_eq_true guard.1 with ⟨rfl, rfl⟩ | next
  · cases anew
    exact closed k rfl
  · obtain ⟨others, rfl⟩ := List.head?_eq_some_iff.mp next
    cases anew with
    | cons first _ _ =>
      cases first with
      | tok fits _ _ => exact congrArg some (List.mem_singleton.mp fits)

theorem Anew.respelled {own : Option Kind} {rhs : List (Sym Nonterminal)} {ks tail : List Kind}
    {vs vs' : Values Nonterminal.Val rhs} {w : List Token} (anew : Anew text n e rhs ks vs w vs')
    (guard : guarded own rhs) (closed : ∀ k ∈ own, tail.head? = some k) {entry : Place Spot}
    {ends : List (Place Spot)} (through : Spot.within.through Spot.move rhs entry = some ends) :
    Respelled Spot.move typeChanges entry (ks ++ tail) (kindsOf w ++ tail) := by
  induction anew generalizing entry ends with
  | nil => exact .refl _
  | cons first others _ ih =>
    obtain ⟨middle, one, onward⟩ := Option.bind_eq_some_iff.mp through
    obtain ⟨lists, mapped, rfl⟩ := Option.map_eq_some_iff.mp onward
    obtain ⟨next, found, walked⟩ := first.walks one
    obtain ⟨list, _, continued⟩ := Contract.mem_of_mapM mapped found
    have here := first.respelled one (others.closed guard closed)
    have behind := ih (Bool.and_eq_true_iff.mp guard).2 continued
    rw [kindsOf_append, List.append_assoc, List.append_assoc]
    exact here.trans (behind.behind walked)

-- Where `m` has been read, `l` may begin.
def reachable (m l : Nonterminal) : Bool :=
  m.bracket?.isNone && l.bracket?.isNone && (Spot.within.entries m).any fun entry =>
    (Spot.within.exits m entry).all (Spot.within.entries l).contains

theorem reaches_of_fresh {m l : Nonterminal} {ks ls : List Kind} {x : m.Val} {y : l.Val}
    {w u : List Token} {x' : m.Val} {y' : l.Val} {a b : Bool} (near : reachable m l)
    (first : Fresh text a m ks x w x') (second : Fresh text b l ls y u y')
    (reaches : Reaches declarations m l (kindsOf w) (kindsOf u)) : Reaches declarations m l ks ls := by
  simp only [reachable, Bool.and_eq_true, Option.isNone_iff_eq_none, List.any_eq_true,
    List.all_eq_true, List.contains_iff_mem] at near
  obtain ⟨⟨alone, single⟩, entry, accepted, follows⟩ := near
  have inside := Spot.within_entries accepted
  obtain ⟨exit, left, walked⟩ :=
    Contract.walks Spot.contract_kept first.preferred.derives.spells _ inside
  have full : ∀ ch ∈ typeChanges, ch.old ≠ [] := by decide
  have later := second.respells.row single (follows exit left)
  have longer := Reaches.second Spot.contract_kept typeChanges_sound full later walked inside
    (fun exit left => Spot.within_entries (follows exit left)) reaches
  exact longer.first Spot.contract_kept typeChanges_sound (first.respells.row alone accepted) inside

theorem Anew.reaches {m l : Nonterminal} (near : reachable m l) {ks ls : List Kind} {x x' : m.Val}
    {vs vs' : Values Nonterminal.Val [.ref l]} {w u : List Token}
    (first : AnewSym text n e (.ref m) ks x w x') (others : Anew text n e [.ref l] ls vs u vs')
    (reaches : Reaches declarations m l (kindsOf w) (kindsOf u)) : Reaches declarations m l ks ls := by
  cases first with
  | ref one =>
    cases others with
    | cons second none _ =>
      cases none
      cases second with
      | ref two =>
        rw [List.append_nil] at reaches ⊢
        exact reaches_of_fresh near one two reaches

-- A symbol and what follows it, where the grammar settles how long the symbol is, or where that may be
-- left to the kinds that were read at first.
def joins : Sym Nonterminal → List (Sym Nonterminal) → Bool
  | .ref m, [.ref l] => declarationGuide.parts (.ref m) [.ref l] || reachable m l
  | s, rest => declarationGuide.parts s rest

def smooth : List (Sym Nonterminal) → Bool
  | [] => true
  | s :: rest => joins s rest && smooth rest

theorem Anew.preferred {rhs : List (Sym Nonterminal)} {ks : List Kind}
    {vs vs' : Values Nonterminal.Val rhs} {w : List Token} (anew : Anew text n e rhs ks vs w vs')
    (even : smooth rhs) : declarations.PreferredAll text rhs w vs' := by
  induction anew with
  | nil => exact .nil
  | @cons s rest ks ls v v' vs vs' w u first others settles ih =>
    obtain ⟨join, later⟩ := Bool.and_eq_true_iff.mp even
    have behind := ih later
    unfold joins at join
    split at join
    · rename_i m l
      rcases Bool.or_eq_true_iff.mp join with parted | near
      · exact preferredAll_cons declarationGuide_right parted first.preferred behind
      · rcases settles with parted | longest
        · exact preferredAll_cons declarationGuide_right parted first.preferred behind
        refine .cons first.preferred behind ?_
        intro x y split filled longer rest
        have reaches : Reaches declarations m l (kindsOf w) (kindsOf u) := by
          refine ⟨kindsOf x, kindsOf y, by rw [split, kindsOf_append], ?_, ?_, spellsAll_ref_one.mp rest⟩
          · exact fun void => filled (List.map_eq_nil_iff.mp void)
          · rw [← kindsOf_append]
            exact spellsSym_ref.mp longer
        obtain ⟨p, q, same, full, more, final⟩ := Anew.reaches near first others reaches
        exact longest p q same full (.ref more) (spellsAll_ref_one.mpr final)
    · exact preferredAll_cons declarationGuide_right join first.preferred behind

-- What is spelled by these symbols in a respelling was spelled by them before.
def safe (n : Nonterminal) (rhs : List (Sym Nonterminal)) : Bool :=
  n.bracket?.isNone && (Spot.within.entries n).any fun entry =>
    (Spot.contract.through Spot.move rhs entry).isSome && typeChanges.all fun ch =>
      ch.unseamed Spot.contract Spot.move declarationGuide rhs entry

theorem Respells.spellsAll {ks ls : List Kind} (respells : Respells n ks ls)
    {rhs : List (Sym Nonterminal)} (sure : safe n rhs) (spelled : declarations.SpellsAll rhs ls) :
    declarations.SpellsAll rhs ks := by
  simp only [safe, Bool.and_eq_true, Option.isNone_iff_eq_none, List.any_eq_true] at sure
  obtain ⟨alone, entry, accepted, passable, free⟩ := sure
  obtain ⟨ends, through⟩ := Option.isSome_iff_exists.mp passable
  exact (respells.row alone accepted).spellsAll Spot.contract_kept typeChanges_sound
    declarationGuide_right through free spelled

-- Behind the productions `before`, this one is preferred if it was, and passes respellings on.
def steady (n : Nonterminal) (before : List (List (Sym Nonterminal))) (rhs : List (Sym Nonterminal)) :
    Bool :=
  before.all (fun q => declarationGuide.apart rhs q || safe n q) && smooth rhs &&
    guarded n.bracket? rhs &&
    (Spot.within.entries n).all fun entry => (Spot.within.through Spot.move rhs entry).isSome

theorem Anew.fresh {p : Rule n} {before after : List (Rule n)}
    (listed : declarations.productions n = before ++ p :: after)
    (even : steady n (before.map Production.rhs) p.rhs) {ks : List Kind}
    (first : ∀ q ∈ before, declarationGuide.apart p.rhs q.rhs ∨ ¬declarations.SpellsAll q.rhs ks)
    {vs vs' : Values Nonterminal.Val p.rhs} {w : List Token} (anew : Anew text n e p.rhs ks vs w vs')
    {v : n.Val}
    (alike : n.face.unplaced (p.build text w vs') = n.face.unplaced (n.face.given e v)) :
    Fresh text e n ks v w (p.build text w vs') := by
  simp only [steady, Bool.and_eq_true] at even
  obtain ⟨⟨⟨others, flat⟩, guard⟩, passable⟩ := even
  have respells : Respells n ks (kindsOf w) := by
    intro entry accepted tail closed
    obtain ⟨ends, through⟩ := Option.isSome_iff_exists.mp (List.all_eq_true.mp passable entry accepted)
    exact anew.respelled guard closed through
  have all := anew.preferred flat
  refine ⟨.production listed ?_ all, alike, respells⟩
  intro q earlier spelled
  have known := List.all_eq_true.mp others q.rhs (List.mem_map.mpr ⟨q, earlier, rfl⟩)
  have apart_spelled (apart : declarationGuide.apart p.rhs q.rhs) : False :=
    Guide.apart_sound declarationGuide_right apart all.derives.spells spelled
  rcases Bool.or_eq_true_iff.mp known with apart | sure
  · exact apart_spelled apart
  · rcases first q earlier with apart | never
    · exact apart_spelled apart
    · exact never (respells.spellsAll sure spelled)

theorem KnownAll.fresh {p : Rule n} {before after : List (Rule n)}
    (listed : declarations.productions n = before ++ p :: after)
    (even : steady n (before.map Production.rhs) p.rhs) (plain : p.rhs.all fun s => .ampersand ∉ s.toks)
    {ks : List Kind} (first : ∀ q ∈ before, ¬declarations.SpellsAll q.rhs ks)
    {vs : Values Nonterminal.Val p.rhs} (known : KnownAll text p.rhs ks vs) (regular : Regular p e vs)
    (old : String) (u : List Token) {w : List Token}
    (shown : Shown text (solid (n.face.items (n.face.given e (p.build old u vs)))) w) :
    ∃ v', Fresh text e n ks (p.build old u vs) w v' := by
  rw [regular.items old u known.filled] at shown
  obtain ⟨vs', anew⟩ := known.anew plain shown
  exact ⟨_, anew.fresh listed even (fun q earlier => .inr (first q earlier))
    (regular.alike _ _ _ _ _ anew.alike)⟩

-- The nonterminals of types.
def printedNonterminals : List Nonterminal :=
  [.genericArgs, .segment, .pathTail, .path, .asPath, .qualifiedPath, .plainOutput, .plainType, .bound,
   .boundTail, .bounds, .type, .typeList, .genericArg, .genericArgList, .functionPointer, .binder,
   .arrayLength]

def steadyFrom (n : Nonterminal) (before : List (List (Sym Nonterminal))) :
    List (List (Sym Nonterminal)) → Bool
  | [] => true
  | rhs :: after => (rhs ∈ copiedSymbols || steady n before rhs) &&
    (rhs ∈ irregular || rhs.all fun s => .ampersand ∉ s.toks) && steadyFrom n (before ++ [rhs]) after

theorem printed_steady : ∀ n ∈ printedNonterminals, steadyFrom n [] (declarations.alternatives n) := by
  decide +kernel

theorem steady_of_listed (printed : n ∈ printedNonterminals) {p : Rule n} {before after : List (Rule n)}
    (listed : declarations.productions n = before ++ p :: after) :
    (p.rhs ∈ copiedSymbols ∨ steady n (before.map Production.rhs) p.rhs) ∧
      (p.rhs ∈ irregular ∨ p.rhs.all fun s => .ampersand ∉ s.toks) := by
  have from_ (front : List (List (Sym Nonterminal))) (before : List (Rule n))
      (checked : steadyFrom n front ((before ++ p :: after).map Production.rhs)) :
      (p.rhs ∈ copiedSymbols ∨ steady n (front ++ before.map Production.rhs) p.rhs) ∧
        (p.rhs ∈ irregular ∨ p.rhs.all fun s => .ampersand ∉ s.toks) := by
    induction before generalizing front with
    | nil =>
      simp only [List.nil_append, List.map_cons, steadyFrom, Bool.and_eq_true, Bool.or_eq_true,
        decide_eq_true_eq] at checked
      simpa using checked.1
    | cons q before ih =>
      simp only [List.cons_append, List.map_cons, steadyFrom, Bool.and_eq_true] at checked
      simpa using ih (front ++ [q.rhs]) checked.2
  have checked := printed_steady n printed
  rw [alternatives, listed] at checked
  exact from_ [] before checked

end Deasync
