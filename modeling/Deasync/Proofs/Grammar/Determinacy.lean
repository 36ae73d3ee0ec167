import Deasync.Proofs.Grammar.Charting

namespace Deasync.Grammar

variable {N : Type} {G : Grammar N}

structure Guide (N : Type) where
  empty : N → Bool
  starts : N → List Kind
  seals : N → List Kind

namespace Guide

def symStarts (g : Guide N) : Sym N → List Kind
  | .tok kinds => kinds
  | .ref n => g.starts n
  | .maybe s => g.symStarts s

-- The kinds that a sequence of symbols can begin with.
def firsts (g : Guide N) : List (Sym N) → List Kind
  | [] => []
  | s :: rest => g.symStarts s ++ if nullable g.empty s then g.firsts rest else []

-- The symbol ends where `rest` begins.
def parts (g : Guide N) : Sym N → List (Sym N) → Bool
  | .tok _, _ => true
  | .ref n, rest => (g.firsts rest).all (· ∈ g.seals n)
  | .maybe s, rest =>
    g.parts s rest && !nullable g.empty s && (g.symStarts s).all (· ∉ g.firsts rest)

def settled (g : Guide N) : List (Sym N) → Bool
  | [] => true
  | s :: rest => g.parts s rest && g.settled rest

def differ (g : Guide N) (as bs : List (Sym N)) : Bool :=
  (g.firsts as).all (· ∉ g.firsts bs) &&
    !(as.all (nullable g.empty) && bs.all (nullable g.empty))

-- Both symbols end at the same place, the one in front of `as`, the other in front of `bs`.
def alike [DecidableEq N] (g : Guide N) (as bs : List (Sym N)) : Sym N → Sym N → Bool
  | .tok _, .tok _ => true
  | s, t => s = t && g.parts s as && g.parts s bs

-- Nothing is spelled by both sequences: behind common symbols they begin differently.
def apart [DecidableEq N] (g : Guide N) : List (Sym N) → List (Sym N) → Bool
  | s :: as, t :: bs => g.differ (s :: as) (t :: bs) || g.alike as bs s t && g.apart as bs
  | as, bs => g.differ as bs

variable (G) in
-- What a guide says is so.
structure Right (g : Guide N) : Prop where
  ranked : G.Ranked g.empty
  begins : ∀ n, (G.alternatives n).all fun rhs => (g.firsts rhs).all (· ∈ g.starts n)
  closed : ∀ n, ∀ k ∈ g.seals n, ∀ ks ls, G.Spells n ks → ¬G.Spells n (ks ++ k :: ls)

variable {g : Guide N}

mutual

theorem starts_of_spells (right : g.Right G) {n : N} {ks : List Kind} :
    G.Spells n ks → ∀ k ls, ks = k :: ls → k ∈ g.starts n
  | .production (p := p) listed all => by
    intro k ls same
    have begun := firsts_of_spells right all k ls same
    have known := List.all_eq_true.mp (right.begins n) p.rhs (List.mem_map.mpr ⟨p, listed, rfl⟩)
    exact of_decide_eq_true (List.all_eq_true.mp known k begun)

theorem symStarts_of_spells (right : g.Right G) {s : Sym N} {ks : List Kind} :
    G.SpellsSym s ks → ∀ k ls, ks = k :: ls → k ∈ g.symStarts s
  | .tok fits => by
    intro k ls same
    cases same
    exact fits
  | .ref inner => starts_of_spells right inner
  | .absent => by
    intro k ls same
    cases same
  | .present inner => by
    intro k ls same
    exact symStarts_of_spells right inner k ls same

theorem firsts_of_spells (right : g.Right G) {rhs : List (Sym N)} {ks : List Kind} :
    G.SpellsAll rhs ks → ∀ k ls, ks = k :: ls → k ∈ g.firsts rhs
  | .nil => by
    intro k ls same
    cases same
  | @SpellsAll.cons _ _ _ _ front back first rest => by
    intro k ls same
    have early := symStarts_of_spells right first
    have late := firsts_of_spells right rest
    have void := first.nullable right.ranked
    rw [firsts, List.mem_append]
    cases front with
    | nil =>
      right
      rw [if_pos (void rfl)]
      exact late k ls same
    | cons head tail =>
      left
      cases same
      exact early _ _ rfl

end

-- Only right-hand sides that can begin with the first kind spell it.
theorem spells_by_first (right : g.Right G) {n : N} {k : Kind} {ks : List Kind}
    {r : List (List (Sym N))}
    (only : (G.alternatives n).filter (fun rhs => k ∈ g.firsts rhs) = r)
    (spelled : G.Spells n (k :: ks)) : ∃ rhs ∈ r, G.SpellsAll rhs (k :: ks) := by
  obtain ⟨rhs, listed, all⟩ := spells_iff_alternative.mp spelled
  have begun := firsts_of_spells right all k ks rfl
  refine ⟨rhs, ?_, all⟩
  rw [← only]
  exact List.mem_filter.mpr ⟨listed, decide_eq_true begun⟩

theorem parts_sound (right : g.Right G) {s : Sym N} {rest : List (Sym N)} (parted : g.parts s rest)
    {ks ls ms : List Kind} {k : Kind} (first : G.SpellsSym s ks)
    (longer : G.SpellsSym s (ks ++ k :: ls)) : ¬G.SpellsAll rest (k :: ms) := by
  intro spelled
  have begun := firsts_of_spells right spelled k ms rfl
  induction s with
  | tok kinds =>
    obtain ⟨a, _, rfl⟩ := spellsSym_tok.mp first
    obtain ⟨b, _, same⟩ := spellsSym_tok.mp longer
    cases same
  | ref n =>
    have sealed := of_decide_eq_true (List.all_eq_true.mp parted k begun)
    exact right.closed n k sealed ks ls (spellsSym_ref.mp first) (spellsSym_ref.mp longer)
  | maybe s ih =>
    simp only [parts, Bool.and_eq_true, Bool.not_eq_true'] at parted
    obtain ⟨⟨inner, filled⟩, others⟩ := parted
    rcases spellsSym_maybe.mp longer with void | longer
    · simp at void
    · rcases spellsSym_maybe.mp first with rfl | first
      · have early := symStarts_of_spells right longer k ls rfl
        have never := of_decide_eq_true (List.all_eq_true.mp others k early)
        exact never begun
      · exact ih inner first longer

-- Two ways to cut a sequence behind such symbols are one.
theorem same_cut [DecidableEq N] (right : g.Right G) {s t : Sym N} {as bs : List (Sym N)}
    (alike : g.alike as bs s t) {a b c d : List Kind} (same : a ++ b = c ++ d)
    (first : G.SpellsSym s a) (rest : G.SpellsAll as b) (firstOther : G.SpellsSym t c)
    (restOther : G.SpellsAll bs d) : b = d := by
  unfold Guide.alike at alike
  split at alike
  · obtain ⟨k, _, rfl⟩ := spellsSym_tok.mp first
    obtain ⟨l, _, rfl⟩ := spellsSym_tok.mp firstOther
    exact (List.cons.inj same).2
  · simp only [Bool.and_eq_true, decide_eq_true_eq] at alike
    obtain ⟨⟨rfl, left⟩, other⟩ := alike
    rcases List.append_eq_append_iff.mp same with ⟨more, rfl, rfl⟩ | ⟨more, rfl, rfl⟩
    · cases more with
      | nil => rfl
      | cons k more => exact absurd rest (parts_sound right left first firstOther)
    · cases more with
      | nil => rfl
      | cons k more => exact absurd restOther (parts_sound right other firstOther first)

theorem differ_sound (right : g.Right G) {as bs : List (Sym N)} (different : g.differ as bs)
    {ks : List Kind} (one : G.SpellsAll as ks) : ¬G.SpellsAll bs ks := by
  intro two
  simp only [differ, Bool.and_eq_true, Bool.not_eq_true'] at different
  cases ks with
  | nil =>
    rw [one.nullable right.ranked rfl, two.nullable right.ranked rfl] at different
    exact absurd different.2 (by decide)
  | cons k ks =>
    have begun := firsts_of_spells right one k ks rfl
    have never := of_decide_eq_true (List.all_eq_true.mp different.1 k begun)
    exact never (firsts_of_spells right two k ks rfl)

theorem apart_sound [DecidableEq N] (right : g.Right G) {as bs : List (Sym N)} (apart : g.apart as bs)
    {ks : List Kind} (one : G.SpellsAll as ks) : ¬G.SpellsAll bs ks := by
  induction as generalizing bs ks with
  | nil =>
    rw [Guide.apart] at apart
    · exact differ_sound right apart one
    · intro s as t bs void
      cases void
  | cons s as ih =>
    cases bs with
    | nil =>
      rw [Guide.apart] at apart
      · exact differ_sound right apart one
      · intro s as t bs _ void
        cases void
    | cons t bs =>
      rw [Guide.apart, Bool.or_eq_true] at apart
      rcases apart with different | common
      · exact differ_sound right different one
      · obtain ⟨alike, behind⟩ := Bool.and_eq_true_iff.mp common
        intro two
        obtain ⟨a, b, rfl, first, rest⟩ := spellsAll_cons.mp one
        obtain ⟨c, d, same, firstOther, restOther⟩ := spellsAll_cons.mp two
        obtain rfl := same_cut right alike same first rest firstOther restOther
        exact ih behind rest restOther

end Guide

variable (G) (text : String) in
inductive PreferredEach : (rhs : List (Sym N)) → (w : List Token) → (vs : Values G.Val rhs) → Prop where
  | nil : PreferredEach [] [] ()
  | cons {s : Sym N} {rest : List (Sym N)} {w u : List Token} {v : s.Val G.Val}
      {vs : Values G.Val rest} : G.PreferredSym text s w v → PreferredEach rest u vs →
      PreferredEach (s :: rest) (w ++ u) (v, vs)

variable {text : String} {g : Guide N}

theorem PreferredAll.each {rhs : List (Sym N)} {w : List Token} {vs : Values G.Val rhs}
    (preferred : G.PreferredAll text rhs w vs) : G.PreferredEach text rhs w vs := by
  induction rhs generalizing w with
  | nil =>
    cases preferred
    exact .nil
  | cons s rest ih =>
    cases preferred with
    | cons first others longest => exact .cons first (ih others)

-- One symbol in front, when it ends where the others begin.
theorem preferredAll_cons (right : g.Right G) {s : Sym N} {rest : List (Sym N)}
    (parted : g.parts s rest) {w u : List Token} {v : s.Val G.Val} {vs : Values G.Val rest}
    (first : G.PreferredSym text s w v) (others : G.PreferredAll text rest u vs) :
    G.PreferredAll text (s :: rest) (w ++ u) (v, vs) := by
  refine .cons first others ?_
  rintro x y rfl filled longer behind
  obtain ⟨t, x, rfl⟩ := List.exists_cons_of_ne_nil filled
  have spelled := others.derives.spells
  rw [List.cons_append, kindsOf_cons] at spelled
  rw [kindsOf_append, kindsOf_cons] at longer
  exact Guide.parts_sound right parted first.derives.spells longer spelled

theorem PreferredEach.all (right : g.Right G) {rhs : List (Sym N)} (settled : g.settled rhs)
    {w : List Token} {vs : Values G.Val rhs} (each : G.PreferredEach text rhs w vs) :
    G.PreferredAll text rhs w vs := by
  induction each with
  | nil => exact .nil
  | cons first _ ih =>
    rw [Guide.settled, Bool.and_eq_true] at settled
    exact preferredAll_cons right settled.1 first (ih settled.2)

-- A production that has nothing in common with the earlier ones.
theorem preferred_of_apart [DecidableEq N] (right : g.Right G) {n : N}
    {p : Production G.Val n} {before after : List (Production G.Val n)}
    (listed : G.productions n = before ++ p :: after)
    (apart : before.all fun q => g.apart p.rhs q.rhs) {w : List Token} {vs : Values G.Val p.rhs}
    (all : G.PreferredAll text p.rhs w vs) : G.Preferred text n w (p.build text w vs) := by
  refine .production listed ?_ all
  intro q earlier
  exact Guide.apart_sound right (List.all_eq_true.mp apart q earlier) all.derives.spells

end Deasync.Grammar
