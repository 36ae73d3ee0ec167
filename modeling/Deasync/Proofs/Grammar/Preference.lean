import Deasync.Grammar.Symbol

namespace Deasync.Grammar

variable {N : Type} (G : Grammar N)

mutual

inductive Spells : (n : N) → (ks : List Kind) → Prop where
  | production {n : N} {p : Production G.Val n} {ks : List Kind} : p ∈ G.productions n →
      SpellsAll p.rhs ks → Spells n ks

inductive SpellsSym : (s : Sym N) → (ks : List Kind) → Prop where
  | tok {kinds : List Kind} {k : Kind} : k ∈ kinds → SpellsSym (.tok kinds) [k]
  | ref {n : N} {ks : List Kind} : Spells n ks → SpellsSym (.ref n) ks
  | absent {s : Sym N} : SpellsSym (.maybe s) []
  | present {s : Sym N} {ks : List Kind} : SpellsSym s ks → SpellsSym (.maybe s) ks

inductive SpellsAll : (rhs : List (Sym N)) → (ks : List Kind) → Prop where
  | nil : SpellsAll [] []
  | cons {s : Sym N} {rest : List (Sym N)} {ks ls : List Kind} : SpellsSym s ks →
      SpellsAll rest ls → SpellsAll (s :: rest) (ks ++ ls)

end

variable {G}

theorem spells_def {n : N} {ks : List Kind} :
    G.Spells n ks ↔ ∃ p ∈ G.productions n, G.SpellsAll p.rhs ks := by
  constructor
  · rintro ⟨listed, all⟩
    exact ⟨_, listed, all⟩
  · rintro ⟨p, listed, all⟩
    exact .production listed all

variable (G) in
-- The right-hand sides of a nonterminal.
def alternatives (n : N) : List (List (Sym N)) := (G.productions n).map Production.rhs

theorem spells_iff_alternative {n : N} {ks : List Kind} :
    G.Spells n ks ↔ ∃ rhs ∈ G.alternatives n, G.SpellsAll rhs ks := by
  rw [spells_def]
  constructor
  · rintro ⟨p, listed, all⟩
    exact ⟨p.rhs, List.mem_map.mpr ⟨p, listed, rfl⟩, all⟩
  · rintro ⟨rhs, listed, all⟩
    obtain ⟨p, present, rfl⟩ := List.mem_map.mp listed
    exact ⟨p, present, all⟩

@[simp] theorem spellsAll_nil {ks : List Kind} : G.SpellsAll [] ks ↔ ks = [] := by
  constructor
  · rintro ⟨⟩
    rfl
  · rintro rfl
    exact .nil

theorem spellsAll_cons {s : Sym N} {rest : List (Sym N)} {ks : List Kind} :
    G.SpellsAll (s :: rest) ks ↔ ∃ ls ms, ks = ls ++ ms ∧ G.SpellsSym s ls ∧ G.SpellsAll rest ms := by
  constructor
  · rintro ⟨⟩
    rename_i ls ms first all
    exact ⟨ls, ms, rfl, first, all⟩
  · rintro ⟨ls, ms, rfl, first, all⟩
    exact .cons first all

@[simp] theorem spellsSym_tok {kinds ks : List Kind} :
    G.SpellsSym (.tok kinds) ks ↔ ∃ k ∈ kinds, ks = [k] := by
  constructor
  · rintro ⟨⟩
    rename_i k fits
    exact ⟨k, fits, rfl⟩
  · rintro ⟨k, fits, rfl⟩
    exact .tok fits

@[simp] theorem spellsSym_ref {n : N} {ks : List Kind} : G.SpellsSym (.ref n) ks ↔ G.Spells n ks := by
  constructor
  · rintro ⟨⟩
    assumption
  · exact .ref

@[simp] theorem spellsSym_maybe {s : Sym N} {ks : List Kind} :
    G.SpellsSym (.maybe s) ks ↔ ks = [] ∨ G.SpellsSym s ks := by
  constructor
  · rintro ⟨⟩
    · exact .inl rfl
    · exact .inr (by assumption)
  · rintro (rfl | inner)
    · exact .absent
    · exact .present inner

theorem spellsAll_tok {k : Kind} {rest : List (Sym N)} {ks : List Kind} :
    G.SpellsAll (.tok [k] :: rest) ks ↔ ∃ ls, ks = k :: ls ∧ G.SpellsAll rest ls := by
  rw [spellsAll_cons]
  constructor
  · rintro ⟨ls, ms, rfl, first, later⟩
    obtain ⟨k', fits, rfl⟩ := spellsSym_tok.mp first
    obtain rfl := List.mem_singleton.mp fits
    exact ⟨ms, rfl, later⟩
  · rintro ⟨ls, rfl, later⟩
    exact ⟨[k], ls, rfl, .tok (List.mem_singleton_self k), later⟩

theorem SpellsAll.split {front rest : List (Sym N)} {ks : List Kind}
    (spelled : G.SpellsAll (front ++ rest) ks) :
    ∃ ls ms, ks = ls ++ ms ∧ G.SpellsAll front ls ∧ G.SpellsAll rest ms := by
  induction front generalizing ks with
  | nil => exact ⟨[], ks, rfl, .nil, spelled⟩
  | cons s front ih =>
    obtain ⟨ls, ms, rfl, first, later⟩ := spellsAll_cons.mp spelled
    obtain ⟨ls', ms', rfl, own, others⟩ := ih later
    exact ⟨ls ++ ls', ms', by rw [List.append_assoc], .cons first own, others⟩

def kindsOf (w : List Token) : List Kind := w.map Token.kind

@[simp] theorem kindsOf_nil : kindsOf [] = [] := rfl

@[simp] theorem kindsOf_cons (t : Token) (w : List Token) : kindsOf (t :: w) = t.kind :: kindsOf w :=
  rfl

@[simp] theorem kindsOf_append (w u : List Token) : kindsOf (w ++ u) = kindsOf w ++ kindsOf u :=
  List.map_append

variable {text : String}

mutual

theorem Derives.spells {n : N} {w : List Token} {v : G.Val n} :
    G.Derives text n w v → G.Spells n (kindsOf w)
  | .production listed all => .production listed all.spells

theorem DerivesSym.spells {s : Sym N} {w : List Token} {v : s.Val G.Val} :
    G.DerivesSym text s w v → G.SpellsSym s (kindsOf w)
  | .tok fits => .tok fits
  | .ref inner => .ref inner.spells
  | .absent => .absent
  | .present inner => .present inner.spells

theorem DerivesAll.spells {rhs : List (Sym N)} {w : List Token} {vs : Values G.Val rhs} :
    G.DerivesAll text rhs w vs → G.SpellsAll rhs (kindsOf w)
  | .nil => .nil
  | .cons first rest => by
    rw [kindsOf_append]
    exact .cons first.spells rest.spells

end

theorem kindsOf_split {w : List Token} {ks ls : List Kind} (split : ks ++ ls = kindsOf w) :
    ∃ x y, w = x ++ y ∧ ks = kindsOf x ∧ ls = kindsOf y := by
  obtain ⟨x, y, same, first, rest⟩ := List.map_eq_append_iff.mp split.symm
  exact ⟨x, y, same, first.symm, rest.symm⟩

theorem spells_tok {kinds : List Kind} {w : List Token}
    (spelled : G.SpellsSym (.tok kinds) (kindsOf w)) : ∃ t, w = [t] ∧ t.kind ∈ kinds := by
  obtain ⟨k, fits, same⟩ := spellsSym_tok.mp spelled
  obtain ⟨t, rfl, rfl⟩ := List.map_eq_singleton_iff.mp same
  exact ⟨t, rfl, fits⟩

theorem spellsAll_parts {s : Sym N} {rest : List (Sym N)} {w : List Token}
    (spelled : G.SpellsAll (s :: rest) (kindsOf w)) :
    ∃ x y, w = x ++ y ∧ G.SpellsSym s (kindsOf x) ∧ G.SpellsAll rest (kindsOf y) := by
  obtain ⟨ks, ls, same, first, later⟩ := spellsAll_cons.mp spelled
  obtain ⟨x, y, rfl, rfl, rfl⟩ := kindsOf_split same.symm
  exact ⟨x, y, rfl, first, later⟩

-- The same, by the first symbol of a right-hand side.
theorem spellsAll_one {k : Kind} {rest : List (Sym N)} {w : List Token}
    (spelled : G.SpellsAll (.tok [k] :: rest) (kindsOf w)) :
    ∃ t u, w = t :: u ∧ t.kind = k ∧ G.SpellsAll rest (kindsOf u) := by
  obtain ⟨x, y, rfl, first, later⟩ := spellsAll_parts spelled
  obtain ⟨t, rfl, fits⟩ := spells_tok first
  exact ⟨t, y, rfl, List.mem_singleton.mp fits, later⟩

theorem spellsAll_ref {n : N} {rest : List (Sym N)} {w : List Token}
    (spelled : G.SpellsAll (.ref n :: rest) (kindsOf w)) :
    ∃ x y, w = x ++ y ∧ G.Spells n (kindsOf x) ∧ G.SpellsAll rest (kindsOf y) := by
  obtain ⟨x, y, rfl, first, later⟩ := spellsAll_parts spelled
  exact ⟨x, y, rfl, spellsSym_ref.mp first, later⟩

theorem spellsAll_last {n : N} {w : List Token} (spelled : G.SpellsAll [.ref n] (kindsOf w)) :
    G.Spells n (kindsOf w) := by
  obtain ⟨x, y, rfl, first, later⟩ := spellsAll_ref spelled
  obtain rfl := List.map_eq_nil_iff.mp (spellsAll_nil.mp later)
  rwa [List.append_nil]

theorem spellsAll_append {front rest : List (Sym N)} {w : List Token}
    (spelled : G.SpellsAll (front ++ rest) (kindsOf w)) :
    ∃ x y, w = x ++ y ∧ G.SpellsAll front (kindsOf x) ∧ G.SpellsAll rest (kindsOf y) := by
  obtain ⟨ls, ms, same, first, later⟩ := spelled.split
  obtain ⟨x, y, rfl, rfl, rfl⟩ := kindsOf_split same.symm
  exact ⟨x, y, rfl, first, later⟩

theorem spellsAll_ref_one {n : N} {ks : List Kind} : G.SpellsAll [.ref n] ks ↔ G.Spells n ks := by
  rw [spellsAll_cons]
  constructor
  · rintro ⟨ls, ms, rfl, first, later⟩
    obtain rfl := spellsAll_nil.mp later
    rw [List.append_nil]
    exact spellsSym_ref.mp first
  · intro spelled
    exact ⟨ks, [], (List.append_nil ks).symm, .ref spelled, .nil⟩

theorem spellsAll_maybe_one {n : N} {ks : List Kind} (spelled : G.Spells n ks) :
    G.SpellsAll [.maybe (.ref n)] ks := by
  rw [← List.append_nil ks]
  exact .cons (.present (.ref spelled)) .nil

theorem SpellsAll.append {front rest : List (Sym N)} {ks ls : List Kind} (first : G.SpellsAll front ks)
    (later : G.SpellsAll rest ls) : G.SpellsAll (front ++ rest) (ks ++ ls) := by
  induction front generalizing ks with
  | nil =>
    obtain rfl := spellsAll_nil.mp first
    exact later
  | cons s front ih =>
    obtain ⟨ms, ns, rfl, own, others⟩ := spellsAll_cons.mp first
    rw [List.append_assoc, List.cons_append]
    exact .cons own (ih others)

theorem spellsAll_maybe {s : Sym N} {rest : List (Sym N)} {w : List Token}
    (spelled : G.SpellsAll (.maybe s :: rest) (kindsOf w)) :
    G.SpellsAll rest (kindsOf w) ∨
      ∃ x y, w = x ++ y ∧ G.SpellsSym s (kindsOf x) ∧ G.SpellsAll rest (kindsOf y) := by
  obtain ⟨x, y, rfl, first, later⟩ := spellsAll_parts spelled
  rcases spellsSym_maybe.mp first with empty | first
  · obtain rfl := List.map_eq_nil_iff.mp empty
    exact .inl later
  · exact .inr ⟨x, y, rfl, first, later⟩

mutual

theorem Spells.derives {n : N} {ks : List Kind} :
    G.Spells n ks → ∀ w : List Token, ks = kindsOf w → ∃ v, G.Derives text n w v
  | .production listed all => by
    intro w same
    obtain ⟨vs, derived⟩ := all.derives _ same
    exact ⟨_, .production listed derived⟩

theorem SpellsSym.derives {s : Sym N} {ks : List Kind} :
    G.SpellsSym s ks → ∀ w : List Token, ks = kindsOf w → ∃ v, G.DerivesSym text s w v
  | .tok fits => by
    intro w same
    obtain ⟨t, rfl, rfl⟩ := List.map_eq_singleton_iff.mp same.symm
    exact ⟨t, .tok fits⟩
  | .ref inner => by
    intro w same
    obtain ⟨v, derived⟩ := inner.derives _ same
    exact ⟨v, .ref derived⟩
  | .absent => by
    intro w same
    obtain rfl := List.map_eq_nil_iff.mp same.symm
    exact ⟨none, .absent⟩
  | .present inner => by
    intro w same
    obtain ⟨v, derived⟩ := inner.derives _ same
    exact ⟨some v, .present derived⟩

theorem SpellsAll.derives {rhs : List (Sym N)} {ks : List Kind} :
    G.SpellsAll rhs ks → ∀ w : List Token, ks = kindsOf w → ∃ vs, G.DerivesAll text rhs w vs
  | .nil => by
    intro w same
    obtain rfl := List.map_eq_nil_iff.mp same.symm
    exact ⟨(), .nil⟩
  | .cons first rest => by
    intro w same
    obtain ⟨x, y, rfl, left, right⟩ := kindsOf_split same
    obtain ⟨v, one⟩ := first.derives _ left
    obtain ⟨vs, all⟩ := rest.derives _ right
    exact ⟨(v, vs), .cons one all⟩

end

theorem spells_iff {n : N} {w : List Token} :
    G.Spells n (kindsOf w) ↔ ∃ v, G.Derives text n w v :=
  ⟨fun spelled => spelled.derives _ rfl, fun ⟨_, derived⟩ => derived.spells⟩

theorem derives_def {n : N} {w : List Token} {v : G.Val n} : G.Derives text n w v ↔
    ∃ p ∈ G.productions n, ∃ vs, G.DerivesAll text p.rhs w vs ∧ p.build text w vs = v := by
  constructor
  · rintro ⟨listed, all⟩
    exact ⟨_, listed, _, all, rfl⟩
  · rintro ⟨p, listed, vs, all, rfl⟩
    exact .production listed all

theorem derivesAll_cons {s : Sym N} {rest : List (Sym N)} {w : List Token}
    {vs : Values G.Val (s :: rest)} (derived : G.DerivesAll text (s :: rest) w vs) :
    ∃ x y, w = x ++ y ∧ G.DerivesSym text s x vs.1 ∧ G.DerivesAll text rest y vs.2 := by
  cases derived with
  | cons first all => exact ⟨_, _, rfl, first, all⟩

theorem derivesAll_nil {w : List Token} {vs : Values G.Val []}
    (derived : G.DerivesAll text [] w vs) : w = [] := by
  cases derived
  rfl

-- The value of the nonterminal that a right-hand side ends with.
def lastValue {n : N} : (front : List (Sym N)) → Values G.Val (front ++ [.ref n]) → G.Val n
  | [], vs => vs.1
  | _ :: front, vs => lastValue front vs.2

theorem derivesAll_last {n : N} {f : List (Sym N)} {w : List Token}
    {vs : Values G.Val (f ++ [.ref n])} (derived : G.DerivesAll text (f ++ [.ref n]) w vs) :
    ∃ x y, w = x ++ y ∧ G.SpellsAll f (kindsOf x) ∧ G.Derives text n y (lastValue f vs) := by
  induction f generalizing w with
  | nil =>
    obtain ⟨x, y, rfl, first, rest⟩ := derivesAll_cons derived
    obtain rfl := derivesAll_nil rest
    refine ⟨[], x, List.append_nil x, .nil, ?_⟩
    cases first
    assumption
  | cons s f ih =>
    obtain ⟨x, u, rfl, first, rest⟩ := derivesAll_cons derived
    obtain ⟨y, z, rfl, own, last⟩ := ih rest
    refine ⟨x ++ y, z, by rw [List.append_assoc], ?_, last⟩
    rw [kindsOf_append]
    exact .cons first.spells own

theorem derivesSym_tok {kinds : List Kind} {w : List Token} {t : Token}
    (derived : G.DerivesSym text (.tok kinds) w t) : w = [t] ∧ t.kind ∈ kinds := by
  cases derived with
  | tok fits => exact ⟨rfl, fits⟩

theorem derivesSym_ref {n : N} {w : List Token} {v : G.Val n}
    (derived : G.DerivesSym text (.ref n) w v) : G.Derives text n w v := by
  cases derived
  assumption

theorem derivesSym_maybe {s : Sym N} {w : List Token} {v : Option (s.Val G.Val)}
    (derived : G.DerivesSym text (.maybe s) w v) :
    w = [] ∧ v = none ∨ ∃ u, v = some u ∧ G.DerivesSym text s w u := by
  cases derived with
  | absent => exact .inl ⟨rfl, rfl⟩
  | present inner => exact .inr ⟨_, rfl, inner⟩

variable (G) (text)

mutual

-- The value that the preferred derivation gives.
inductive Preferred : (n : N) → (w : List Token) → (v : G.Val n) → Prop where
  | production {n : N} {p : Production G.Val n} {before after : List (Production G.Val n)}
      {w : List Token} {vs : Values G.Val p.rhs} : G.productions n = before ++ p :: after →
      (∀ q ∈ before, ¬G.SpellsAll q.rhs (kindsOf w)) → PreferredAll p.rhs w vs →
      Preferred n w (p.build text w vs)

inductive PreferredSym : (s : Sym N) → (w : List Token) → (v : s.Val G.Val) → Prop where
  | tok {kinds : List Kind} {t : Token} : t.kind ∈ kinds → PreferredSym (.tok kinds) [t] t
  | ref {n : N} {w : List Token} {v : G.Val n} : Preferred n w v → PreferredSym (.ref n) w v
  | absent {s : Sym N} : ¬G.SpellsSym s [] → PreferredSym (.maybe s) [] none
  | present {s : Sym N} {w : List Token} {v : s.Val G.Val} :
      PreferredSym s w v → PreferredSym (.maybe s) w (some v)

inductive PreferredAll :
    (rhs : List (Sym N)) → (w : List Token) → (vs : Values G.Val rhs) → Prop where
  | nil : PreferredAll [] [] ()
  | cons {s : Sym N} {rest : List (Sym N)} {w u : List Token} {v : s.Val G.Val}
      {vs : Values G.Val rest} : PreferredSym s w v → PreferredAll rest u vs →
      (∀ x y, u = x ++ y → x ≠ [] → G.SpellsSym s (kindsOf (w ++ x)) →
        ¬G.SpellsAll rest (kindsOf y)) →
      PreferredAll (s :: rest) (w ++ u) (v, vs)

end

variable {G} {text}

mutual

theorem Preferred.derives {n : N} {w : List Token} {v : G.Val n} :
    G.Preferred text n w v → G.Derives text n w v
  | .production listed _ all => .production (by rw [listed]; simp) all.derives

theorem PreferredSym.derives {s : Sym N} {w : List Token} {v : s.Val G.Val} :
    G.PreferredSym text s w v → G.DerivesSym text s w v
  | .tok fits => .tok fits
  | .ref inner => .ref inner.derives
  | .absent _ => .absent
  | .present inner => .present inner.derives

theorem PreferredAll.derives {rhs : List (Sym N)} {w : List Token} {vs : Values G.Val rhs} :
    G.PreferredAll text rhs w vs → G.DerivesAll text rhs w vs
  | .nil => .nil
  | .cons first rest _ => .cons first.derives rest.derives

end

-- The first productions of a list that spell something are the same.
theorem first_unique {n : N} {ks : List Kind} {p q : Production G.Val n}
    {before after earlier later : List (Production G.Val n)}
    (same : before ++ p :: after = earlier ++ q :: later)
    (none : ∀ r ∈ before, ¬G.SpellsAll r.rhs ks) (spelled : G.SpellsAll p.rhs ks)
    (noneEarlier : ∀ r ∈ earlier, ¬G.SpellsAll r.rhs ks) (spelledLater : G.SpellsAll q.rhs ks) :
    p = q := by
  rcases List.append_eq_append_iff.mp same with ⟨more, split, rest⟩ | ⟨more, split, rest⟩
  · cases more with
    | nil => exact (List.cons.inj rest).1
    | cons r more =>
      have listed : p ∈ earlier := by rw [split, (List.cons.inj rest).1]; simp
      exact absurd spelled (noneEarlier p listed)
  · cases more with
    | nil => exact (List.cons.inj rest).1.symm
    | cons r more =>
      have listed : q ∈ before := by rw [split, (List.cons.inj rest).1]; simp
      exact absurd spelledLater (none q listed)

-- Of two ways to split a sequence neither is longer when both are preferred.
theorem split_unique {s : Sym N} {rest : List (Sym N)} {w u x y : List Token}
    (same : w ++ u = x ++ y) (first : G.SpellsSym s (kindsOf w)) (all : G.SpellsAll rest (kindsOf u))
    (firstOther : G.SpellsSym s (kindsOf x)) (allOther : G.SpellsAll rest (kindsOf y))
    (longest : ∀ a b, u = a ++ b → a ≠ [] → G.SpellsSym s (kindsOf (w ++ a)) →
      ¬G.SpellsAll rest (kindsOf b))
    (longestOther : ∀ a b, y = a ++ b → a ≠ [] → G.SpellsSym s (kindsOf (x ++ a)) →
      ¬G.SpellsAll rest (kindsOf b)) : w = x ∧ u = y := by
  rcases List.append_eq_append_iff.mp same with ⟨more, rfl, rfl⟩ | ⟨more, rfl, rfl⟩
  · by_cases empty : more = []
    · simp [empty]
    · exact absurd allOther (longest more y rfl empty firstOther)
  · by_cases empty : more = []
    · simp [empty]
    · exact absurd all (longestOther more u rfl empty first)

mutual

theorem Preferred.unique {n : N} {w : List Token} {v : G.Val n} :
    G.Preferred text n w v → ∀ v' : G.Val n, G.Preferred text n w v' → v = v'
  | .production listed first all => by
    intro v' other
    cases other with
    | production listed' first' all' =>
      obtain rfl := first_unique (listed.symm.trans listed') first all.derives.spells first'
        all'.derives.spells
      rw [all.unique _ all']

theorem PreferredSym.unique {s : Sym N} {w : List Token} {v : s.Val G.Val} :
    G.PreferredSym text s w v → ∀ v' : s.Val G.Val, G.PreferredSym text s w v' → v = v'
  | .tok _ => by
    intro v' other
    cases other
    rfl
  | .ref inner => by
    intro v' other
    cases other with
    | ref inner' => exact inner.unique _ inner'
  | .absent empty => by
    intro v' other
    cases other with
    | absent _ => rfl
    | present inner => exact absurd inner.derives.spells empty
  | .present inner => by
    intro v' other
    cases other with
    | absent empty => exact absurd inner.derives.spells empty
    | present inner' => rw [inner.unique _ inner']

theorem PreferredAll.unique {rhs : List (Sym N)} {w : List Token} {vs : Values G.Val rhs} :
    G.PreferredAll text rhs w vs → ∀ vs' : Values G.Val rhs, G.PreferredAll text rhs w vs' →
      vs = vs'
  | .nil => by
    intro vs' other
    cases other
    rfl
  | .cons (w := w) (u := u) first rest longest => by
    intro vs' other
    generalize whole : w ++ u = z at other
    cases other with
    | cons first' rest' longest' =>
      obtain ⟨rfl, rfl⟩ := split_unique whole first.derives.spells rest.derives.spells
        first'.derives.spells rest'.derives.spells longest longest'
      rw [first.unique _ first', rest.unique _ rest']

end

end Deasync.Grammar
