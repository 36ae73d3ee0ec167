import Deasync.Proofs.Grammar.Determinacy

namespace Deasync.Grammar

variable {N : Type} {G : Grammar N} {text : String}

section

variable (G) (holds : (n : N) → List Token → G.Val n → Prop)

inductive PartSym : (s : Sym N) → (w : List Token) → (v : s.Val G.Val) → Prop where
  | tok {kinds : List Kind} {t : Token} : t.kind ∈ kinds → PartSym (.tok kinds) [t] t
  | ref {n : N} {w : List Token} {v : G.Val n} : holds n w v → PartSym (.ref n) w v
  | absent {s : Sym N} : ¬G.SpellsSym s [] → PartSym (.maybe s) [] none
  | present {s : Sym N} {w : List Token} {v : s.Val G.Val} : PartSym s w v →
      PartSym (.maybe s) w (some v)

-- A right-hand side with what is known of its nonterminals.
inductive Parts : (rhs : List (Sym N)) → (w : List Token) → (vs : Values G.Val rhs) → Prop where
  | nil : Parts [] [] ()
  | cons {s : Sym N} {rest : List (Sym N)} {w u : List Token} {v : s.Val G.Val}
      {vs : Values G.Val rest} : PartSym G holds s w v → Parts rest u vs →
      (∀ x y, u = x ++ y → x ≠ [] → G.SpellsSym s (kindsOf (w ++ x)) →
        ¬G.SpellsAll rest (kindsOf y)) →
      Parts (s :: rest) (w ++ u) (v, vs)

end

variable (G text) in
-- What holds of the parts of a production that is preferred holds of what it builds.
def PassedOn (holds : (n : N) → List Token → G.Val n → Prop) : Prop :=
  ∀ {n : N} {p : Production G.Val n} {before after : List (Production G.Val n)} {w : List Token}
    {vs : Values G.Val p.rhs}, G.productions n = before ++ p :: after →
    (∀ q ∈ before, ¬G.SpellsAll q.rhs (kindsOf w)) → G.PreferredAll text p.rhs w vs →
    Parts G holds p.rhs w vs → holds n w (p.build text w vs)

mutual

theorem Preferred.induction {holds : (n : N) → List Token → G.Val n → Prop}
    (passed : PassedOn G text holds) {n : N} {w : List Token} {v : G.Val n} :
    G.Preferred text n w v → holds n w v
  | .production listed first all => passed listed first all (all.parts passed)

theorem PreferredSym.part {holds : (n : N) → List Token → G.Val n → Prop}
    (passed : PassedOn G text holds) {s : Sym N} {w : List Token} {v : s.Val G.Val} :
    G.PreferredSym text s w v → PartSym G holds s w v
  | .tok fits => .tok fits
  | .ref inner => .ref (inner.induction passed)
  | .absent void => .absent void
  | .present inner => .present (inner.part passed)

theorem PreferredAll.parts {holds : (n : N) → List Token → G.Val n → Prop}
    (passed : PassedOn G text holds) {rhs : List (Sym N)} {w : List Token} {vs : Values G.Val rhs} :
    G.PreferredAll text rhs w vs → Parts G holds rhs w vs
  | .nil => .nil
  | .cons first rest longest => .cons (first.part passed) (rest.parts passed) longest

end

mutual

theorem Preferred.of_kinds {n : N} {w : List Token} {v : G.Val n} : G.Preferred text n w v →
    ∀ (other : String) (u : List Token), kindsOf u = kindsOf w → ∃ v', G.Preferred other n u v'
  | .production listed first all => by
    intro other u same
    obtain ⟨vs, derived⟩ := all.of_kinds other u same
    exact ⟨_, .production listed (same ▸ first) derived⟩

theorem PreferredSym.of_kinds {s : Sym N} {w : List Token} {v : s.Val G.Val} :
    G.PreferredSym text s w v →
    ∀ (other : String) (u : List Token), kindsOf u = kindsOf w → ∃ v', G.PreferredSym other s u v'
  | .tok fits => by
    intro other u same
    obtain ⟨t, rfl, kind⟩ := List.map_eq_singleton_iff.mp same
    exact ⟨t, .tok (kind ▸ fits)⟩
  | .ref inner => by
    intro other u same
    obtain ⟨v, derived⟩ := inner.of_kinds other u same
    exact ⟨v, .ref derived⟩
  | .absent void => by
    intro other u same
    obtain rfl := List.map_eq_nil_iff.mp same
    exact ⟨none, .absent void⟩
  | .present inner => by
    intro other u same
    obtain ⟨v, derived⟩ := inner.of_kinds other u same
    exact ⟨some v, .present derived⟩

theorem PreferredAll.of_kinds {rhs : List (Sym N)} {w : List Token} {vs : Values G.Val rhs} :
    G.PreferredAll text rhs w vs →
    ∀ (other : String) (u : List Token), kindsOf u = kindsOf w → ∃ vs', G.PreferredAll other rhs u vs'
  | .nil => by
    intro other u same
    obtain rfl := List.map_eq_nil_iff.mp same
    exact ⟨(), .nil⟩
  | .cons first rest longest => by
    intro other u same
    rw [kindsOf_append] at same
    obtain ⟨x, y, rfl, left, right⟩ := kindsOf_split same.symm
    obtain ⟨v, one⟩ := first.of_kinds other x left.symm
    obtain ⟨vs, all⟩ := rest.of_kinds other y right.symm
    refine ⟨(v, vs), .cons one all ?_⟩
    rintro a b rfl filled longer behind
    rw [kindsOf_append] at right
    obtain ⟨c, d, rfl, own, later⟩ := kindsOf_split right.symm
    refine longest c d rfl ?_ ?_ (later ▸ behind)
    · rintro rfl
      exact filled (List.map_eq_nil_iff.mp own)
    · rw [kindsOf_append, left, ← own, ← kindsOf_append]
      exact longer

end

theorem Preferred.rule {n : N} {w : List Token} {v : G.Val n} (preferred : G.Preferred text n w v) :
    ∃ p ∈ G.productions n, ∃ vs, G.PreferredEach text p.rhs w vs ∧ v = p.build text w vs := by
  cases preferred with
  | production listed _ all => exact ⟨_, listed ▸ List.mem_append_cons_self, _, all.each, rfl⟩

theorem preferredSym_ref {n : N} {w : List Token} {v : G.Val n}
    (preferred : G.PreferredSym text (.ref n) w v) : G.Preferred text n w v := by
  cases preferred with
  | ref own => exact own

theorem preferredSym_present {s : Sym N} {w : List Token} {v : s.Val G.Val}
    (preferred : G.PreferredSym text (.maybe s) w (some v)) : G.PreferredSym text s w v := by
  cases preferred with
  | present inner => exact inner

theorem preferredEach_cons {s : Sym N} {rest : List (Sym N)} {w : List Token} {v : s.Val G.Val}
    {vs : Values G.Val rest} (each : G.PreferredEach text (s :: rest) w (v, vs)) :
    ∃ x y, w = x ++ y ∧ G.PreferredSym text s x v ∧ G.PreferredEach text rest y vs := by
  cases each with
  | cons first others => exact ⟨_, _, rfl, first, others⟩

theorem preferredEach_tok {k : Kind} {rest : List (Sym N)} {w : List Token} {t : Token}
    {vs : Values G.Val rest} (each : G.PreferredEach text (.tok [k] :: rest) w (t, vs)) :
    t.kind = k ∧ ∃ u, w = t :: u ∧ G.PreferredEach text rest u vs := by
  obtain ⟨_, u, rfl, first, others⟩ := preferredEach_cons each
  cases first with
  | tok fits => exact ⟨List.mem_singleton.mp fits, u, rfl, others⟩

theorem preferredEach_single {s : Sym N} {w : List Token} {v : s.Val G.Val}
    (each : G.PreferredEach text [s] w (v, ())) : G.PreferredSym text s w v := by
  cases each with
  | cons only none =>
    cases none
    exact (List.append_nil _).symm ▸ only

-- A symbol that is the last to read anything.
theorem preferredAll_last {s : Sym N} {rest : List (Sym N)} {w : List Token} {v : s.Val G.Val}
    {vs : Values G.Val rest} (only : G.PreferredSym text s w v)
    (others : G.PreferredAll text rest [] vs) : G.PreferredAll text (s :: rest) w (v, vs) := by
  rw [← List.append_nil w]
  refine .cons only others fun x y split filled _ _ => ?_
  exact filled (List.append_eq_nil_iff.mp split.symm).1

section

variable {holds : (n : N) → List Token → G.Val n → Prop}

-- Behind a token there is no choice of where the others begin.
theorem Parts.tok {kinds : List Kind} {rest : List (Sym N)} {t : Token} {w : List Token}
    {vs : Values G.Val rest} (fits : t.kind ∈ kinds) (others : Parts G holds rest w vs) :
    Parts G holds (.tok kinds :: rest) (t :: w) (t, vs) := by
  refine .cons (w := [t]) (.tok fits) others fun x y _ filled longer _ => ?_
  obtain ⟨k, -, only⟩ := spellsSym_tok.mp longer
  rw [kindsOf_append] at only
  exact filled (List.map_eq_nil_iff.mp (List.cons.inj only).2)

theorem Parts.single {n : N} {w : List Token} {v : G.Val n} (part : holds n w v) :
    Parts G holds [.ref n] w (v, ()) := by
  rw [← List.append_nil w]
  refine .cons (.ref part) .nil fun x y split filled _ _ => ?_
  exact filled (List.append_eq_nil_iff.mp split.symm).1

end

end Deasync.Grammar
