import Deasync.Proofs.Grammar.Contract
import Deasync.Proofs.Grammar.Determinacy

namespace Deasync

open Grammar

variable {N F : Type} {G : Grammar N} {move : F → Kind → Move F}

-- The kinds of a symbol that is a token or may be one.
def Sym.toks : Sym N → List Kind
  | .tok kinds => kinds
  | .ref _ => []
  | .maybe s => s.toks

-- `old` stands for `head :: more`, where a walk is at a marked state. `inner` holds of the states
-- between `head` and `more`.
structure Change (F : Type) where
  head : Kind
  more : Option Kind
  old : List Kind
  mark : F → Bool
  inner : F → Bool

namespace Change

def new (ch : Change F) : List Kind := ch.head :: ch.more.toList

end Change

variable {ch : Change F}

-- How a sequence that is cut in two contains another one.
theorem cut_around {ls ms p q new : List Kind} (same : ls ++ ms = p ++ (new ++ q)) :
    (∃ p', p = ls ++ p' ∧ ms = p' ++ (new ++ q)) ∨
      (∃ q', ls = p ++ (new ++ q') ∧ q = q' ++ ms) ∨
      ∃ x y, new = x ++ y ∧ x ≠ [] ∧ y ≠ [] ∧ ls = p ++ x ∧ ms = y ++ q := by
  rcases List.append_eq_append_iff.mp same with ⟨p', rfl, rfl⟩ | ⟨x, rfl, rest⟩
  · exact .inl ⟨p', rfl, rfl⟩
  · rcases List.append_eq_append_iff.mp rest with ⟨q', rfl, rfl⟩ | ⟨y, rfl, rfl⟩
    · exact .inr (.inl ⟨q', rfl, rfl⟩)
    · by_cases left : x = []
      · subst left
        exact .inl ⟨[], by simp, by simp⟩
      · by_cases right : y = []
        · subst right
          exact .inr (.inl ⟨[], by simp, by simp⟩)
        · exact .inr (.inr ⟨x, y, rfl, left, right, rfl, rfl⟩)

theorem new_parts {x y : List Kind} (split : ch.new = x ++ y) (left : x ≠ []) (right : y ≠ []) :
    ch.more.isSome ∧ x = [ch.head] ∧ y = ch.more.toList := by
  obtain ⟨k, x, rfl⟩ := List.exists_cons_of_ne_nil left
  obtain ⟨rfl, rest⟩ := List.cons.inj split
  cases more : ch.more with
  | none =>
    rw [more] at rest
    exact absurd (List.append_eq_nil_iff.mp rest.symm).2 right
  | some l =>
    rw [more] at rest
    cases x with
    | nil => exact ⟨rfl, rfl, rest.symm⟩
    | cons m x =>
      have void := (List.append_eq_nil_iff.mp (List.cons.inj rest).2.symm).2
      exact absurd void right

theorem walk_prefix {place last : Place F} {ks ls : List Kind}
    (walked : walk move place (ks ++ ls) = some last) :
    ∃ next, walk move place ks = some next ∧ walk move next ls = some last := by
  rw [walk_append] at walked
  exact Option.bind_eq_some_iff.mp walked

-- One change, in kinds that are walked from a place on.
inductive Respelled (move : F → Kind → Move F) (changes : List (Change F)) (place : Place F) :
    List Kind → List Kind → Prop where
  | refl (ks : List Kind) : Respelled move changes place ks ks
  | step {ch : Change F} {p q ks : List Kind} {next : Place F} : ch ∈ changes →
      walk move place p = some next → ch.mark next.1 →
      Respelled move changes place (p ++ (ch.new ++ q)) ks →
      Respelled move changes place (p ++ (ch.old ++ q)) ks

namespace Respelled

variable {changes : List (Change F)} {place : Place F} {a b d : List Kind}

theorem trans (first : Respelled move changes place a b) (second : Respelled move changes place b d) :
    Respelled move changes place a d := by
  induction first with
  | refl => exact second
  | step listed walked marked _ ih => exact .step listed walked marked (ih second)

theorem append (row : Respelled move changes place a b) (more : List Kind) :
    Respelled move changes place (a ++ more) (b ++ more) := by
  induction row with
  | refl => exact .refl _
  | step listed walked marked _ ih =>
    simp only [List.append_assoc] at ih ⊢
    exact .step listed walked marked ih

theorem behind {front : List Kind} {next : Place F} (walked : walk move place front = some next)
    (row : Respelled move changes next a b) :
    Respelled move changes place (front ++ a) (front ++ b) := by
  induction row with
  | refl => exact .refl _
  | @step ch p q ks last listed onward marked _ ih =>
    have whole : walk move place (front ++ p) = some last := by
      rw [walk_append, walked]
      exact onward
    rw [← List.append_assoc front] at ih ⊢
    exact .step listed whole marked ih

theorem deeper (row : Respelled move changes place a b) (more : List (Kind × F)) :
    Respelled move changes (place.1, place.2 ++ more) a b := by
  induction row with
  | refl => exact .refl _
  | step listed walked marked _ ih => exact .step listed (walk_deeper walked more) marked ih

end Respelled

variable [DecidableEq F] {c : Contract N F}

namespace Change

-- The symbols of a right-hand side around one that reads the head of the new kinds.
structure Seam (G : Grammar N) (ch : Change F) (rhs : List (Sym N)) (p q : List Kind) : Prop where
  found : ∃ front s back, rhs = front ++ s :: back ∧ ch.head ∈ s.toks ∧ G.SpellsAll front p ∧
    G.SpellsAll back (ch.more.toList ++ q)

-- `resolves` is about the right-hand sides with seams.
structure Sound (G : Grammar N) (c : Contract N F) (move : F → Kind → Move F) (ch : Change F) :
    Prop where
  between : ch.more.isSome → ∀ place next, ch.mark place.1 → walkStep move place ch.head = some next →
    ch.inner next.1
  never : ch.more.isSome → ∀ n, ∀ entry ∈ c.entries n, ∀ exit ∈ c.exits n entry, ¬ch.inner exit.1
  resolves : ∀ n, ∀ rhs ∈ G.alternatives n, ∀ entry ∈ c.entries n, ∀ p q place,
    walk move entry p = some place → ch.mark place.1 → ch.Seam G rhs p q → G.Spells n (p ++ ch.old ++ q)

end Change

-- The place inside a nonterminal, when it is entered with less of the stack.
theorem entered (kept : ∀ n, c.checks move G n) {n : N} {place next : Place F} {ks ls : List Kind}
    (accepted : (place.1, place.2.take (c.depth n)) ∈ c.entries n)
    (spelled : G.Spells n (ks ++ ls)) (walked : walk move place ks = some next) :
    ∃ own, walk move (place.1, place.2.take (c.depth n)) ks = some own ∧ own.1 = next.1 := by
  obtain ⟨last, _, whole⟩ := Contract.walks kept spelled _ accepted
  obtain ⟨own, front, _⟩ := walk_prefix whole
  have deeper := walk_deeper front (place.2.drop (c.depth n))
  rw [List.take_append_drop] at deeper
  refine ⟨own, front, ?_⟩
  cases walked.symm.trans deeper
  rfl

theorem accepted_of_through {n : N} {place : Place F} {ends : List (Place F)}
    (through : c.throughSym move (.ref n) place = some ends) :
    (place.1, place.2.take (c.depth n)) ∈ c.entries n := by
  simp only [Contract.throughSym] at through
  split at through
  · assumption
  · cases through

-- No nonterminal ends between the new kinds.
theorem not_straddled (kept : ∀ n, c.checks move G n) (sound : ch.Sound G c move)
    (wide : ch.more.isSome) {n : N} {p : List Kind} {entry place : Place F}
    (accepted : entry ∈ c.entries n) (walked : walk move entry p = some place)
    (marked : ch.mark place.1) : ¬G.Spells n (p ++ [ch.head]) := by
  intro spelled
  obtain ⟨last, left, whole⟩ := Contract.walks kept spelled _ accepted
  rw [walk_append, walked, Option.bind_some, walk] at whole
  obtain ⟨next, stepped, ended⟩ := Option.bind_eq_some_iff.mp whole
  cases ended
  exact sound.never wide n _ accepted _ left (sound.between wide place _ marked stepped)

theorem seam_of_straddle (kept : ∀ n, c.checks move G n) (sound : ch.Sound G c move)
    (wide : ch.more.isSome) {s : Sym N} {p : List Kind} {entry place : Place F}
    {ends : List (Place F)} (through : c.throughSym move s entry = some ends)
    (walked : walk move entry p = some place) (marked : ch.mark place.1)
    (spelled : G.SpellsSym s (p ++ [ch.head])) : p = [] ∧ ch.head ∈ s.toks := by
  induction s generalizing ends with
  | tok kinds =>
    obtain ⟨k, fits, same⟩ := spellsSym_tok.mp spelled
    cases p with
    | nil =>
      cases same
      exact ⟨rfl, fits⟩
    | cons k p => simp at same
  | ref n =>
    have accepted := accepted_of_through through
    have inside := spellsSym_ref.mp spelled
    obtain ⟨own, front, same⟩ := entered kept accepted inside walked
    exact absurd inside (not_straddled kept sound wide accepted front (same ▸ marked))
  | maybe s ih =>
    obtain ⟨others, inner, rfl⟩ := Option.map_eq_some_iff.mp through
    rcases spellsSym_maybe.mp spelled with void | spelled
    · simp at void
    · exact ih inner spelled

mutual

theorem Grammar.Spells.respelled (kept : ∀ n, c.checks move G n) (sound : ch.Sound G c move) {n : N}
    {ks : List Kind} : G.Spells n ks → ∀ p q entry place, ks = p ++ (ch.new ++ q) →
      entry ∈ c.entries n → walk move entry p = some place → ch.mark place.1 →
      G.Spells n (p ++ ch.old ++ q)
  | .production (p := rule) listed all => by
    intro p q entry place same accepted walked marked
    have checked := List.all_eq_true.mp (List.all_eq_true.mp (kept n) _ listed) entry accepted
    obtain ⟨ends, through, _⟩ := (Option.any_eq_true _ _).mp checked
    rcases all.respelled kept sound p q entry place ends same through walked marked with spelled | seam
    · exact .production listed spelled
    · have alternative : rule.rhs ∈ G.alternatives n := List.mem_map.mpr ⟨_, listed, rfl⟩
      exact sound.resolves n _ alternative entry accepted p q place walked marked seam

theorem Grammar.SpellsSym.respelled (kept : ∀ n, c.checks move G n) (sound : ch.Sound G c move)
    {s : Sym N} {ks : List Kind} : G.SpellsSym s ks → ∀ p q entry place ends, ks = p ++ (ch.new ++ q) →
      c.throughSym move s entry = some ends → walk move entry p = some place → ch.mark place.1 →
      G.SpellsSym s (p ++ ch.old ++ q) ∨ p = [] ∧ ch.more = none ∧ q = [] ∧ ch.head ∈ s.toks
  | .tok fits => by
    intro p q entry place ends same through walked marked
    right
    cases p with
    | nil =>
      obtain ⟨rfl, rest⟩ := List.cons.inj same
      obtain ⟨none, void⟩ := List.append_eq_nil_iff.mp rest.symm
      exact ⟨rfl, Option.toList_eq_nil_iff.mp none, void, fits⟩
    | cons k p => simp [Change.new] at same
  | .ref inner => by
    intro p q entry place ends same through walked marked
    left
    have accepted := accepted_of_through through
    obtain ⟨own, front, state⟩ := entered kept accepted (same ▸ inner) walked
    exact .ref (inner.respelled kept sound p q _ own same accepted front (state ▸ marked))
  | .absent => by
    intro p q entry place ends same
    simp [Change.new] at same
  | .present inner => by
    intro p q entry place ends same through walked marked
    obtain ⟨others, inside, rfl⟩ := Option.map_eq_some_iff.mp through
    rcases inner.respelled kept sound p q entry place others same inside walked marked with
      spelled | seam
    · exact .inl (.present spelled)
    · exact .inr seam

theorem Grammar.SpellsAll.respelled (kept : ∀ n, c.checks move G n) (sound : ch.Sound G c move)
    {rhs : List (Sym N)} {ks : List Kind} : G.SpellsAll rhs ks → ∀ p q entry place ends,
      ks = p ++ (ch.new ++ q) → c.through move rhs entry = some ends →
      walk move entry p = some place → ch.mark place.1 →
      G.SpellsAll rhs (p ++ ch.old ++ q) ∨ ch.Seam G rhs p q
  | .nil => by
    intro p q entry place ends same
    simp [Change.new] at same
  | @SpellsAll.cons _ _ s rest _ _ first others => by
    intro p q entry place ends same through walked marked
    obtain ⟨middle, one, onward⟩ := Option.bind_eq_some_iff.mp through
    obtain ⟨lists, mapped, rfl⟩ := Option.map_eq_some_iff.mp onward
    have behind := others.respelled kept sound
    have here := first.respelled kept sound
    rcases cut_around same with ⟨p', rfl, rfl⟩ | ⟨q', rfl, rfl⟩ | ⟨x, y, split, left, right, rfl, rfl⟩
    · obtain ⟨next, found, stepped⟩ := Contract.walksSym kept first entry middle one
      obtain ⟨list, _, continued⟩ := Contract.mem_of_mapM mapped found
      obtain ⟨own, front, later⟩ := walk_prefix walked
      cases front.symm.trans stepped
      rcases behind p' q next place list rfl continued later marked with spelled | seam
      · left
        rw [List.append_assoc, List.append_assoc, ← List.append_assoc p']
        exact .cons first spelled
      · obtain ⟨front, t, back, rfl, listed, before, after⟩ := seam.found
        exact .inr ⟨s :: front, t, back, rfl, listed, .cons first before, after⟩
    · rcases here p q' entry place middle rfl one walked marked with spelled | ⟨rfl, none, rfl, listed⟩
      · left
        rw [← List.append_assoc]
        exact .cons spelled others
      · refine .inr ⟨[], s, rest, rfl, listed, .nil, ?_⟩
        rw [none]
        exact others
    · obtain ⟨wide, rfl, rfl⟩ := new_parts split left right
      obtain ⟨rfl, listed⟩ := seam_of_straddle kept sound wide one walked marked first
      exact .inr ⟨[], s, rest, rfl, listed, .nil, others⟩

end

def cuts : List (Sym N) → List (List (Sym N) × Sym N × List (Sym N))
  | [] => []
  | s :: rest => ([], s, rest) :: (cuts rest).map fun (front, t, back) => (s :: front, t, back)

theorem mem_cuts (front : List (Sym N)) (s : Sym N) (back : List (Sym N)) :
    (front, s, back) ∈ cuts (front ++ s :: back) := by
  induction front with
  | nil => exact .head _
  | cons t front ih => exact .tail _ (List.mem_map.mpr ⟨_, ih, rfl⟩)

-- No symbol reads the head of the new kinds at a marked state with the rest of them behind it.
def Change.unseamed (ch : Change F) (c : Contract N F) (move : F → Kind → Move F) (g : Guide N)
    (rhs : List (Sym N)) (entry : Place F) : Bool :=
  (cuts rhs).all fun (front, s, back) => ch.head ∉ s.toks ||
    ch.more.any (· ∉ g.firsts back) ||
    (c.through move front entry).any (·.all fun place => !ch.mark place.1)

theorem Change.unseamed_sound (kept : ∀ n, c.checks move G n) {g : Guide N} (right : g.Right G)
    {rhs : List (Sym N)} {entry place : Place F} (free : ch.unseamed c move g rhs entry)
    {p q : List Kind} (walked : walk move entry p = some place) (marked : ch.mark place.1) :
    ¬ch.Seam G rhs p q := by
  rintro ⟨front, s, back, rfl, listed, before, after⟩
  have checked := List.all_eq_true.mp free _ (mem_cuts front s back)
  simp only [Bool.or_eq_true, decide_eq_true_eq] at checked
  rcases checked with (absent | other) | unmarked
  · exact absent listed
  · cases more : ch.more with
    | none =>
      rw [more] at other
      cases other
    | some k =>
      rw [more] at other after
      exact of_decide_eq_true other (Guide.firsts_of_spells right after k q rfl)
  · obtain ⟨ends, through, all⟩ := (Option.any_eq_true _ _).mp unmarked
    obtain ⟨next, found, stepped⟩ := Contract.walksAll kept before entry ends through
    cases walked.symm.trans stepped
    have not := List.all_eq_true.mp all _ found
    rw [marked] at not
    cases not

namespace Respelled

variable {changes : List (Change F)} {place : Place F} {a b : List Kind}
variable (kept : ∀ n, c.checks move G n) (sound : ∀ ch ∈ changes, ch.Sound G c move)
include kept sound

theorem spells (row : Respelled move changes place a b) {n : N} (accepted : place ∈ c.entries n)
    (spelled : G.Spells n b) : G.Spells n a := by
  induction row with
  | refl => exact spelled
  | @step ch p q ks next listed walked marked _ ih =>
    rw [← List.append_assoc]
    exact (ih spelled).respelled kept (sound _ listed) p q place next rfl accepted walked marked

-- The same for a right-hand side in which no change has a seam.
theorem spellsAll {g : Guide N} (right : g.Right G) (row : Respelled move changes place a b)
    {rhs : List (Sym N)} {ends : List (Place F)} (through : c.through move rhs place = some ends)
    (free : changes.all fun ch => ch.unseamed c move g rhs place) (spelled : G.SpellsAll rhs b) :
    G.SpellsAll rhs a := by
  induction row with
  | refl => exact spelled
  | @step ch p q ks next listed walked marked _ ih =>
    rw [← List.append_assoc]
    rcases (ih spelled).respelled kept (sound _ listed) p q place next ends rfl through walked marked
      with spelled | seam
    · exact spelled
    · exact absurd seam (Change.unseamed_sound kept right (List.all_eq_true.mp free ch listed) walked
        marked)

end Respelled

variable (G) in
-- The first of two nonterminals can take more than `w`, and leave the rest to the second.
def Reaches (n m : N) (w u : List Kind) : Prop :=
  ∃ x y, u = x ++ y ∧ x ≠ [] ∧ G.Spells n (w ++ x) ∧ G.Spells m y

section

variable {changes : List (Change F)} {place next : Place F} {n m : N} {w w' u u' : List Kind}
variable (kept : ∀ n, c.checks move G n) (sound : ∀ ch ∈ changes, ch.Sound G c move)
include kept sound

theorem Reaches.first (row : Respelled move changes place w w') (accepted : place ∈ c.entries n)
    (reaches : Reaches G n m w' u) : Reaches G n m w u := by
  obtain ⟨x, y, rfl, filled, longer, rest⟩ := reaches
  exact ⟨x, y, rfl, filled, (row.append x).spells kept sound accepted longer, rest⟩

theorem Reaches.second (solid : ∀ ch ∈ changes, ch.old ≠ []) (row : Respelled move changes next u u')
    (walked : walk move place w = some next) (accepted : place ∈ c.entries n)
    (follows : ∀ exit ∈ c.exits n place, exit ∈ c.entries m)
    (reaches : Reaches G n m w u') : Reaches G n m w u := by
  induction row with
  | refl => exact reaches
  | @step ch p q ks last listed onward marked _ ih =>
    obtain ⟨x, y, same, filled, longer, rest⟩ := ih reaches
    have whole : walk move place (w ++ p) = some last := by
      rw [walk_append, walked]
      exact onward
    rcases cut_around same.symm with
      ⟨p', rfl, rfl⟩ | ⟨q', rfl, rfl⟩ | ⟨x', y', split, left, right, rfl, rfl⟩
    · obtain ⟨exit, found, stepped⟩ := Contract.walks kept longer place accepted
      rw [← List.append_assoc] at whole
      obtain ⟨own, front, later⟩ := walk_prefix whole
      cases front.symm.trans stepped
      refine ⟨x, p' ++ ch.old ++ q, by simp, filled, longer, ?_⟩
      exact rest.respelled kept (sound _ listed) p' q exit last rfl (follows _ found) later marked
    · refine ⟨p ++ (ch.old ++ q'), y, by simp, ?_, ?_, rest⟩
      · simp [solid ch listed]
      · have spelled := longer.respelled kept (sound _ listed) (w ++ p) q' place last
          (by simp) accepted whole marked
        simpa using spelled
    · obtain ⟨wide, rfl, rfl⟩ := new_parts split left right
      rw [← List.append_assoc] at longer
      exact absurd longer (not_straddled kept (sound _ listed) wide accepted whole marked)

end

end Deasync
