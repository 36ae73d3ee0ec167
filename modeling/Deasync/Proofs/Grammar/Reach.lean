import Deasync.Proofs.Grammar.Charting

namespace Deasync.Grammar

variable {N : Type} {G : Grammar N} {text : String}

-- Some kinds that begin something which is spelled.
def Begins (spells : List Kind → Prop) (ks : List Kind) : Prop := ∃ more, spells (ks ++ more)

theorem Begins.of_spells {spells : List Kind → Prop} {ks : List Kind} (spelled : spells ks) :
    Begins spells ks :=
  ⟨[], by rwa [List.append_nil]⟩

theorem Begins.mono {spells others : List Kind → Prop} {ks : List Kind}
    (le : ∀ ls, spells ls → others ls) (begins : Begins spells ks) : Begins others ks := by
  obtain ⟨more, spelled⟩ := begins
  exact ⟨more, le _ spelled⟩

-- A beginning of a sequence is one of its first symbol, or goes on behind it.
theorem begins_cons {s : Sym N} {rest : List (Sym N)} {w : List Token}
    (begins : Begins (G.SpellsAll (s :: rest)) (kindsOf w)) :
    Begins (G.SpellsSym s) (kindsOf w) ∨ ∃ x y, w = x ++ y ∧ G.SpellsSym s (kindsOf x) ∧
      Begins (G.SpellsAll rest) (kindsOf y) := by
  obtain ⟨more, spelled⟩ := begins
  obtain ⟨first, later, split, own, others⟩ := spellsAll_cons.mp spelled
  rcases List.append_eq_append_iff.mp split with ⟨ls, rfl, rfl⟩ | ⟨ls, same, rfl⟩
  · exact .inl ⟨ls, own⟩
  · obtain ⟨x, y, rfl, rfl, rfl⟩ := List.map_eq_append_iff.mp same
    exact .inr ⟨x, y, rfl, own, more, others⟩

-- Every list of kinds in a symbol has one.
def solid : Sym N → Bool
  | .tok kinds => !kinds.isEmpty
  | .ref _ => true
  | .maybe s => solid s

-- What a symbol stands for is made below `n`.
def grounds (depth : N → Nat) (n : N) : Sym N → Bool
  | .ref m => depth m < depth n
  | _ => true

variable (G) in
-- Every nonterminal has a production that goes down in `depth`, so that all stand for something.
structure Grounded (depth : N → Nat) : Prop where
  descends : ∀ n, (G.productions n).any fun p => p.rhs.all (grounds depth n)
  solid : ∀ n, (G.productions n).all fun p => p.rhs.all solid

theorem exists_spellsSym {s : Sym N} (own : solid s)
    (refs : ∀ m, s = .ref m → ∃ ks, G.Spells m ks) : ∃ ks, G.SpellsSym s ks := by
  cases s with
  | tok kinds =>
    obtain ⟨k, rest, rfl⟩ := List.exists_cons_of_ne_nil (l := kinds) (by simpa [solid] using own)
    exact ⟨[k], .tok (.head _)⟩
  | ref m =>
    obtain ⟨ks, spelled⟩ := refs m rfl
    exact ⟨ks, .ref spelled⟩
  | maybe s => exact ⟨[], .absent⟩

theorem exists_spellsAll (rhs : List (Sym N)) (own : ∀ s ∈ rhs, ∃ ks, G.SpellsSym s ks) :
    ∃ ks, G.SpellsAll rhs ks := by
  induction rhs with
  | nil => exact ⟨[], .nil⟩
  | cons s rest ih =>
    obtain ⟨ks, first⟩ := own s (.head _)
    obtain ⟨ls, others⟩ := ih fun s listed => own s (.tail _ listed)
    exact ⟨ks ++ ls, .cons first others⟩

variable {depth : N → Nat}

theorem Grounded.exists_spells (grounded : G.Grounded depth) (n : N) : ∃ ks, G.Spells n ks := by
  induction least : depth n using Nat.strongRecOn generalizing n with
  | ind most ih =>
    subst least
    obtain ⟨p, listed, lower⟩ := List.any_eq_true.mp (grounded.descends n)
    have filled := List.all_eq_true.mp (grounded.solid n) p listed
    obtain ⟨ks, spelled⟩ := exists_spellsAll (G := G) p.rhs fun s inside => by
      refine exists_spellsSym (List.all_eq_true.mp filled s inside) fun m same => ?_
      subst same
      exact ih _ (of_decide_eq_true (List.all_eq_true.mp lower _ inside)) m rfl
    exact ⟨ks, .production listed spelled⟩

-- The reach of some readings at `ts` is where the longest beginning in `ts` ends.
structure Reaches {α : Type} (r : Reads α) (ts : List Token) (spells : List Kind → Prop) : Prop where
  viable : ∃ w u, ts = w ++ u ∧ u.length = r.reach ∧ Begins spells (kindsOf w)
  furthest : ∀ {w u : List Token}, ts = w ++ u → Begins spells (kindsOf w) → r.reach ≤ u.length

theorem Reaches.map {α β : Type} {r : Reads α} {ts : List Token} {spells : List Kind → Prop}
    (reaches : Reaches r ts spells) (f : Nat → α → β) : Reaches (r.map f) ts spells :=
  ⟨reaches.viable, reaches.furthest⟩

-- At some tokens, something begins with none of them.
theorem Reaches.nothing {α : Type} {ts : List Token} {spells : List Kind → Prop}
    (some : ∃ ks, spells ks)
    (bare : ∀ w u, ts = w ++ u → Begins spells (kindsOf w) → w = []) :
    Reaches (.none ts.length : Reads α) ts spells where
  viable := ⟨[], ts, rfl, rfl, some⟩
  furthest := by
    intro w u split begins
    obtain rfl := bare w u split begins
    exact Nat.le_of_eq (congrArg List.length split)

theorem Reaches.done {α : Type} {ts : List Token} {spells : List Kind → Prop} (a : α)
    (void : spells []) (only : ∀ ks, spells ks → ks = []) :
    Reaches ⟨[(ts.length, a)], ts.length⟩ ts spells where
  viable := ⟨[], ts, rfl, rfl, .of_spells void⟩
  furthest := by
    rintro w u split ⟨more, spelled⟩
    obtain ⟨none, _⟩ := List.append_eq_nil_iff.mp (only _ spelled)
    rw [split, List.map_eq_nil_iff.mp none]
    exact Nat.le_refl _

theorem Reaches.append {α : Type} {a b : Reads α} {ts : List Token}
    {spells others all : List Kind → Prop} (first : Reaches a ts spells) (second : Reaches b ts others)
    (left : ∀ ks, spells ks → all ks) (right : ∀ ks, others ks → all ks)
    (either : ∀ ks, all ks → spells ks ∨ others ks) : Reaches (a.append b) ts all where
  viable := by
    rcases Nat.le_total a.reach b.reach with less | less
    · obtain ⟨w, u, split, length, begins⟩ := first.viable
      exact ⟨w, u, split, length.trans (Nat.min_eq_left less).symm, begins.mono left⟩
    · obtain ⟨w, u, split, length, begins⟩ := second.viable
      exact ⟨w, u, split, length.trans (Nat.min_eq_right less).symm, begins.mono right⟩
  furthest := by
    intro w u split begins
    obtain ⟨more, spelled⟩ := begins
    rcases either _ spelled with own | own
    · exact Nat.le_trans (Nat.min_le_left _ _) (first.furthest split ⟨more, own⟩)
    · exact Nat.le_trans (Nat.min_le_right _ _) (second.furthest split ⟨more, own⟩)

theorem andThen_reach {α β : Type} (r : Reads α) (f : Nat → α → Reads β) :
    (r.andThen f).reach ≤ r.reach ∧ (∀ pair ∈ r.readings, (r.andThen f).reach ≤ (f pair.1 pair.2).reach) ∧
      ((r.andThen f).reach = r.reach ∨
        ∃ pair ∈ r.readings, (r.andThen f).reach = (f pair.1 pair.2).reach) := by
  unfold Reads.andThen
  generalize r.reach = least
  induction r.readings with
  | nil => exact ⟨Nat.le_refl _, fun _ listed => (by cases listed), .inl rfl⟩
  | cons pair rest ih =>
    obtain ⟨below, each, attained⟩ := ih
    rw [List.foldr_cons]
    refine ⟨Nat.le_trans (Nat.min_le_right _ _) below, ?_, ?_⟩
    · refine List.forall_mem_cons.mpr ⟨Nat.min_le_left _ _, fun other listed => ?_⟩
      exact Nat.le_trans (Nat.min_le_right _ _) (each other listed)
    · rcases Nat.le_total (f pair.1 pair.2).reach
        (rest.foldr (fun (left, a) later => (f left a).append later) ⟨[], least⟩).reach with less | less
      · exact .inr ⟨pair, .head _, Nat.min_eq_left less⟩
      · rcases attained with same | ⟨other, listed, same⟩
        · exact .inl ((Nat.min_eq_right less).trans same)
        · exact .inr ⟨other, .tail _ listed, (Nat.min_eq_right less).trans same⟩

variable (G text) in
-- A cell with the readings of its nonterminal, and with its reach.
def CellReaches (ts : List Token) (n : N) (c : G.Cell n) : Prop :=
  G.CellFits text ts n c ∧ Reaches c ts (G.Spells n)

theorem Sees.fits {view : View G} {ts : List Token} {known : N → Prop}
    (sees : Sees (G.CellReaches text) view ts known) : Sees (G.CellFits text) view ts known :=
  ⟨sees.next, fun w u n split own => (sees.cell w u n split own).1⟩

variable {view : View G} {ts : List Token} {known : N → Prop} {empty : N → Bool}

theorem symbol_reaches (all : ∀ n, ∃ ks, G.Spells n ks)
    (sees : Sees (G.CellReaches text) view ts known) {w u : List Token} (split : ts = w ++ u)
    (s : Sym N) (own : solid s) (leads : w = [] → ∀ n, s.nonterminal? = some n → known n) :
    Reaches (view.symbol u.length s) u (G.SpellsSym s) := by
  induction s with
  | tok kinds =>
    have some := exists_spellsSym own fun m _ => all m
    have next := sees.next w u split
    cases u with
    | nil =>
      simp only [View.symbol, next, List.head?_nil]
      exact .nothing some fun x y same _ => (List.append_eq_nil_iff.mp same.symm).1
    | cons t u =>
      simp only [View.symbol, next, List.head?_cons]
      have short {x y : List Token} (same : t :: u = x ++ y)
          (begins : Begins (G.SpellsSym (.tok kinds)) (kindsOf x)) :
          x = [] ∨ x = [t] ∧ t.kind ∈ kinds := by
        obtain ⟨more, spelled⟩ := begins
        obtain ⟨k, fits, one⟩ := spellsSym_tok.mp spelled
        cases x with
        | nil => exact .inl rfl
        | cons head x =>
          obtain ⟨rfl, _⟩ := List.cons.inj same
          rw [kindsOf_cons, List.cons_append, List.cons.injEq, List.append_eq_nil_iff] at one
          obtain ⟨rfl, none, _⟩ := one
          exact .inr ⟨by rw [List.map_eq_nil_iff.mp none], fits⟩
      split
      · rename_i fits
        refine ⟨⟨[t], u, rfl, rfl, .of_spells (.tok fits)⟩, fun {x y} same begins => ?_⟩
        rcases short same begins with rfl | ⟨rfl, _⟩
        · rw [← List.nil_append y, ← same]
          exact Nat.sub_le _ _
        · obtain ⟨_, rfl⟩ := List.cons.inj same
          exact Nat.le_refl _
      · rename_i other
        exact .nothing some fun x y same begins => (short same begins).resolve_right fun own =>
          other own.2
  | ref n =>
    obtain ⟨viable, furthest⟩ := (sees.cell w u n split fun void => leads void n rfl).2
    refine ⟨?_, fun same begins => furthest same (begins.mono fun _ => spellsSym_ref.mp)⟩
    obtain ⟨x, y, same, length, begins⟩ := viable
    exact ⟨x, y, same, length, begins.mono fun _ => SpellsSym.ref⟩
  | maybe s ih =>
    have absent : Reaches ⟨[(u.length, (none : Option (s.Val G.Val)))], u.length⟩ u (· = []) :=
      .done none rfl fun _ => id
    refine ((ih own leads).map _).append absent (fun _ => SpellsSym.present) ?_ fun ks spelled => ?_
    · rintro _ rfl
      exact .absent
    · exact (spellsSym_maybe.mp spelled).symm

theorem sequence_reaches (ranked : G.Ranked empty) (all : ∀ n, ∃ ks, G.Spells n ks)
    (sees : Sees (G.CellReaches text) view ts known) (rhs : List (Sym N)) (own : rhs.all solid)
    {w u : List Token} (split : ts = w ++ u) (begins : w = [] → ∀ n ∈ leads empty rhs, known n) :
    Reaches (view.sequence rhs u.length) u (G.SpellsAll rhs) := by
  induction rhs generalizing w u with
  | nil =>
    exact .done () .nil fun _ => spellsAll_nil.mp
  | cons s rest ih =>
    rw [List.all_cons, Bool.and_eq_true] at own
    have leading : w = [] → ∀ n, s.nonterminal? = some n → known n := by
      intro void n found
      exact begins void n (by simp [leads, found])
    have first := symbol_reaches all sees split s own.1 leading
    obtain ⟨fits, _⟩ := symbol_fits sees.fits split s leading
    have later {x y : List Token} (same : u = x ++ y) (spelled : G.SpellsSym s (kindsOf x)) :
        Reaches (view.sequence rest y.length) y (G.SpellsAll rest) := by
      refine ih own.2 (w := w ++ x) (by rw [split, same, List.append_assoc]) fun void n listed => ?_
      obtain ⟨rfl, rfl⟩ := List.append_eq_nil_iff.mp void
      refine begins rfl n ?_
      rw [leads, if_pos (spelled.nullable ranked rfl)]
      exact List.mem_append_right _ listed
    obtain ⟨below, each, attained⟩ := andThen_reach (view.symbol u.length s) fun left v =>
      (view.sequence rest left).map fun _ vs => (v, vs)
    constructor
    · rcases attained with same | ⟨⟨left, v⟩, listed, same⟩
      · obtain ⟨x, y, whole, length, more, spelled⟩ := first.viable
        obtain ⟨ls, others⟩ := exists_spellsAll (G := G) rest fun s inside =>
          exists_spellsSym (List.all_eq_true.mp own.2 s inside) fun m _ => all m
        refine ⟨x, y, whole, length.trans same.symm, more ++ ls, ?_⟩
        rw [← List.append_assoc]
        exact .cons spelled others
      · obtain ⟨v', found⟩ := exists_firstAt listed
        obtain ⟨x, y, rfl, rfl, preferred⟩ := fits.sound found
        have spelled := preferred.derives.spells
        obtain ⟨p, q, rfl, length, more, others⟩ := (later rfl spelled).viable
        refine ⟨x ++ p, q, by rw [List.append_assoc], length.trans same.symm, more, ?_⟩
        rw [kindsOf_append, List.append_assoc]
        exact .cons spelled others
    · intro x y whole started
      rcases begins_cons started with own | ⟨p, q, rfl, spelled, others⟩
      · exact Nat.le_trans below (first.furthest whole own)
      · rw [List.append_assoc] at whole
        obtain ⟨v, found⟩ := fits.complete whole spelled
        exact Nat.le_trans (each _ (mem_of_firstAt found)) ((later whole spelled).furthest rfl others)

-- Some productions together reach as far as the one that reaches furthest.
theorem productions_reach (view : View G) (left : Nat) {n : N} (ps : List (Production G.Val n)) :
    let r := ps.foldr (fun p others => (Production.reads p text left ts view).append others)
      (.none left)
    (r.reach = left ∨ ∃ p ∈ ps, r.reach = (Production.reads p text left ts view).reach) ∧
      r.reach ≤ left ∧ ∀ p ∈ ps, r.reach ≤ (Production.reads p text left ts view).reach := by
  induction ps with
  | nil => exact ⟨.inl rfl, Nat.le_refl _, fun _ listed => by cases listed⟩
  | cons p ps ih =>
    obtain ⟨attained, below, each⟩ := ih
    rw [List.foldr_cons]
    refine ⟨?_, Nat.le_trans (Nat.min_le_right _ _) below,
      List.forall_mem_cons.mpr ⟨Nat.min_le_left _ _, fun q listed =>
        Nat.le_trans (Nat.min_le_right _ _) (each q listed)⟩⟩
    rcases Nat.le_total (Production.reads p text left ts view).reach
      (ps.foldr (fun p others => (Production.reads p text left ts view).append others)
        (.none left)).reach with less | less
    · exact .inr ⟨p, .head _, Nat.min_eq_left less⟩
    · rcases attained with same | ⟨q, listed, same⟩
      · exact .inl ((Nat.min_eq_right less).trans same)
      · exact .inr ⟨q, .tail _ listed, (Nat.min_eq_right less).trans same⟩

theorem cellOf_reaches (ranked : G.Ranked empty) (grounded : G.Grounded depth) :
    G.Kept text (G.CellReaches text) := by
  intro later ts n lower sees
  have all := grounded.exists_spells
  have production {p : Production G.Val n} (listed : p ∈ G.productions n) :
      Reaches (Production.reads p text ts.length ts (viewFrom ts.length ts.head? later n lower)) ts
        (G.SpellsAll p.rhs) :=
    (sequence_reaches ranked all sees p.rhs (List.all_eq_true.mp (grounded.solid n) p listed)
      (List.nil_append ts).symm fun _ => ranked.descends n p listed).map _
  obtain ⟨attained, _, each⟩ :=
    productions_reach (viewFrom ts.length ts.head? later n lower) ts.length (G.productions n)
  refine ⟨cellOf_fits ranked sees.fits, ?_, fun {w u} split begins => ?_⟩
  · rcases attained with same | ⟨p, listed, same⟩
    · exact ⟨[], ts, rfl, same.symm, all n⟩
    · obtain ⟨w, u, split, length, begins⟩ := (production listed).viable
      exact ⟨w, u, split, length.trans same.symm, begins.mono fun _ => .production listed⟩
  · obtain ⟨more, spelled⟩ := begins
    obtain ⟨p, listed, own⟩ := spells_def.mp spelled
    exact Nat.le_trans (each p listed) ((production listed).furthest split ⟨more, own⟩)

-- When the reader fails, what is in front of the tokens left is viable and, if there is one more, no
-- longer with it.
theorem read_eq_error (ranked : G.Ranked empty) (grounded : G.Grounded depth) {start : N}
    {tokens : List Token} {left : Nat} (failed : G.read start text tokens = .error left) :
    Reaches (α := G.Val start) ⟨[], left⟩ tokens (G.Spells start) := by
  have kept : G.Kept text (G.CellReaches text) := cellOf_reaches ranked grounded
  have reaches := (readings_keep kept start tokens).2
  simp only [Grammar.read] at failed
  split at failed
  · cases failed
  · cases failed
    exact ⟨reaches.viable, reaches.furthest⟩

end Deasync.Grammar
