import Deasync.Grammar.Chart
import Deasync.Proofs.Grammar.Preference

namespace Deasync

section

variable {α β : Type}

-- The value of the first reading that leaves so many tokens.
def firstAt (left : Nat) (readings : List (Nat × α)) : Option α :=
  (readings.find? fun (l, _) => l = left).map Prod.snd

@[simp] theorem firstAt_nil (left : Nat) : firstAt left ([] : List (Nat × α)) = none := rfl

theorem firstAt_cons (left l : Nat) (a : α) (rest : List (Nat × α)) :
    firstAt left ((l, a) :: rest) = if l = left then some a else firstAt left rest := by
  by_cases same : l = left <;> simp [firstAt, same]

theorem firstAt_append (left : Nat) (x y : List (Nat × α)) :
    firstAt left (x ++ y) = (firstAt left x).or (firstAt left y) := by
  induction x with
  | nil => rfl
  | cons pair x ih =>
    obtain ⟨l, a⟩ := pair
    rw [List.cons_append, firstAt_cons, firstAt_cons, ih]
    split <;> rfl

theorem firstAt_map (left : Nat) (f : Nat → α → β) (x : List (Nat × α)) :
    firstAt left (x.map fun (l, a) => (l, f l a)) = (firstAt left x).map (f left) := by
  induction x with
  | nil => rfl
  | cons pair x ih =>
    obtain ⟨l, a⟩ := pair
    rw [List.map_cons, firstAt_cons, firstAt_cons, ih]
    split
    · rename_i same
      rw [same]
      rfl
    · rfl

theorem exists_firstAt {left : Nat} {a : α} {x : List (Nat × α)} (listed : (left, a) ∈ x) :
    ∃ b, firstAt left x = some b := by
  induction x with
  | nil => cases listed
  | cons pair x ih =>
    obtain ⟨l, c⟩ := pair
    rw [firstAt_cons]
    split
    · exact ⟨c, rfl⟩
    · rename_i other
      rcases List.mem_cons.mp listed with same | listed
      · cases same
        exact absurd rfl other
      · exact ih listed

theorem mem_of_firstAt {left : Nat} {a : α} {x : List (Nat × α)} (found : firstAt left x = some a) :
    (left, a) ∈ x := by
  induction x with
  | nil => cases found
  | cons pair x ih =>
    obtain ⟨l, c⟩ := pair
    rw [firstAt_cons] at found
    split at found
    · rename_i same
      cases found
      rw [same]
      exact .head _
    · exact .tail _ (ih found)

theorem firstAt_eq_none {left : Nat} {x : List (Nat × α)} (other : ∀ pair ∈ x, pair.1 ≠ left) :
    firstAt left x = none := by
  cases found : firstAt left x with
  | none => rfl
  | some a => exact absurd rfl (other _ (mem_of_firstAt found))

def Ascending (readings : List (Nat × α)) : Prop := readings.Pairwise fun a b => a.1 < b.1

theorem mem_insert {left : Nat} {a : α} {x : List (Nat × α)} {pair : Nat × α}
    (listed : pair ∈ Reads.insert left a x) : pair.1 = left ∨ pair ∈ x := by
  induction x with
  | nil => simp_all [Reads.insert]
  | cons head x ih =>
    obtain ⟨l, b⟩ := head
    unfold Reads.insert at listed
    split at listed
    · rcases List.mem_cons.mp listed with rfl | listed
      · exact .inl rfl
      · exact .inr listed
    · split at listed
      · exact .inr listed
      · rcases List.mem_cons.mp listed with rfl | listed
        · exact .inr (.head _)
        · exact (ih listed).imp_right fun later => .tail _ later

theorem ascending_insert {x : List (Nat × α)} (ascending : Ascending x) (left : Nat) (a : α) :
    Ascending (Reads.insert left a x) := by
  induction x with
  | nil => exact List.pairwise_singleton _ _
  | cons head x ih =>
    obtain ⟨l, b⟩ := head
    obtain ⟨above, rest⟩ := List.pairwise_cons.mp ascending
    unfold Reads.insert
    split
    · rename_i less
      refine List.pairwise_cons.mpr ⟨fun pair listed => ?_, ascending⟩
      rcases List.mem_cons.mp listed with rfl | listed
      · exact less
      · exact Nat.lt_trans less (above pair listed)
    · split
      · exact ascending
      · rename_i least other
        refine List.pairwise_cons.mpr ⟨fun pair listed => ?_, ih rest⟩
        rcases mem_insert listed with same | listed
        · change l < pair.1
          omega
        · exact above pair listed

theorem firstAt_insert {x : List (Nat × α)} (ascending : Ascending x) (left l : Nat) (a : α) :
    firstAt l (Reads.insert left a x) = (firstAt l x).or (if left = l then some a else none) := by
  induction x with
  | nil => simp [Reads.insert, firstAt_cons]
  | cons head x ih =>
    obtain ⟨m, b⟩ := head
    obtain ⟨above, rest⟩ := List.pairwise_cons.mp ascending
    unfold Reads.insert
    split
    · rename_i less
      rw [firstAt_cons]
      split
      · -- every reading that is there already leaves more tokens
        rename_i same
        rw [firstAt_eq_none, Option.none_or]
        intro pair listed
        rcases List.mem_cons.mp listed with rfl | listed
        · change m ≠ l
          omega
        · have more := above pair listed
          change m < pair.1 at more
          omega
      · rw [Option.or_none]
    · split
      · rename_i least same
        rw [firstAt_cons]
        split
        · rfl
        · rename_i other
          rw [if_neg (by omega), Option.or_none]
      · rw [firstAt_cons, firstAt_cons, ih rest]
        split <;> rfl

theorem settle_spec (readings kept : List (Nat × α)) (ascending : Ascending kept) :
    Ascending (readings.foldl (fun kept (left, a) => Reads.insert left a kept) kept) ∧
      ∀ l, firstAt l (readings.foldl (fun kept (left, a) => Reads.insert left a kept) kept) =
        (firstAt l kept).or (firstAt l readings) := by
  induction readings generalizing kept with
  | nil => exact ⟨ascending, fun l => Option.or_none.symm⟩
  | cons pair readings ih =>
    obtain ⟨left, a⟩ := pair
    obtain ⟨sorted, same⟩ := ih (Reads.insert left a kept) (ascending_insert ascending left a)
    refine ⟨sorted, fun l => ?_⟩
    rw [List.foldl_cons, same, firstAt_insert ascending, firstAt_cons, Option.or_assoc]
    split <;> rfl

theorem ascending_settle (r : Reads α) : Ascending r.settle.readings :=
  (settle_spec r.readings [] .nil).1

theorem firstAt_settle (r : Reads α) (l : Nat) : firstAt l r.settle.readings = firstAt l r.readings :=
  (settle_spec r.readings [] .nil).2 l

theorem andThen_readings (r : Reads α) (f : Nat → α → Reads β) :
    (r.andThen f).readings = r.readings.flatMap fun (left, a) => (f left a).readings := by
  unfold Reads.andThen
  induction r.readings with
  | nil => rfl
  | cons pair rest ih =>
    rw [List.foldr_cons, List.flatMap_cons, ← ih]
    rfl

-- The first reading behind a sequence of readings is behind the first of them that has one.
theorem firstAt_flatMap {left : Nat} {b : β} {x : List (Nat × α)} {f : Nat × α → List (Nat × β)}
    (found : firstAt left (x.flatMap f) = some b) :
    ∃ before pair after, x = before ++ pair :: after ∧
      (∀ earlier ∈ before, firstAt left (f earlier) = none) ∧ firstAt left (f pair) = some b := by
  induction x with
  | nil => cases found
  | cons pair x ih =>
    rw [List.flatMap_cons, firstAt_append] at found
    cases here : firstAt left (f pair) with
    | some c =>
      rw [here] at found
      exact ⟨[], pair, x, rfl, by simp, by rw [here]; exact found⟩
    | none =>
      rw [here, Option.none_or] at found
      obtain ⟨before, other, after, rfl, failed, later⟩ := ih found
      exact ⟨pair :: before, other, after, rfl, List.forall_mem_cons.mpr ⟨here, failed⟩, later⟩

theorem exists_firstAt_flatMap {left : Nat} {b : β} {x : List (Nat × α)} {pair : Nat × α}
    {f : Nat × α → List (Nat × β)} (listed : pair ∈ x) (found : firstAt left (f pair) = some b) :
    ∃ c, firstAt left (x.flatMap f) = some c :=
  exists_firstAt (List.mem_flatMap.mpr ⟨pair, listed, mem_of_firstAt found⟩)

end

def Sym.nonterminal? {N : Type} : Sym N → Option N
  | .tok _ => none
  | .ref n => some n
  | .maybe s => s.nonterminal?

namespace Grammar

variable {N : Type} {G : Grammar N} {text : String}

-- Readings at `ts` of something that spells some kinds and prefers some values.
structure Fits {α : Type} (r : Reads α) (ts : List Token) (spells : List Kind → Prop)
    (prefers : List Token → α → Prop) : Prop where
  sound : ∀ {left : Nat} {a : α}, firstAt left r.readings = some a →
    ∃ w u, ts = w ++ u ∧ u.length = left ∧ prefers w a
  complete : ∀ {w u : List Token}, ts = w ++ u → spells (kindsOf w) →
    ∃ a, firstAt u.length r.readings = some a

section

variable {α : Type} {r : Reads α} {ts : List Token} {spells : List Kind → Prop}
  {prefers : List Token → α → Prop}

theorem Fits.nothing (left : Nat) (empty : ∀ w u, ts = w ++ u → ¬spells (kindsOf w)) :
    Fits (.none left) ts spells prefers where
  sound := by
    intro left a found
    cases found
  complete := by
    intro w u split spelled
    exact absurd spelled (empty w u split)

theorem Fits.single {t : Token} {a : α} {reach : Nat} (preferred : prefers [t] a)
    (only : ∀ w u, t :: ts = w ++ u → spells (kindsOf w) → w = [t]) :
    Fits ⟨[(ts.length, a)], reach⟩ (t :: ts) spells prefers where
  sound := by
    intro left b found
    dsimp only at found
    rw [firstAt_cons] at found
    split at found
    · rename_i length
      cases found
      exact ⟨[t], ts, rfl, length, preferred⟩
    · cases found
  complete := by
    intro w u split spelled
    obtain rfl := only w u split spelled
    obtain rfl := (List.cons.inj split).2
    exact ⟨a, (firstAt_cons _ _ _ _).trans (if_pos rfl)⟩

theorem Fits.done {a : α} {reach : Nat} (preferred : prefers [] a)
    (only : ∀ {ks}, spells ks → ks = []) : Fits ⟨[(ts.length, a)], reach⟩ ts spells prefers where
  sound := by
    intro left b found
    dsimp only at found
    rw [firstAt_cons] at found
    split at found
    · rename_i length
      cases found
      exact ⟨[], ts, rfl, length, preferred⟩
    · cases found
  complete := by
    intro w u split spelled
    obtain rfl := List.map_eq_nil_iff.mp (only spelled)
    exact ⟨a, by rw [split]; simp [firstAt_cons]⟩

theorem Fits.le (fits : Fits r ts spells prefers) {pair : Nat × α} (listed : pair ∈ r.readings) :
    pair.1 ≤ ts.length := by
  obtain ⟨b, found⟩ := exists_firstAt listed
  obtain ⟨w, u, rfl, length, _⟩ := fits.sound found
  rw [← length, List.length_append]
  exact Nat.le_add_left _ _

theorem Fits.maybe {spells' : List Kind → Prop} {prefers' : List Token → Option α → Prop}
    (fits : Fits r ts spells prefers) (present : ∀ {w a}, prefers w a → prefers' w (some a))
    (absent : ¬spells [] → prefers' [] none) (either : ∀ {ks}, spells' ks → ks = [] ∨ spells ks) :
    Fits ((r.map fun _ a => some a).append ⟨[(ts.length, none)], ts.length⟩) ts spells' prefers' where
  sound := by
    intro left b found
    simp only [Reads.append, Reads.map] at found
    rw [firstAt_append, firstAt_map left fun _ => some] at found
    cases inner : firstAt left r.readings with
    | some a =>
      rw [inner] at found
      cases found
      obtain ⟨w, u, rfl, length, preferred⟩ := fits.sound inner
      exact ⟨w, u, rfl, length, present preferred⟩
    | none =>
      rw [inner, Option.map_none, Option.none_or, firstAt_cons] at found
      split at found
      · rename_i length
        cases found
        refine ⟨[], ts, rfl, length, absent fun spelled => ?_⟩
        obtain ⟨a, there⟩ := fits.complete (List.nil_append ts).symm spelled
        rw [length, inner] at there
        cases there
      · cases found
  complete := by
    intro w u split spelled
    simp only [Reads.append, Reads.map]
    rw [firstAt_append, firstAt_map u.length fun _ => some]
    cases inner : firstAt u.length r.readings with
    | some a => exact ⟨some a, rfl⟩
    | none =>
      rcases either spelled with empty | spelled
      · obtain rfl := List.map_eq_nil_iff.mp empty
        exact ⟨none, by rw [split]; simp [firstAt_cons]⟩
      · obtain ⟨a, found⟩ := fits.complete split spelled
        rw [inner] at found
        cases found

-- Of two things read one behind the other the first takes as much as it can.
theorem Fits.andThen {β : Type} {f : Nat → Reads β} {behind spells' : List Kind → Prop}
    {prefersBehind : List Token → β → Prop} {prefers' : List Token → α × β → Prop}
    (fits : Fits r ts spells prefers) (sorted : r.readings.Pairwise fun a b => a.1 ≤ b.1)
    (spelled : ∀ {w a}, prefers w a → spells (kindsOf w))
    (later : ∀ {w u}, ts = w ++ u → spells (kindsOf w) → Fits (f u.length) u behind prefersBehind)
    (join : ∀ {w u a b}, prefers w a → prefersBehind u b →
      (∀ x y, u = x ++ y → x ≠ [] → spells (kindsOf (w ++ x)) → ¬behind (kindsOf y)) →
      prefers' (w ++ u) (a, b))
    (parts : ∀ {w}, spells' (kindsOf w) →
      ∃ x y, w = x ++ y ∧ spells (kindsOf x) ∧ behind (kindsOf y)) :
    Fits (r.andThen fun left a => (f left).map fun _ b => (a, b)) ts spells' prefers' where
  sound := by
    intro left pair found
    rw [andThen_readings] at found
    obtain ⟨before, ⟨m, a⟩, after, split, failed, here⟩ := firstAt_flatMap found
    simp only [Reads.map] at failed here
    rw [firstAt_map left fun _ b => (a, b)] at here
    obtain ⟨b, inner, rfl⟩ := Option.map_eq_some_iff.mp here
    have silent {c : α} (listed : (m, c) ∈ before) : False := by
      have none := failed (m, c) listed
      rw [firstAt_map left fun _ b => (c, b), inner] at none
      cases none
    have first : firstAt m r.readings = some a := by
      rw [split, firstAt_append, firstAt_eq_none (by rintro ⟨l, c⟩ listed rfl; exact silent listed),
        Option.none_or, firstAt_cons, if_pos rfl]
    obtain ⟨w, u, whole, rfl, preferred⟩ := fits.sound first
    obtain ⟨x, y, rfl, rfl, preferredBehind⟩ := (later whole (spelled preferred)).sound inner
    refine ⟨w ++ x, y, by rw [whole, List.append_assoc], rfl, join preferred preferredBehind ?_⟩
    rintro p q rfl filled longer rest
    -- a longer reading would have been tried before
    have other : ts = (w ++ p) ++ (q ++ y) := by rw [whole]; simp
    obtain ⟨c, there⟩ := fits.complete other longer
    have listed := mem_of_firstAt there
    rw [split] at listed sorted
    rcases List.mem_append.mp listed with earlier | earlier
    · obtain ⟨d, succeeded⟩ := (later other longer).complete rfl rest
      have none := failed _ earlier
      rw [firstAt_map y.length fun _ b => (c, b), succeeded] at none
      cases none
    · have positive := List.length_pos_iff.mpr filled
      have shorter : (q ++ y).length < (p ++ q ++ y).length := by
        simp only [List.length_append]
        omega
      rcases List.mem_cons.mp earlier with same | earlier
      · exact Nat.ne_of_lt shorter (congrArg Prod.fst same)
      · have order := (List.pairwise_cons.mp (List.pairwise_append.mp sorted).2.1).1 _ earlier
        exact Nat.lt_irrefl _ (Nat.lt_of_lt_of_le shorter order)
  complete := by
    intro w u split spelled'
    obtain ⟨x, y, rfl, first, rest⟩ := parts spelled'
    rw [List.append_assoc] at split
    obtain ⟨a, found⟩ := fits.complete split first
    obtain ⟨b, inner⟩ := (later split first).complete rfl rest
    rw [andThen_readings]
    refine exists_firstAt_flatMap (b := (a, b)) (mem_of_firstAt found) ?_
    simp only [Reads.map]
    rw [firstAt_map u.length fun _ b => (a, b), inner]
    rfl

theorem Fits.map {β : Type} {f : Nat → α → β} {prefers' : List Token → β → Prop}
    (fits : Fits r ts spells prefers)
    (build : ∀ {w u a}, ts = w ++ u → prefers w a → prefers' w (f u.length a)) :
    Fits (r.map f) ts spells prefers' where
  sound := by
    intro left b found
    simp only [Reads.map] at found
    rw [firstAt_map] at found
    obtain ⟨a, inner, rfl⟩ := Option.map_eq_some_iff.mp found
    obtain ⟨w, u, split, rfl, preferred⟩ := fits.sound inner
    exact ⟨w, u, split, rfl, build split preferred⟩
  complete := by
    intro w u split spelled
    obtain ⟨a, found⟩ := fits.complete split spelled
    simp only [Reads.map]
    rw [firstAt_map, found]
    exact ⟨_, rfl⟩

end

variable (G text)

-- A cell at `ts` has the readings of its nonterminal, each length once, the longest first.
structure CellFits (ts : List Token) (n : N) (c : G.Cell n) : Prop where
  fits : Fits c ts (G.Spells n) (G.Preferred text n)
  ascending : Ascending c.readings

variable {G text}

-- A view of `ts` is right about what follows, and cells are as `holds` says; of the cells at `ts`
-- itself only some are known.
structure Sees (holds : List Token → (n : N) → G.Cell n → Prop) (view : View G) (ts : List Token)
    (known : N → Prop) : Prop where
  next : ∀ w u, ts = w ++ u → view.next u.length = u.head?
  cell : ∀ w u n, ts = w ++ u → (w = [] → known n) → holds u n (view.cell u.length n)

theorem symbol_fits {view : View G} {ts w u : List Token} {known : N → Prop}
    (sees : Sees (G.CellFits text) view ts known) (split : ts = w ++ u) (s : Sym N)
    (leads : w = [] → ∀ n, s.nonterminal? = some n → known n) :
    Fits (view.symbol u.length s) u (G.SpellsSym s) (G.PreferredSym text s) ∧
      (view.symbol u.length s).readings.Pairwise fun a b => a.1 ≤ b.1 := by
  induction s with
  | tok kinds =>
    have next := sees.next w u split
    cases u with
    | nil =>
      simp only [View.symbol, next, List.head?_nil]
      refine ⟨.nothing _ fun x y same spelled => ?_, .nil⟩
      obtain ⟨t, rfl, _⟩ := spells_tok spelled
      cases same
    | cons t u =>
      simp only [View.symbol, next, List.head?_cons]
      split
      · rename_i fits
        refine ⟨.single (.tok fits) fun x y same spelled => ?_, List.pairwise_singleton _ _⟩
        obtain ⟨t', rfl, _⟩ := spells_tok spelled
        rw [(List.cons.inj same).1]
      · rename_i other
        refine ⟨.nothing _ fun x y same spelled => ?_, .nil⟩
        obtain ⟨t', rfl, fits⟩ := spells_tok spelled
        obtain ⟨rfl, _⟩ := List.cons.inj same
        exact other fits
  | ref n =>
    obtain ⟨fits, ascending⟩ := sees.cell w u n split fun empty => leads empty n rfl
    refine ⟨⟨fun {left a} found => ?_, fun {x y} same spelled => ?_⟩,
      ascending.imp fun less => Nat.le_of_lt less⟩
    · obtain ⟨x, y, rfl, length, preferred⟩ := fits.sound found
      exact ⟨x, y, rfl, length, .ref preferred⟩
    · exact fits.complete same (spellsSym_ref.mp spelled)
  | maybe s ih =>
    obtain ⟨fits, sorted⟩ := ih leads
    constructor
    · exact Fits.maybe fits (fun preferred => PreferredSym.present preferred)
        (fun empty => PreferredSym.absent empty) spellsSym_maybe.mp
    · refine List.pairwise_append.mpr ⟨List.pairwise_map.mpr sorted, List.pairwise_singleton _ _, ?_⟩
      intro pair listed last only
      obtain rfl := List.mem_singleton.mp only
      obtain ⟨inner, member, rfl⟩ := List.mem_map.mp listed
      exact fits.le member

-- Whether a symbol may stand for no token, when `empty` says so of the nonterminals.
def nullable (empty : N → Bool) : Sym N → Bool
  | .tok _ => false
  | .ref n => empty n
  | .maybe _ => true

-- The nonterminals that a sequence can begin with before a token has been read.
def leads (empty : N → Bool) : List (Sym N) → List N
  | [] => []
  | s :: rest => s.nonterminal?.toList ++ if nullable empty s then leads empty rest else []

variable (G) in
-- The ranks of a grammar are right: `empty` holds of all nonterminals that stand for no token, and
-- what a nonterminal can begin with has a smaller rank.
structure Ranked (empty : N → Bool) : Prop where
  empties : ∀ n, ∀ p ∈ G.productions n, p.rhs.all (nullable empty) → empty n
  descends : ∀ n, ∀ p ∈ G.productions n, ∀ m ∈ leads empty p.rhs, G.rank m < G.rank n

variable {empty : N → Bool}

mutual

theorem Spells.nullable (ranked : G.Ranked empty) {n : N} {ks : List Kind} :
    G.Spells n ks → ks = [] → empty n
  | .production listed all, void => ranked.empties _ _ listed (all.nullable ranked void)

theorem SpellsSym.nullable (ranked : G.Ranked empty) {s : Sym N} {ks : List Kind} :
    G.SpellsSym s ks → ks = [] → Grammar.nullable empty s
  | .ref inner, void => inner.nullable ranked void
  | .absent, _ => rfl
  | .present _, _ => rfl

theorem SpellsAll.nullable (ranked : G.Ranked empty) {rhs : List (Sym N)} {ks : List Kind} :
    G.SpellsAll rhs ks → ks = [] → rhs.all (Grammar.nullable empty)
  | .nil, _ => rfl
  | .cons first rest, void => by
    obtain ⟨left, right⟩ := List.append_eq_nil_iff.mp void
    rw [List.all_cons, first.nullable ranked left, rest.nullable ranked right]
    rfl

end

theorem sequence_fits (ranked : G.Ranked empty) {view : View G} {ts : List Token} {known : N → Prop}
    (sees : Sees (G.CellFits text) view ts known) (rhs : List (Sym N)) {w u : List Token} (split : ts = w ++ u)
    (begins : w = [] → ∀ n ∈ leads empty rhs, known n) :
    Fits (view.sequence rhs u.length) u (G.SpellsAll rhs) (G.PreferredAll text rhs) := by
  induction rhs generalizing w u with
  | nil =>
    refine .done .nil fun spelled => ?_
    cases spelled
    rfl
  | cons s rest ih =>
    have leading : w = [] → ∀ n, s.nonterminal? = some n → known n := by
      intro void n found
      exact begins void n (by simp [leads, found])
    obtain ⟨fits, sorted⟩ := symbol_fits sees split s leading
    have later {x y : List Token} (same : u = x ++ y) (spelled : G.SpellsSym s (kindsOf x)) :
        Fits (view.sequence rest y.length) y (G.SpellsAll rest) (G.PreferredAll text rest) := by
      refine ih (w := w ++ x) (by rw [split, same, List.append_assoc]) fun void n listed => ?_
      obtain ⟨rfl, rfl⟩ := List.append_eq_nil_iff.mp void
      refine begins rfl n ?_
      rw [leads, if_pos (spelled.nullable ranked rfl)]
      exact List.mem_append_right _ listed
    exact Fits.andThen fits sorted (fun preferred => preferred.derives.spells) later
      (fun first all longest => PreferredAll.cons first all longest) spellsAll_parts

theorem production_fits (ranked : G.Ranked empty) {view : View G} {ts : List Token} {n : N}
    (sees : Sees (G.CellFits text) view ts fun m => G.rank m < G.rank n) {p : Production G.Val n}
    (listed : p ∈ G.productions n) :
    Fits (Production.reads p text ts.length ts view) ts (G.SpellsAll p.rhs)
      fun w v => ∃ vs, G.PreferredAll text p.rhs w vs ∧ v = p.build text w vs := by
  refine (sequence_fits ranked sees p.rhs (List.nil_append ts).symm fun _ =>
    ranked.descends n p listed).map fun {w u vs} split preferred => ⟨vs, preferred, ?_⟩
  subst split
  simp

-- The readings of some productions, in order.
theorem productions_fits (ranked : G.Ranked empty) {view : View G} {ts : List Token} {n : N}
    (sees : Sees (G.CellFits text) view ts fun m => G.rank m < G.rank n)
    {before ps : List (Production G.Val n)} (all : G.productions n = before ++ ps) :
    Fits (ps.foldr (fun p others => (Production.reads p text ts.length ts view).append others)
      (.none ts.length)) ts (fun ks => ∃ p ∈ ps, G.SpellsAll p.rhs ks)
      fun w v => (∀ q ∈ before, ¬G.SpellsAll q.rhs (kindsOf w)) → G.Preferred text n w v := by
  induction ps generalizing before with
  | nil => exact .nothing _ fun w u _ ⟨p, listed, _⟩ => by cases listed
  | cons p ps ih =>
    have here := production_fits ranked sees (p := p) (by rw [all]; simp)
    have others : G.productions n = (before ++ [p]) ++ ps := by rw [all]; simp
    have rest := ih others
    constructor
    · intro left v found
      simp only [List.foldr_cons, Reads.append] at found
      rw [firstAt_append] at found
      cases first : firstAt left (Production.reads p text ts.length ts view).readings with
      | some v' =>
        rw [first] at found
        cases found
        obtain ⟨w, u, split, length, vs, preferred, rfl⟩ := here.sound first
        exact ⟨w, u, split, length, fun earlier => .production all earlier preferred⟩
      | none =>
        rw [first, Option.none_or] at found
        obtain ⟨w, u, split, length, preferred⟩ := rest.sound found
        refine ⟨w, u, split, length, fun earlier => preferred fun q listed spelled => ?_⟩
        rcases List.mem_append.mp listed with listed | only
        · exact earlier q listed spelled
        · obtain rfl := List.mem_singleton.mp only
          obtain ⟨v', there⟩ := here.complete split spelled
          rw [length, first] at there
          cases there
    · intro w u split spelled
      simp only [List.foldr_cons, Reads.append]
      rw [firstAt_append]
      cases first : firstAt u.length (Production.reads p text ts.length ts view).readings with
      | some v => exact ⟨v, rfl⟩
      | none =>
        rw [Option.none_or]
        obtain ⟨q, listed, spelled⟩ := spelled
        rcases List.mem_cons.mp listed with rfl | listed
        · obtain ⟨v, there⟩ := here.complete split spelled
          rw [first] at there
          cases there
        · exact rest.complete split ⟨q, listed, spelled⟩

variable (G text) in
-- Cells are as `holds` says if those are that they were made from.
def Kept (holds : List Token → (n : N) → G.Cell n → Prop) : Prop :=
  ∀ {later : Array (Column G)} {ts : List Token} {n : N}
    {lower : (m : N) → G.rank m < G.rank n → G.Cell m},
    Sees holds (viewFrom ts.length ts.head? later n lower) ts (fun m => G.rank m < G.rank n) →
      holds ts n (cellOf text ts.length ts later n lower)

theorem cellOf_fits (ranked : G.Ranked empty) : G.Kept text (G.CellFits text) := by
  intro later ts n lower sees
  have all := productions_fits ranked sees (List.nil_append (G.productions n)).symm
  refine ⟨⟨fun {left v} found => ?_, fun {w u} split spelled => ?_⟩, ascending_settle _⟩
  · simp only [cellOf] at found
    rw [firstAt_settle] at found
    obtain ⟨w, u, split, length, preferred⟩ := all.sound found
    exact ⟨w, u, split, length, preferred (by simp)⟩
  · simp only [cellOf]
    rw [firstAt_settle]
    exact all.complete split (spells_def.mp spelled)

theorem entry_get {entry : (n : N) × Thunk (G.Cell n)} {n : N} {cell : Thunk (G.Cell n)}
    (same : entry.1 = n) (found : entry = ⟨n, cell⟩) : (same ▸ entry.2.get : G.Cell n) = cell.get := by
  subst found
  rfl

theorem Table.get_of_entry {bound : Nat} {table : Table G bound} {n : N} {cell : Thunk (G.Cell n)}
    (below : G.rank n < bound) (found : table.cells[G.rank n]? = some ⟨n, cell⟩) :
    table.get n below = cell.get := by
  obtain ⟨within, found⟩ := Array.getElem?_eq_some_iff.mp found
  exact entry_get _ found

theorem Table.exists_entry {bound : Nat} (table : Table G bound) {n : N} (below : G.rank n < bound) :
    ∃ cell, table.cells[G.rank n]? = some ⟨n, cell⟩ := by
  have within : G.rank n < table.cells.size := Nat.lt_of_lt_of_eq below table.size_eq.symm
  have same : (table.cells[G.rank n]).1 = n := G.rank_injective (table.ranked _ within)
  rw [Array.getElem?_eq_getElem within]
  generalize table.cells[G.rank n] = entry at same
  obtain ⟨m, cell⟩ := entry
  subst same
  exact ⟨cell, rfl⟩

theorem Table.get_push_lower {bound : Nat} (table : Table G bound) {n : N} (rank : G.rank n = bound)
    (cell : Thunk (G.Cell n)) {m : N} (below : G.rank m < bound) :
    (table.push n rank cell).get m (Nat.lt_succ_of_lt below) = table.get m below := by
  obtain ⟨own, found⟩ := table.exists_entry below
  have within : G.rank m < table.cells.size := Nat.lt_of_lt_of_eq below table.size_eq.symm
  rw [Table.get_of_entry below found, Table.get_of_entry]
  rw [Table.push, Array.getElem?_push_lt within, ← Array.getElem?_eq_getElem within, found]

theorem Table.get_push_last {bound : Nat} (table : Table G bound) {n : N} (rank : G.rank n = bound)
    (cell : Thunk (G.Cell n)) :
    (table.push n rank cell).get n (Nat.lt_succ_of_le (Nat.le_of_eq rank)) = cell.get := by
  rw [Table.get_of_entry]
  have last : G.rank n = table.cells.size := rank.trans table.size_eq.symm
  rw [last]
  exact Array.getElem?_push_size

-- Every cell of a table is what it was made to be from the cells below it.
theorem Table.get_build (cell : (n : N) → ((m : N) → G.rank m < G.rank n → G.Cell m) → G.Cell n)
    {bound : Nat} (most : bound ≤ G.count) {n : N} (below : G.rank n < bound) :
    (Table.build cell bound most).get n below =
      cell n fun m less => (Table.build cell bound most).get m (Nat.lt_trans less below) := by
  induction bound with
  | zero => exact absurd below (Nat.not_lt_zero _)
  | succ bound ih =>
    have rank : G.rank (G.atRank bound) = bound := G.rank_atRank bound most
    have lower := Nat.le_of_succ_le most
    unfold Table.build
    dsimp only
    by_cases old : G.rank n < bound
    · rw [Table.get_push_lower _ rank _ old, ih lower old]
      congr 1
      funext m less
      rw [Table.get_push_lower _ rank _ (Nat.lt_trans less old)]
    · have same : n = G.atRank bound := G.rank_injective (by rw [rank]; omega)
      subst same
      rw [Table.get_push_last _ rank]
      change cell _ _ = cell _ _
      congr 1
      funext m less
      rw [Table.get_push_lower _ rank _ (Nat.lt_of_lt_of_eq less rank)]

-- The columns behind `ts` are there, each with the cells of its suffix.
def Behind (holds : List Token → (n : N) → G.Cell n → Prop) (ts : List Token)
    (later : Array (Column G)) : Prop :=
  ∀ w u, ts = w ++ u → w ≠ [] → ∃ column, later[u.length]? = some column ∧
    column.next = u.head? ∧ ∀ n, holds u n (column.cell n)

variable {holds : List Token → (n : N) → G.Cell n → Prop}

theorem viewFrom_sees {ts : List Token} {later : Array (Column G)} (behind : Behind holds ts later)
    {n : N} {lower : (m : N) → G.rank m < G.rank n → G.Cell m}
    (known : ∀ m below, holds ts m (lower m below)) :
    Sees holds (viewFrom ts.length ts.head? later n lower) ts fun m => G.rank m < G.rank n where
  next := by
    intro w u split
    by_cases empty : w = []
    · subst empty split
      simp [viewFrom]
    · obtain ⟨column, found, next, _⟩ := behind w u split empty
      have shorter : u.length ≠ ts.length := by
        have positive := List.length_pos_iff.mpr empty
        rw [split, List.length_append]
        omega
      simp only [viewFrom, if_neg shorter, found, Option.bind_some, next]
  cell := by
    intro w u m split lead
    by_cases empty : w = []
    · subst empty split
      have below := lead rfl
      simp only [viewFrom, if_true, dif_pos below]
      exact known m below
    · obtain ⟨column, found, _, cells⟩ := behind w u split empty
      have shorter : u.length ≠ ts.length := by
        have positive := List.length_pos_iff.mpr empty
        rw [split, List.length_append]
        omega
      simp only [viewFrom, if_neg shorter, found]
      exact cells m

theorem columnOf_cell (kept : G.Kept text holds) {ts : List Token} {later : Array (Column G)}
    (behind : Behind holds ts later) (n : N) : holds ts n ((columnOf text ts later).cell n) := by
  -- within a column, by the rank of the cell
  induction rank : G.rank n using Nat.strongRecOn generalizing n with
  | ind r ih =>
    subst rank
    unfold Column.cell columnOf
    rw [Table.get_build]
    exact kept (viewFrom_sees behind fun m below => ih (G.rank m) below m rfl)

theorem columns_behind (kept : G.Kept text holds) (ts : List Token) :
    (columns (G := G) text ts).size = ts.length ∧ Behind holds ts (columns text ts) := by
  induction ts with
  | nil =>
    refine ⟨rfl, fun w u split filled => ?_⟩
    exact absurd (List.nil_eq_append_iff.mp split).1 filled
  | cons t ts ih =>
    obtain ⟨size, behind⟩ := ih
    refine ⟨by simp [columns, size], fun w u split filled => ?_⟩
    obtain ⟨first, w, rfl⟩ := List.exists_cons_of_ne_nil filled
    obtain ⟨rfl, rest⟩ := List.cons.inj split
    by_cases empty : w = []
    · subst empty
      obtain rfl : ts = u := rest
      refine ⟨columnOf text ts (columns text ts), ?_, rfl, columnOf_cell kept behind⟩
      rw [columns, ← size]
      exact Array.getElem?_push_size
    · obtain ⟨column, found, cells⟩ := behind w u rest empty
      refine ⟨column, ?_, cells⟩
      have within : u.length < (columns (G := G) text ts).size := by
        have positive := List.length_pos_iff.mpr empty
        have length := congrArg List.length rest
        rw [List.append_eq, List.length_append] at length
        omega
      rw [columns, Array.getElem?_push_lt within, ← Array.getElem?_eq_getElem within, found]

theorem read_eq_ok {start : N} {tokens : List Token} {v : G.Val start} :
    G.read start text tokens = .ok v ↔
      firstAt 0 (G.readings start text tokens).readings = some v := by
  simp only [Grammar.read, firstAt]
  split
  · rename_i found
    rw [found]
    simp
  · rename_i found
    rw [found]
    simp

-- What is kept from cell to cell holds of all that is read.
theorem readings_keep (kept : G.Kept text holds) (start : N) (tokens : List Token) :
    holds tokens start (G.readings start text tokens) :=
  columnOf_cell kept (columns_behind kept tokens).2 start

theorem readings_fits (ranked : G.Ranked empty) (text : String) (start : N) (tokens : List Token) :
    Fits (G.readings start text tokens) tokens (G.Spells start) (G.Preferred text start) :=
  (readings_keep (cellOf_fits ranked) start tokens).fits

-- The reader succeeds on what the grammar spells, with the value of the preferred derivation.
theorem read_eq_ok_iff (ranked : G.Ranked empty) {start : N} {tokens : List Token}
    {v : G.Val start} : G.read start text tokens = .ok v ↔ G.Preferred text start tokens v := by
  have fits := readings_fits ranked text start tokens
  rw [read_eq_ok]
  constructor
  · intro found
    obtain ⟨w, u, split, empty, preferred⟩ := fits.sound found
    obtain rfl := List.eq_nil_of_length_eq_zero empty
    rw [List.append_nil] at split
    rwa [split]
  · intro preferred
    obtain ⟨v', found⟩ := fits.complete (List.append_nil tokens).symm preferred.derives.spells
    obtain ⟨w, u, split, empty, other⟩ := fits.sound found
    obtain rfl := List.eq_nil_of_length_eq_zero empty
    rw [List.append_nil] at split
    subst split
    rw [preferred.unique v' other]
    exact found

theorem exists_read_iff (ranked : G.Ranked empty) {start : N} {tokens : List Token} :
    (∃ v, G.read start text tokens = .ok v) ↔ G.Spells start (kindsOf tokens) := by
  constructor
  · rintro ⟨v, read⟩
    exact ((read_eq_ok_iff ranked).mp read).derives.spells
  · intro spelled
    obtain ⟨v, found⟩ := (readings_fits ranked text start tokens).complete
      (List.append_nil tokens).symm spelled
    exact ⟨v, read_eq_ok.mpr found⟩

end Grammar

end Deasync
