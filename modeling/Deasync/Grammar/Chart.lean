import Deasync.Grammar.Symbol

namespace Deasync

-- The ways to read something at one place: how many tokens are left and with which value, the longest reading
-- first. `reach` is the fewest tokens left at which some reading could still go on.
structure Reads (α : Type) where
  readings : List (Nat × α)
  reach : Nat

namespace Reads

def none {α : Type} (left : Nat) : Reads α := ⟨[], left⟩

def map {α β : Type} (f : Nat → α → β) (r : Reads α) : Reads β :=
  ⟨r.readings.map fun (left, a) => (left, f left a), r.reach⟩

def append {α : Type} (a b : Reads α) : Reads α :=
  ⟨a.readings ++ b.readings, min a.reach b.reach⟩

def andThen {α β : Type} (r : Reads α) (f : Nat → α → Reads β) : Reads β :=
  r.readings.foldr (fun (left, a) later => (f left a).append later) ⟨[], r.reach⟩

def insert {α : Type} (left : Nat) (a : α) : List (Nat × α) → List (Nat × α)
  | [] => [(left, a)]
  | (l, b) :: rest =>
    if left < l then (left, a) :: (l, b) :: rest
    else if left = l then (l, b) :: rest
    else (l, b) :: insert left a rest

def settle {α : Type} (r : Reads α) : Reads α :=
  ⟨r.readings.foldl (fun kept (left, a) => insert left a kept) [], r.reach⟩

end Reads

namespace Grammar

variable {N : Type} (G : Grammar N)

abbrev Cell (n : N) := Reads (G.Val n)

structure Table (bound : Nat) where
  cells : Array ((n : N) × Thunk (G.Cell n))
  size_eq : cells.size = bound
  ranked : ∀ i (within : i < cells.size), G.rank (cells[i]).1 = i

namespace Table

variable {G}

def empty : Table G 0 := ⟨#[], rfl, fun i within => absurd within (Nat.not_lt_zero i)⟩

def get {bound : Nat} (table : Table G bound) (n : N) (below : G.rank n < bound) : G.Cell n :=
  have within : G.rank n < table.cells.size := Nat.lt_of_lt_of_eq below table.size_eq.symm
  have same : (table.cells[G.rank n]).1 = n := G.rank_injective (table.ranked _ within)
  same ▸ (table.cells[G.rank n]).2.get

def push {bound : Nat} (table : Table G bound) (n : N) (rank : G.rank n = bound)
    (cell : Thunk (G.Cell n)) : Table G (bound + 1) where
  cells := table.cells.push ⟨n, cell⟩
  size_eq := by simp [table.size_eq]
  ranked := by
    intro i within
    by_cases old : i < table.cells.size
    · simpa [Array.getElem_push_lt old] using table.ranked i old
    · have last : i = table.cells.size := by simp at within; omega
      subst last
      rw [Array.getElem_push_eq, rank, table.size_eq]

def build (cell : (n : N) → ((m : N) → G.rank m < G.rank n → G.Cell m) → G.Cell n) :
    (bound : Nat) → bound ≤ G.count → Table G bound
  | 0, _ => empty
  | bound + 1, most =>
    let lower := build cell bound (Nat.le_of_succ_le most)
    have rank : G.rank (G.atRank bound) = bound := G.rank_atRank bound most
    lower.push (G.atRank bound) rank
      (Thunk.mk fun _ => cell (G.atRank bound) fun m below => lower.get m (Nat.lt_of_lt_of_eq below rank))

end Table

structure Column where
  next : Option Token
  table : Table G G.count

variable {G}

def Column.cell (c : Column G) (n : N) : G.Cell n := c.table.get n (G.rank_lt n)

-- What a reading can ask for, by the number of tokens that are left: the next token, and the cell of a nonterminal.
structure View (G : Grammar N) where
  next : Nat → Option Token
  cell : Nat → (n : N) → G.Cell n

def View.symbol (view : View G) (left : Nat) : (s : Sym N) → Reads (s.Val G.Val)
  | .tok kinds =>
    match view.next left with
    | some token => if token.kind ∈ kinds then ⟨[(left - 1, token)], left - 1⟩ else .none left
    | none => .none left
  | .ref n => view.cell left n
  | .maybe s => ((view.symbol left s).map fun _ v => some v).append ⟨[(left, none)], left⟩

def View.sequence (view : View G) : (rhs : List (Sym N)) → Nat → Reads (Values G.Val rhs)
  | [], left => ⟨[(left, ())], left⟩
  | s :: rest, left =>
    (view.symbol left s).andThen fun left v => (view.sequence rest left).map fun _ vs => (v, vs)

-- The view from the column where `left` tokens are left, the first of them `next`: `later` are the columns behind
-- it, the one with fewest tokens first, and `lower` the cells of the column itself that are known already.
def viewFrom (left : Nat) (next : Option Token) (later : Array (Column G)) (n : N)
    (lower : (m : N) → G.rank m < G.rank n → G.Cell m) : View G where
  next there := if there = left then next else later[there]?.bind Column.next
  cell there m :=
    if there = left then
      if below : G.rank m < G.rank n then lower m below else .none there
    else match later[there]? with
      | some column => column.cell m
      | none => .none there

def Production.reads {n : N} (p : Production G.Val n) (text : String) (left : Nat)
    (tokens : List Token) (view : View G) : G.Cell n :=
  (view.sequence p.rhs left).map fun rest vs => p.build text (tokens.take (left - rest)) vs

def cellOf (text : String) (left : Nat) (tokens : List Token) (later : Array (Column G)) (n : N)
    (lower : (m : N) → G.rank m < G.rank n → G.Cell m) : G.Cell n :=
  let view := viewFrom left tokens.head? later n lower
  ((G.productions n).foldr (fun p others => (Production.reads p text left tokens view).append others)
    (.none left)).settle

def columnOf (text : String) (tokens : List Token) (later : Array (Column G)) : Column G :=
  let left := tokens.length
  ⟨tokens.head?, .build (cellOf text left tokens later) G.count (Nat.le_refl _)⟩

def columns (text : String) : List Token → Array (Column G)
  | [] => #[]
  | _ :: tokens =>
    let later := columns text tokens
    later.push (columnOf text tokens later)

def readings (G : Grammar N) (start : N) (text : String) (tokens : List Token) : G.Cell start :=
  (columnOf text tokens (columns text tokens)).cell start

-- Reads all of `tokens` as `start`; when that is impossible, says how many tokens are left from the first one on
-- that no derivation can go on with.
def read (G : Grammar N) (start : N) (text : String) (tokens : List Token) :
    Except Nat (G.Val start) :=
  let all := G.readings start text tokens
  match all.readings.find? fun (left, _) => left = 0 with
  | some (_, value) => .ok value
  | none => .error all.reach

end Grammar

end Deasync
