import Deasync.Proofs.Printing.Items

namespace Deasync

namespace Item

-- Marks that nothing in front of them can run into.
def isQuiet : Item → Bool
  | blank => true
  | mark kind => kind ∈ [.comma, .closeRound, .closeSquare, .greater, .semicolon, .colon, .pathSep,
      .less, .openRound]
  | _ => false

def isWordMark : Item → Bool
  | mark kind => kind ∈ [.mutWord, .constWord, .dynWord, .implWord, .asWord, .underscore]
  | _ => false

-- Marks that can be followed by anything, or by nothing.
def isEager : Item → Bool
  | blank => true
  | mark kind => kind ∈ [.openSquare, .closeSquare, .openRound, .closeRound, .bang, .semicolon, .comma,
      .less, .greater, .plus, .question, .pathSep, .arrow]
  | _ => false

-- Rows that end with this one can be followed by all that is quiet.
def isLast : Item → Bool
  | name _ | lifetime _ | quote _ => true
  | length _ => false
  | item => item.isWordMark || item.isEager

def beside : Item → Item → Bool
  | length _, next => next = mark .closeSquare
  | mark .colon, next | mark .equal, next => next = blank
  | mark .star, next => next = mark .mutWord ∨ next = mark .constWord
  | mark .ampersand, next => next ≠ blank
  | item, next => item.isEager || item.isLast && next.isQuiet

theorem beside_of_eager {a : Item} (eager : a.isEager) (b : Item) : a.beside b := by
  unfold beside
  split
  · cases eager
  · cases eager
  · cases eager
  · cases eager
  · cases eager
  · rw [eager, Bool.true_or]

theorem beside_of_last {a b : Item} (last : a.isLast) (quiet : b.isQuiet) : a.beside b := by
  unfold beside
  split
  · cases last
  · cases last
  · cases last
  · cases last
  · cases last
  · rw [last, quiet, Bool.and_true, Bool.or_true]

theorem isLast_of_eager {a : Item} (eager : a.isEager) : a.isLast := by
  cases a with
  | mark kind => simp [isLast, eager]
  | blank => rfl
  | _ => cases eager

end Item

-- A row of items that can be read one by one, whatever quiet item follows.
def neat : List Item → Bool
  | [] => true
  | [item] => item.isLast
  | item :: next :: rest => item.beside next && neat (next :: rest)

theorem neat_eager {a : Item} {items : List Item} (eager : a.isEager) (rest : neat items) :
    neat (a :: items) := by
  cases items with
  | nil => exact Item.isLast_of_eager eager
  | cons b items => rw [neat, rest, Item.beside_of_eager eager, Bool.and_self]

theorem neat_ampersand {items : List Item} (filled : ∃ b ∈ items.head?, b ≠ .blank)
    (rest : neat items) : neat (.mark .ampersand :: items) := by
  obtain ⟨b, begins, solid⟩ := filled
  obtain ⟨items, rfl⟩ := List.head?_eq_some_iff.mp begins
  rw [neat, rest, Bool.and_true]
  exact decide_eq_true solid

theorem neat_spaced {a : Item} {items : List Item} (beside : a.beside .blank) (rest : neat items) :
    neat (a :: .blank :: items) := by
  rw [neat, beside, Bool.true_and]
  exact neat_eager rfl rest

theorem neat_name {name : String} {b : Item} {items : List Item} (quiet : b.isQuiet)
    (rest : neat (b :: items)) : neat (.name name :: b :: items) := by
  rw [neat, rest, Bool.and_true]
  exact Item.beside_of_last rfl quiet

theorem neat_append {x y : List Item} {b : Item} (first : neat x) (quiet : b.isQuiet)
    (second : neat (b :: y)) : neat (x ++ b :: y) := by
  induction x with
  | nil => exact second
  | cons a x ih =>
    cases x with
    | nil =>
      rw [List.cons_append, List.nil_append, neat, second, Bool.and_true]
      exact Item.beside_of_last first quiet
    | cons c x =>
      rw [neat, Bool.and_eq_true] at first
      rw [List.cons_append, List.cons_append, neat, Bool.and_eq_true]
      exact ⟨first.1, ih first.2⟩

theorem neat_separated {between : List Item} {b : Item} (quiet : b.isQuiet)
    (joins : ∀ items, neat items → neat (b :: between ++ items)) {rows : List (List Item)}
    (all : ∀ row ∈ rows, neat row) : neat (separated (b :: between) rows) := by
  induction rows with
  | nil => rfl
  | cons first rest ih =>
    cases rest with
    | nil => exact all first (.head _)
    | cons second rest =>
      rw [separated_cons, List.append_assoc]
      refine neat_append (all first (.head _)) quiet (joins _ (ih ?_))
      exact fun row present => all row (.tail _ present)

theorem neat_listed {rows : List (List Item)} (all : ∀ row ∈ rows, neat row) : neat (listed rows) := by
  refine neat_separated rfl ?_ all
  intro items rest
  exact neat_eager rfl (neat_eager rfl rest)

theorem neat_summed {rows : List (List Item)} (all : ∀ row ∈ rows, neat row) : neat (summed rows) := by
  refine neat_separated rfl ?_ all
  intro items rest
  exact neat_eager rfl (neat_eager rfl (neat_eager rfl rest))

theorem neat_arguments {rows : List (List Item)} {items : List Item} (all : ∀ row ∈ rows, neat row)
    (rest : neat items) : neat (.mark .less :: (listed rows ++ .mark .greater :: items)) :=
  neat_eager rfl (neat_append (neat_listed all) rfl (neat_eager rfl rest))

theorem Ty.items_head (t : Ty) : ∃ a ∈ t.items.head?, a ≠ .blank := by
  cases t with
  | path p =>
    obtain ⟨root, head, tail, extent⟩ := p
    cases root with
    | relative =>
      cases head with
      | call name inputs output => cases output <;> simp [Ty.items, Path.items, Root.items, Segment.items]
      | _ => simp [Ty.items, Path.items, Root.items, Segment.items]
    | global => simp [Ty.items, Path.items, Root.items]
    | qualified self asTrait => cases asTrait <;> simp [Ty.items, Path.items, Root.items]
  | tuple elements =>
    rw [Ty.items.eq_def]
    split <;> simp_all
  | _ => simp [Ty.items]

mutual

theorem Ty.neat_items : (t : Ty) → neat t.items
  | .path p => p.neat_items
  | .reference lifetime mutable inner _ => by
    have own := inner.neat_items
    have behind : neat ((if mutable then [.mark .mutWord, .blank] else []) ++ inner.items) := by
      cases mutable
      · exact own
      · exact neat_spaced rfl own
    cases lifetime with
    | none =>
      refine neat_ampersand ?_ behind
      cases mutable
      · exact inner.items_head
      · simp
    | some name => exact neat_ampersand (by simp) (neat_spaced rfl behind)
  | .pointer mutable inner _ => by
    cases mutable
    · exact neat_spaced (a := .mark .constWord) rfl inner.neat_items
    · exact neat_spaced (a := .mark .mutWord) rfl inner.neat_items
  | .tuple [] _ => rfl
  | .tuple [only] _ => by
    rw [Ty.items]
    exact neat_eager rfl (neat_append only.neat_items rfl rfl)
  | .tuple (first :: second :: rest) _ => by
    rw [Ty.items]
    · exact neat_eager rfl (neat_append (neat_listed (Ty.neat_itemsEach _)) rfl rfl)
    · intro only same
      cases same
  | .paren inner _ => neat_eager rfl (neat_append inner.neat_items rfl rfl)
  | .slice inner _ => neat_eager rfl (neat_append inner.neat_items rfl rfl)
  | .array inner _ _ => neat_eager rfl (neat_append inner.neat_items rfl rfl)
  | .never _ => rfl
  | .infer _ => rfl
  | .traitObject bounds _ =>
    neat_spaced rfl (neat_summed (Bound.neat_itemsEach bounds))
  | .implTrait bounds _ =>
    neat_spaced rfl (neat_summed (Bound.neat_itemsEach bounds))
  | .functionPointer _ _ => rfl
  | .macroCall _ _ => rfl

theorem Path.neat_items : (p : Path) → neat p.items
  | .mk root head tail _ => by
    rw [Path.items]
    exact root.neat_items _ (Segment.neat_itemsTail false tail _ (head.neat_items false))

theorem Root.neat_items : (r : Root) → ∀ items, neat items → neat (r.items ++ items)
  | .relative => fun _ rest => rest
  | .global => fun _ rest => neat_eager rfl rest
  | .qualified self none => fun items rest => by
    rw [Root.items, List.cons_append, List.append_assoc]
    exact neat_eager rfl (neat_append self.neat_items rfl (neat_eager rfl (neat_eager rfl rest)))
  | .qualified self (some path) => fun items rest => by
    have behind := neat_append path.neat_items rfl (neat_eager (a := .mark .greater) rfl
      (neat_eager (a := .mark .pathSep) rfl rest))
    have whole := neat_eager (a := .mark .less) rfl
      (neat_append self.neat_items rfl
        (neat_eager (a := .blank) rfl (neat_spaced (a := .mark .asWord) rfl behind)))
    simpa [Root.items] using whole

theorem Segment.neat_items (expression : Bool) : (s : Segment) → neat (s.items expression)
  | .plain _ => rfl
  | .angled _ _ arguments => by
    have list := neat_arguments (GenericArg.neat_itemsEach arguments) (Eq.refl (neat []))
    rw [Segment.items]
    split
    · exact neat_name rfl (neat_eager rfl list)
    · exact neat_name rfl list
  | .call _ inputs none =>
    neat_name rfl (neat_eager rfl (neat_append (neat_listed (Ty.neat_itemsEach inputs)) rfl rfl))
  | .call _ inputs (some output) =>
    neat_name rfl (neat_eager rfl (neat_append (neat_listed (Ty.neat_itemsEach inputs)) rfl
      (neat_eager rfl (neat_eager rfl (neat_spaced rfl output.neat_items)))))

theorem GenericArg.neat_items : (a : GenericArg) → neat a.items
  | .lifetime _ => rfl
  | .type ty => ty.neat_items
  | .binding _ none ty => neat_name rfl (neat_eager rfl (neat_spaced rfl ty.neat_items))
  | .binding _ (some arguments) ty =>
    neat_name rfl (neat_arguments (GenericArg.neat_itemsEach arguments)
      (neat_eager rfl (neat_spaced rfl ty.neat_items)))
  | .constraint _ none bounds =>
    neat_name rfl (neat_spaced rfl (neat_summed (Bound.neat_itemsEach bounds)))
  | .constraint _ (some arguments) bounds =>
    neat_name rfl (neat_arguments (GenericArg.neat_itemsEach arguments)
      (neat_spaced rfl (neat_summed (Bound.neat_itemsEach bounds))))
  | .const _ => rfl

theorem Bound.neat_items : (b : Bound) → neat b.items
  | .lifetime _ => rfl
  | .trait maybe binder paren path => by
    have own : neat (Bound.trait maybe binder false path).items := by
      cases binder with
      | none =>
        cases maybe
        · exact path.neat_items
        · exact neat_eager rfl path.neat_items
      | some names =>
        cases maybe
        · exact neat_spaced rfl path.neat_items
        · exact neat_eager rfl (neat_spaced rfl path.neat_items)
    cases paren
    · exact own
    · exact neat_eager rfl (neat_append own rfl rfl)

theorem Ty.neat_itemsEach : (ts : List Ty) → ∀ row ∈ Ty.itemsEach ts, neat row
  | [] => by simp [Ty.itemsEach]
  | t :: rest => List.forall_mem_cons.mpr ⟨t.neat_items, Ty.neat_itemsEach rest⟩

theorem Segment.neat_itemsTail (expression : Bool) : (ss : List Segment) → ∀ items, neat items →
    neat (items ++ Segment.itemsTail expression ss)
  | [] => fun items first => by
    rw [Segment.itemsTail, List.append_nil]
    exact first
  | next :: rest => fun items first => neat_append first rfl
      (neat_eager rfl (Segment.neat_itemsTail expression rest _ (next.neat_items expression)))

theorem GenericArg.neat_itemsEach : (as : List GenericArg) → ∀ row ∈ GenericArg.itemsEach as, neat row
  | [] => by simp [GenericArg.itemsEach]
  | a :: rest => List.forall_mem_cons.mpr ⟨a.neat_items, GenericArg.neat_itemsEach rest⟩

theorem Bound.neat_itemsEach : (bs : List Bound) → ∀ row ∈ Bound.itemsEach bs, neat row
  | [] => by simp [Bound.itemsEach]
  | b :: rest => List.forall_mem_cons.mpr ⟨b.neat_items, Bound.neat_itemsEach rest⟩

end

theorem Path.neat_itemsInExpression (p : Path) : neat p.itemsInExpression := by
  obtain ⟨root, head, tail, extent⟩ := p
  rw [Path.itemsInExpression]
  exact root.neat_items _ (Segment.neat_itemsTail true tail _ (head.neat_items true))

end Deasync
