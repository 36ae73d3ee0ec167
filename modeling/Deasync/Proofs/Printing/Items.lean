import Deasync.Syntax.Printer
import Deasync.Token

namespace Deasync

inductive Item where
  | mark (kind : Kind)
  | name (text : String)
  | lifetime (text : String)
  | quote (text : String)
  | length (text : String)
  | blank
  deriving DecidableEq

-- How the marks and words that printing needs are written.
def Kind.spelling : Kind → String
  | .mutWord => "mut" | .constWord => "const" | .dynWord => "dyn" | .implWord => "impl"
  | .asWord => "as" | .underscore => "_"
  | .openSquare => "[" | .closeSquare => "]" | .openRound => "(" | .closeRound => ")"
  | .colon => ":" | .bang => "!" | .semicolon => ";" | .equal => "=" | .comma => ","
  | .ampersand => "&" | .less => "<" | .greater => ">" | .plus => "+" | .question => "?"
  | .star => "*" | .pathSep => "::" | .arrow => "->"
  | _ => ""

def Item.text : Item → String
  | mark kind => kind.spelling
  | name text | lifetime text | quote text => text
  | length text => " " ++ text
  | blank => " "

def written (items : List Item) : List Char := items.flatMap fun item => item.text.toList

-- Rows of items with others between them.
def separated (between : List Item) : List (List Item) → List Item
  | [] => []
  | [only] => only
  | first :: rest => first ++ between ++ separated between rest

def listed (rows : List (List Item)) : List Item := separated [.mark .comma, .blank] rows

def summed (rows : List (List Item)) : List Item := separated [.blank, .mark .plus, .blank] rows

mutual

def Ty.items : Ty → List Item
  | .path p => p.items
  | .reference lifetime mutable inner _ =>
    .mark .ampersand :: ((match lifetime with | some name => [.lifetime name, .blank] | none => []) ++
      (if mutable then [.mark .mutWord, .blank] else []) ++ inner.items)
  | .pointer mutable inner _ =>
    .mark .star :: .mark (if mutable then .mutWord else .constWord) :: .blank :: inner.items
  | .tuple [only] _ => .mark .openRound :: (only.items ++ [.mark .comma, .mark .closeRound])
  | .tuple elements _ => .mark .openRound :: (listed (Ty.itemsEach elements) ++ [.mark .closeRound])
  | .paren inner _ => .mark .openRound :: (inner.items ++ [.mark .closeRound])
  | .slice inner _ => .mark .openSquare :: (inner.items ++ [.mark .closeSquare])
  | .array inner length _ =>
    .mark .openSquare :: (inner.items ++ [.mark .semicolon, .length length, .mark .closeSquare])
  | .never _ => [.mark .bang]
  | .infer _ => [.mark .underscore]
  | .traitObject bounds _ => .mark .dynWord :: .blank :: summed (Bound.itemsEach bounds)
  | .implTrait bounds _ => .mark .implWord :: .blank :: summed (Bound.itemsEach bounds)
  | .functionPointer text _ => [.quote text]
  | .macroCall text _ => [.quote text]

def Path.items : Path → List Item
  | .mk root head tail _ =>
    root.items ++ (head.items false ++ Segment.itemsTail false tail)

def Root.items : Root → List Item
  | .relative => []
  | .global => [.mark .pathSep]
  | .qualified self none => .mark .less :: (self.items ++ [.mark .greater, .mark .pathSep])
  | .qualified self (some path) => .mark .less :: (self.items ++
      ([.blank, .mark .asWord, .blank] ++ path.items ++ [.mark .greater, .mark .pathSep]))

def Segment.items (expression : Bool) : Segment → List Item
  | .plain name => [.name name]
  | .angled name turbofish arguments =>
    .name name :: ((if expression || turbofish then [.mark .pathSep] else []) ++
      .mark .less :: (listed (GenericArg.itemsEach arguments) ++ [.mark .greater]))
  | .call name inputs none =>
    .name name :: .mark .openRound :: (listed (Ty.itemsEach inputs) ++ [.mark .closeRound])
  | .call name inputs (some output) =>
    .name name :: .mark .openRound :: (listed (Ty.itemsEach inputs) ++ (.mark .closeRound ::
      .blank :: .mark .arrow :: .blank :: output.items))

def GenericArg.items : GenericArg → List Item
  | .lifetime name => [.lifetime name]
  | .type ty => ty.items
  | .binding name none ty => .name name :: .blank :: .mark .equal :: .blank :: ty.items
  | .binding name (some arguments) ty =>
    .name name :: .mark .less :: (listed (GenericArg.itemsEach arguments) ++ (.mark .greater ::
      .blank :: .mark .equal :: .blank :: ty.items))
  | .constraint name none bounds =>
    .name name :: .mark .colon :: .blank :: summed (Bound.itemsEach bounds)
  | .constraint name (some arguments) bounds =>
    .name name :: .mark .less :: (listed (GenericArg.itemsEach arguments) ++ (.mark .greater ::
      .mark .colon :: .blank :: summed (Bound.itemsEach bounds)))
  | .const text => [.quote text]

def Bound.items : Bound → List Item
  | .lifetime name => [.lifetime name]
  | .trait maybe binder paren path =>
    let inner := (if maybe then [.mark .question] else []) ++
      ((match binder with | some names => [.quote names, .blank] | none => []) ++ path.items)
    if paren then .mark .openRound :: (inner ++ [.mark .closeRound]) else inner

def Ty.itemsEach : List Ty → List (List Item)
  | [] => []
  | ty :: rest => ty.items :: Ty.itemsEach rest

def Segment.itemsTail (expression : Bool) : List Segment → List Item
  | [] => []
  | segment :: rest =>
    .mark .pathSep :: (segment.items expression ++ Segment.itemsTail expression rest)

def GenericArg.itemsEach : List GenericArg → List (List Item)
  | [] => []
  | argument :: rest => argument.items :: GenericArg.itemsEach rest

def Bound.itemsEach : List Bound → List (List Item)
  | [] => []
  | bound :: rest => bound.items :: Bound.itemsEach rest

end

def Path.itemsInExpression : Path → List Item
  | .mk root head tail _ => root.items ++ (head.items true ++ Segment.itemsTail true tail)

@[simp] theorem written_nil : written [] = [] := rfl

@[simp] theorem written_cons (item : Item) (items : List Item) :
    written (item :: items) = item.text.toList ++ written items := rfl

@[simp] theorem written_append (a b : List Item) : written (a ++ b) = written a ++ written b :=
  List.flatMap_append

theorem separated_cons (between first second : List Item) (rest : List (List Item)) :
    separated between (first :: second :: rest) =
      first ++ between ++ separated between (second :: rest) := by
  rw [separated]
  intro void
  cases void

theorem written_separated (between : List Item) (rows : List (List Item)) :
    written (separated between rows) = (written between).intercalate (rows.map written) := by
  induction rows with
  | nil => simp [separated]
  | cons first rest ih =>
    cases rest with
    | nil => simp [separated]
    | cons second rest =>
      rw [separated_cons, written_append, written_append, ih, List.map_cons, List.map_cons,
        List.map_cons, List.intercalate_cons_cons]

theorem written_listed {rows : List (List Item)} {texts : List String}
    (same : rows.map written = texts.map String.toList) :
    written (listed rows) = (", ".intercalate texts).toList := by
  rw [listed, written_separated, same, String.toList_intercalate]
  rfl

theorem written_summed {rows : List (List Item)} {texts : List String}
    (same : rows.map written = texts.map String.toList) :
    written (summed rows) = (" + ".intercalate texts).toList := by
  rw [summed, written_separated, same, String.toList_intercalate]
  rfl

-- Behind the first segment of a path the others follow with `::` in front.
theorem intercalate_separator (first : String) (rest : List String) :
    ("::".intercalate (first :: rest)).toList =
      first.toList ++ rest.flatMap fun text => ':' :: ':' :: text.toList := by
  induction rest generalizing first with
  | nil => simp
  | cons second rest ih =>
    rw [String.intercalate_cons_cons, String.toList_append, ih]
    simp

mutual

theorem Ty.written_items : (t : Ty) → written t.items = t.render.toList
  | .path p => by rw [Ty.items, Ty.render, p.written_items]
  | .reference lifetime mutable inner _ => by
    cases lifetime <;> cases mutable <;>
      simp [Ty.items, Ty.render, inner.written_items, Item.text, Kind.spelling]
  | .pointer mutable inner _ => by
    cases mutable <;> simp [Ty.items, Ty.render, inner.written_items, Item.text, Kind.spelling]
  | .tuple [] _ => by simp [Ty.items, Ty.render, Item.text, Kind.spelling, listed, separated,
      Ty.itemsEach, Ty.renderEach]
  | .tuple [only] _ => by
    simp [Ty.items, Ty.render, only.written_items, Item.text, Kind.spelling]
  | .tuple (first :: second :: rest) _ => by
    simp [Ty.items, Ty.render, written_listed (Ty.written_itemsEach (first :: second :: rest)),
      Item.text, Kind.spelling]
  | .paren inner _ => by simp [Ty.items, Ty.render, inner.written_items, Item.text, Kind.spelling]
  | .slice inner _ => by simp [Ty.items, Ty.render, inner.written_items, Item.text, Kind.spelling]
  | .array inner length _ => by
    simp [Ty.items, Ty.render, inner.written_items, Item.text, Kind.spelling]
  | .never _ => by simp [Ty.items, Ty.render, Item.text, Kind.spelling]
  | .infer _ => by simp [Ty.items, Ty.render, Item.text, Kind.spelling]
  | .traitObject bounds _ => by
    simp [Ty.items, Ty.render, written_summed (Bound.written_itemsEach bounds), Item.text, Kind.spelling]
  | .implTrait bounds _ => by
    simp [Ty.items, Ty.render, written_summed (Bound.written_itemsEach bounds), Item.text, Kind.spelling]
  | .functionPointer text _ => by simp [Ty.items, Ty.render, Item.text]
  | .macroCall text _ => by simp [Ty.items, Ty.render, Item.text]

theorem Path.written_items : (p : Path) → written p.items = p.render.toList
  | .mk root head tail _ => by
    rw [Path.items, Path.render, String.toList_append, intercalate_separator, written_append,
      written_append, root.written_items, head.written_items false, Segment.written_itemsTail false tail]

theorem Root.written_items : (r : Root) → written r.items = r.render.toList
  | .relative => rfl
  | .global => rfl
  | .qualified self none => by
    simp [Root.items, Root.render, self.written_items, Item.text, Kind.spelling]
  | .qualified self (some path) => by
    simp [Root.items, Root.render, self.written_items, path.written_items, Item.text, Kind.spelling]

theorem Segment.written_items (expression : Bool) :
    (s : Segment) → written (s.items expression) = (s.render expression).toList
  | .plain name => by simp [Segment.items, Segment.render, Item.text]
  | .angled name turbofish arguments => by
    have inner := written_listed (GenericArg.written_itemsEach arguments)
    cases expression <;> cases turbofish <;>
      simp [Segment.items, Segment.render, inner, Item.text, Kind.spelling]
  | .call name inputs none => by
    simp [Segment.items, Segment.render, written_listed (Ty.written_itemsEach inputs), Item.text,
      Kind.spelling]
  | .call name inputs (some output) => by
    simp [Segment.items, Segment.render, written_listed (Ty.written_itemsEach inputs),
      output.written_items, Item.text, Kind.spelling]

theorem GenericArg.written_items : (a : GenericArg) → written a.items = a.render.toList
  | .lifetime name => by simp [GenericArg.items, GenericArg.render, Item.text]
  | .type ty => by rw [GenericArg.items, GenericArg.render, ty.written_items]
  | .binding name none ty => by
    simp [GenericArg.items, GenericArg.render, ty.written_items, Item.text, Kind.spelling]
  | .binding name (some arguments) ty => by
    simp [GenericArg.items, GenericArg.render, ty.written_items,
      written_listed (GenericArg.written_itemsEach arguments), Item.text, Kind.spelling]
  | .constraint name none bounds => by
    simp [GenericArg.items, GenericArg.render, written_summed (Bound.written_itemsEach bounds),
      Item.text, Kind.spelling]
  | .constraint name (some arguments) bounds => by
    simp [GenericArg.items, GenericArg.render, written_summed (Bound.written_itemsEach bounds),
      written_listed (GenericArg.written_itemsEach arguments), Item.text, Kind.spelling]
  | .const text => by simp [GenericArg.items, GenericArg.render, Item.text]

theorem Bound.written_items : (b : Bound) → written b.items = b.render.toList
  | .lifetime name => by simp [Bound.items, Bound.render, Item.text]
  | .trait maybe binder paren path => by
    cases maybe <;> cases binder <;> cases paren <;>
      simp [Bound.items, Bound.render, path.written_items, Item.text, Kind.spelling]

theorem Ty.written_itemsEach :
    (ts : List Ty) → (Ty.itemsEach ts).map written = (Ty.renderEach ts).map String.toList
  | [] => rfl
  | t :: rest => by
    rw [Ty.itemsEach, Ty.renderEach, List.map_cons, List.map_cons, t.written_items,
      Ty.written_itemsEach rest]

theorem Segment.written_itemsTail (expression : Bool) : (ss : List Segment) →
    written (Segment.itemsTail expression ss) =
      (Segment.renderEach expression ss).flatMap fun text => ':' :: ':' :: text.toList
  | [] => rfl
  | s :: rest => by
    simp [Segment.itemsTail, Segment.renderEach, s.written_items expression,
      Segment.written_itemsTail expression rest, Item.text, Kind.spelling]

theorem GenericArg.written_itemsEach : (as : List GenericArg) →
    (GenericArg.itemsEach as).map written = (GenericArg.renderEach as).map String.toList
  | [] => rfl
  | a :: rest => by
    rw [GenericArg.itemsEach, GenericArg.renderEach, List.map_cons, List.map_cons, a.written_items,
      GenericArg.written_itemsEach rest]

theorem Bound.written_itemsEach :
    (bs : List Bound) → (Bound.itemsEach bs).map written = (Bound.renderEach bs).map String.toList
  | [] => rfl
  | b :: rest => by
    rw [Bound.itemsEach, Bound.renderEach, List.map_cons, List.map_cons, b.written_items,
      Bound.written_itemsEach rest]

end

theorem Path.written_itemsInExpression (p : Path) :
    written p.itemsInExpression = p.renderInExpression.toList := by
  obtain ⟨root, head, tail, extent⟩ := p
  rw [Path.itemsInExpression, Path.renderInExpression, String.toList_append, intercalate_separator,
    written_append, written_append, root.written_items, head.written_items true,
    Segment.written_itemsTail true tail]

end Deasync
