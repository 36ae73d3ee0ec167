import Deasync.Grammar.Rules
import Deasync.Proofs.Grammar.Acceptance
import Deasync.Proofs.Lexeme.Exchange
import Deasync.Proofs.Printing.Relexing

namespace Deasync

open Lexeme Grammar Rules

-- The kinds of words tell them apart from everything else.
def Kind.Names (k : Kind) : Prop :=
  Lexeme.Class.token k ∉ [.gap, .token .docLine, .token .docBlock] ∧
    k ∉ Kind.pairs.map Prod.snd ++ Kind.singles.map Prod.snd ∧
    k ∉ [.rawString, .char, .string, .number, .lifetime]

instance (k : Kind) : Decidable k.Names := inferInstanceAs (Decidable (_ ∧ _ ∧ _))

theorem Kind.Names.lexeme {cs : List Char} {kind : Kind} {n : Nat} (names : kind.Names)
    (found : lexeme cs = some (.token kind, n)) :
    word cs = some n ∧ kind = .ofWord (String.ofList (cs.take n)) := by
  obtain ⟨noComment, noMark, noLiteral⟩ := names
  cases lexeme_reads found with
  | word read same => exact ⟨read, same⟩
  | comment read => exact absurd (comment_class read) noComment
  | mark read =>
    obtain ⟨_, known, same⟩ := mark_class read
    cases same
    exact absurd known noMark
  | _ => exact absurd noLiteral (by decide)

theorem lexeme_word {cs : List Char} {kind : Kind} {n : Nat}
    (found : lexeme cs = some (.token kind, n)) (named : kind ∈ [.ident, .selfWord]) :
    word cs = some n ∧ kind = .ofWord (String.ofList (cs.take n)) := by
  have names : ∀ k ∈ [Kind.ident, .selfWord], k.Names := by decide
  exact (names kind named).lexeme found

-- Tokens that a text has: names are words, and a stretch of the text has the tokens it shows.
structure Faithful (text : String) (w : List Token) : Prop where
  words : ∀ t ∈ w, t.kind ∈ [.ident, .selfWord] → t.kind = .ofWord t.text
  rows : ∀ u, u <:+: w → u ≠ [] → kindsOf (scan (wording text u)).tokens = kindsOf u

theorem Faithful.stretch {text : String} {w u : List Token} (faithful : Faithful text w)
    (part : u <:+: w) : Faithful text u where
  words t listed := faithful.words t (part.subset listed)
  rows v inner := faithful.rows v (inner.trans part)

theorem placed_words {after : List Char} {cursor : Cursor} {pieces : List Piece}
    (lexed : Lexed after pieces) : ∀ t ∈ placed cursor pieces, t.kind ∈ [.ident, .selfWord] →
      t.kind = .ofWord t.text := by
  induction lexed generalizing cursor with
  | nil => intro t none; cases none
  | @cons found read pieces filled here _ ih =>
    intro t listed named
    cases found with
    | gap => exact ih t listed named
    | token kind =>
      rcases List.mem_cons.mp listed with rfl | listed
      · have word := (lexeme_word here named).2
        rwa [List.take_left] at word
      · exact ih t listed named

theorem kindsOf_shifted {offset : Nat} {w u : List Token}
    (shifted : List.Forall₂ (Token.Shifted offset) w u) : kindsOf u = kindsOf w := by
  induction shifted with
  | nil => rfl
  | cons first _ ih => rw [kindsOf_cons, kindsOf_cons, ih, first.kind]

theorem faithful_of_lex {text : String} {tokens : List Token} (lexed : lex text = .ok tokens) :
    Faithful text tokens where
  words := by
    obtain ⟨pieces, _, row, rfl⟩ := lex_eq_ok_iff.mp lexed
    exact placed_words row
  rows u part filled := by
    obtain ⟨before, later, rfl⟩ := part
    obtain ⟨first, begins⟩ : ∃ t, u.head? = some t :=
      Option.ne_none_iff_exists'.mp (by simpa using filled)
    obtain ⟨last, ends⟩ : ∃ t, u.getLast? = some t :=
      Option.ne_none_iff_exists'.mp (by simpa using filled)
    obtain ⟨own, sliced, shifted⟩ := lex_slice lexed begins ends
    have same : wording text u = Text.slice text first.extent.start last.extent.stop := by
      simp [wording, Extent.covering, begins, ends, Extent.slice, Extent.to]
    rw [same, lex_eq_ok_iff_scan.mp sliced, kindsOf_shifted shifted]

theorem covering_start (cursor : Cursor) {row : List Piece} {kind : Kind} {read : List Char}
    (begins : row.head? = some (.token kind, read)) :
    ∃ t, (placed cursor row).head? = some t ∧ t.kind = kind ∧ t.extent.start = cursor.offset := by
  obtain ⟨rest, rfl⟩ := List.head?_eq_some_iff.mp begins
  exact ⟨_, rfl, rfl, rfl⟩

theorem wording_placed {text : String} (front : List Char) {behind : List Char} {cursor : Cursor}
    {row : List Piece} {first last : Kind → Bool} (tight : Tight first last row)
    (whole : text.toList = front ++ (joined row ++ behind)) (here : cursor.offset = front.length) :
    wording text (placed cursor row) = String.ofList (joined row) := by
  obtain ⟨⟨_, _, begins, _⟩, _, _, ends, _⟩ := tight
  obtain ⟨a, head, _, start⟩ := covering_start cursor begins
  obtain ⟨b, final, _, stop⟩ := placed_getLast cursor ends
  have same : Extent.covering (placed cursor row) = a.extent.to b.extent := by
    simp [Extent.covering, head, final]
  rw [wording, same, Extent.slice, Extent.to, Text.slice, start, stop, whole, here]
  simp

-- A row of tokens is read from a row of pieces that begins and ends with them.
theorem placed_row {cursor : Cursor} {pieces : List Piece} {front row later : List Token}
    (filled : row ≠ []) (split : placed cursor pieces = front ++ (row ++ later)) :
    ∃ p r q, pieces = p ++ (r ++ q) ∧ placed (cursor.advance (joined p)) r = row ∧
      placed (cursor.advance (joined (p ++ r))) q = later ∧
      Tight (fun k => (kindsOf row).head? = some k) (fun k => (kindsOf row).getLast? = some k) r ∧
      ∀ t, row = [t] → r = [(.token t.kind, t.text.toList)] := by
  obtain ⟨first, rest, rfl⟩ := List.exists_cons_of_ne_nil filled
  rw [List.cons_append] at split
  obtain ⟨p, read, q, rfl, -, same, behind⟩ := placed_split split
  have text : first.text.toList = read := by
    rw [same]
    simp
  rcases List.eq_nil_or_concat rest with rfl | ⟨mid, last, rfl⟩
  · refine ⟨p, [(.token first.kind, read)], q, rfl, by rw [placed, placed, ← same], ?_, ?_, ?_⟩
    · rw [joined_append, advance_append]
      simpa using behind
    · exact ⟨⟨_, _, rfl, by simp⟩, _, _, rfl, by simp⟩
    · intro t only
      cases only
      rw [text]
  · rw [List.concat_eq_append, List.append_assoc, List.singleton_append] at behind
    obtain ⟨m, final, q, rfl, inner, own, outer⟩ := placed_split behind
    refine ⟨p, (.token first.kind, read) :: (m ++ [(.token last.kind, final)]), q, by simp, ?_, ?_, ?_,
      ?_⟩
    · rw [placed, placed_append, inner, placed, placed, ← own, ← same, List.concat_eq_append]
    · rw [← outer]
      simp [advance_append]
    · refine ⟨⟨_, _, rfl, by simp⟩, last.kind, final, ?_, decide_eq_true ?_⟩
      · rw [← List.cons_append, List.getLast?_concat]
      · rw [List.concat_eq_append, ← List.cons_append, kindsOf_append]
        exact List.getLast?_concat
    · intro t only
      have short := congrArg List.length only
      simp at short

-- The rows of tokens that items may be copied from.
def Item.Source (text : String) : Item → List Token → Prop
  | name own, row => ∃ t, row = [t] ∧ t.text = own ∧ t.kind = .ofWord own ∧ t.kind ∈ [.ident, .selfWord]
  | lifetime own, row => ∃ t, row = [t] ∧ t.text = own ∧ t.kind = .lifetime
  | quote own, row => own = wording text row ∧
    (∃ k, (kindsOf row).head? = some k ∧ k ∉ [.ampersand, .ampersands]) ∧
    ∃ k, (kindsOf row).getLast? = some k ∧ k ∉ [.docLine, .colon, .otherPunct, .equal]
  | length own, row => own = wording text row ∧ row ≠ []
  | _, _ => False

-- The texts of the items are copied from tokens of `w`, in order.
inductive Quoted (text : String) : List Item → List Token → Prop where
  | nil (w : List Token) : Quoted text [] w
  | bare {item : Item} {items : List Item} {w : List Token} : item.text? = none →
      Quoted text items w → Quoted text (item :: items) w
  | text {item : Item} {items : List Item} {row w : List Token} (front : List Token) :
      item.Source text row → Quoted text items w → Quoted text (item :: items) (front ++ (row ++ w))

namespace Quoted

variable {text : String} {a b : List Item} {w u : List Token}

theorem later (quoted : Quoted text a w) (front : List Token) : Quoted text a (front ++ w) := by
  induction quoted with
  | nil => exact .nil _
  | bare plain _ ih => exact .bare plain ih
  | text own copied rest _ =>
    rw [← List.append_assoc]
    exact .text _ copied rest

theorem append (first : Quoted text a w) (second : Quoted text b u) : Quoted text (a ++ b) (w ++ u) := by
  induction first with
  | nil w => exact second.later w
  | bare plain _ ih => exact .bare plain ih
  | text front copied _ ih =>
    rw [List.append_assoc, List.append_assoc]
    exact .text front copied ih

end Quoted

theorem Item.Source.ne_nil {text : String} {item : Item} {row : List Token}
    (source : item.Source text row) : row ≠ [] := by
  rintro rfl
  cases item with
  | mark kind => exact source
  | blank => exact source
  | name own => obtain ⟨t, void, _⟩ := source; cases void
  | lifetime own => obtain ⟨t, void, _⟩ := source; cases void
  | quote own => obtain ⟨_, ⟨k, void, _⟩, _⟩ := source; cases void
  | length own => exact source.2 rfl

theorem Quoted.drawn {text : String} {items : List Item} {w : List Token} (quoted : Quoted text items w)
    (front : List Char) {pieces : List Piece} (whole : text.toList = front ++ joined pieces)
    (lexed : Lexed [] pieces) {cursor : Cursor} (here : cursor.offset = front.length)
    (tokens : placed cursor pieces = w) : Drawn items (joined pieces) := by
  induction quoted generalizing front pieces cursor with
  | nil => exact .nil _
  | bare plain _ ih => exact .bare plain (ih front whole lexed here tokens)
  | @text item items row w before source _ ih =>
    obtain ⟨p, r, q, rfl, own, behind, tight, single⟩ := placed_row source.ne_nil tokens
    obtain ⟨_, onward⟩ := lexed_append.mp lexed
    obtain ⟨inner, outer⟩ := lexed_append.mp onward
    rw [List.append_nil] at inner
    rw [joined_append, joined_append] at whole ⊢
    have stands : wording text row = String.ofList (joined r) := by
      rw [← own]
      refine wording_placed (front ++ joined p) tight (by rw [whole, List.append_assoc]) ?_
      simp [here]
    refine .text _ ?_ inner (ih (front ++ joined p ++ joined r) ?_ outer ?_ behind)
    · obtain ⟨⟨a, x, begins, first⟩, b, y, ends, last⟩ := tight
      cases item with
      | mark kind => exact source.elim
      | blank => exact source.elim
      | name text =>
        obtain ⟨t, rfl, rfl, kind, named⟩ := source
        rw [Item.From, ← kind]
        exact ⟨single t rfl, named⟩
      | lifetime text =>
        obtain ⟨t, rfl, rfl, kind⟩ := source
        rw [Item.From, ← kind]
        exact single t rfl
      | quote text =>
        obtain ⟨rfl, ⟨k, head, plain⟩, l, final, other⟩ := source
        rw [stands]
        cases (of_decide_eq_true first).symm.trans head
        cases (of_decide_eq_true last).symm.trans final
        exact ⟨by simp, ⟨_, _, begins, decide_eq_true plain⟩, _, _, ends, decide_eq_true other⟩
      | length text =>
        obtain ⟨rfl, _⟩ := source
        rw [stands]
        exact ⟨by simp, ⟨_, _, begins, rfl⟩, _, _, ends, rfl⟩
    · rw [whole]
      simp
    · simp [here]

-- The items that leave something to read.
def solid (items : List Item) : List Item := items.filter (· ≠ .blank)

@[simp] theorem solid_nil : solid [] = [] := rfl

@[simp] theorem solid_append (a b : List Item) : solid (a ++ b) = solid a ++ solid b :=
  List.filter_append ..

@[simp] theorem solid_blank (items : List Item) : solid (.blank :: items) = solid items := rfl

@[simp] theorem solid_mark (kind : Kind) (items : List Item) :
    solid (.mark kind :: items) = .mark kind :: solid items := rfl

@[simp] theorem solid_name (text : String) (items : List Item) :
    solid (.name text :: items) = .name text :: solid items := rfl

@[simp] theorem solid_lifetime (text : String) (items : List Item) :
    solid (.lifetime text :: items) = .lifetime text :: solid items := rfl

@[simp] theorem solid_quote (text : String) (items : List Item) :
    solid (.quote text :: items) = .quote text :: solid items := rfl

@[simp] theorem solid_length (text : String) (items : List Item) :
    solid (.length text :: items) = .length text :: solid items := rfl

theorem solid_cons {a : Item} (full : a ≠ .blank) (items : List Item) :
    solid (a :: items) = a :: solid items :=
  List.filter_cons_of_pos (decide_eq_true full)

theorem neat_solid {items front : List Item} (row : neat items) :
    solid items ≠ front ++ [.mark .ampersand] := by
  intro ends
  induction items generalizing front with
  | nil => simp at ends
  | cons a items ih =>
    by_cases blank : a = .blank
    · subst blank
      exact ih (neat_tail row) ends
    rw [solid_cons blank] at ends
    cases front with
    | cons b front =>
      obtain ⟨rfl, rest⟩ := List.cons.inj ends
      exact ih (neat_tail row) rest
    | nil =>
      obtain ⟨rfl, void⟩ := List.cons.inj ends
      cases items with
      | nil => cases row
      | cons b items =>
        have next : b = .blank := by
          by_contra other
          rw [solid_cons other] at void
          cases void
        exact of_decide_eq_true (Bool.and_eq_true_iff.mp row).1 next

-- The items that are copied from a text.
def texts (items : List Item) : List Item := items.filter fun item => item.text?.isSome

@[simp] theorem texts_nil : texts [] = [] := rfl

@[simp] theorem texts_append (a b : List Item) : texts (a ++ b) = texts a ++ texts b :=
  List.filter_append ..

@[simp] theorem texts_mark (kind : Kind) (items : List Item) :
    texts (.mark kind :: items) = texts items := rfl

@[simp] theorem texts_name (text : String) (items : List Item) :
    texts (.name text :: items) = .name text :: texts items := rfl

theorem quoted_texts {text : String} {items : List Item} {w : List Token} :
    Quoted text (texts items) w ↔ Quoted text items w := by
  induction items generalizing w with
  | nil => exact Iff.rfl
  | cons item items ih =>
    cases own : item.text? with
    | none =>
      have left : texts (item :: items) = texts items := List.filter_cons_of_neg (by simp [own])
      rw [left, ih]
      constructor
      · exact .bare own
      · intro quoted
        cases quoted with
        | bare _ rest => exact rest
        | text _ copied _ => cases item <;> first | exact copied.elim | cases own
    | some text =>
      have left : texts (item :: items) = item :: texts items := List.filter_cons_of_pos (by simp [own])
      rw [left]
      constructor
      · intro quoted
        cases quoted with
        | bare void _ => cases own.symm.trans void
        | text front copied rest => exact .text front copied (ih.mp rest)
      · intro quoted
        cases quoted with
        | bare void _ => cases own.symm.trans void
        | text front copied rest => exact .text front copied (ih.mpr rest)

-- Only the texts among the items count.
theorem Quoted.of_texts {text : String} {a b : List Item} {w : List Token} (quoted : Quoted text a w)
    (same : texts b = texts a) : Quoted text b w :=
  quoted_texts.mp (same ▸ quoted_texts.mpr quoted)

@[simp] theorem texts_solid (items : List Item) : texts (solid items) = texts items := by
  rw [texts, solid, List.filter_filter]
  refine List.filter_congr fun item _ => ?_
  cases item <;> rfl

-- The rows of tokens that items are read as.
def Item.Copy (text : String) : Item → List Token → Prop
  | name own, row => ∃ t, row = [t] ∧ t.text = own ∧ t.kind = .ofWord own
  | lifetime own, row => ∃ t, row = [t] ∧ t.text = own ∧ t.kind = .lifetime
  | quote own, row | length own, row => wording text row = own ∧ kindsOf row = kindsOf (scan own).tokens
  | _, _ => False

inductive Shown (text : String) : List Item → List Token → Prop where
  | nil : Shown text [] []
  | mark {t : Token} {items : List Item} {w : List Token} : Shown text items w →
      Shown text (.mark t.kind :: items) (t :: w)
  | pair {t : Token} {items : List Item} {w : List Token} : t.kind = .ampersands → Shown text items w →
      Shown text (.mark .ampersand :: .mark .ampersand :: items) (t :: w)
  | text {item : Item} {items : List Item} {row w : List Token} : item.Copy text row →
      Shown text items w → Shown text (item :: items) (row ++ w)

-- Only two ampersands are read as one token.
theorem shown_mark {text : String} {kind : Kind} {items : List Item} {w : List Token}
    (shown : Shown text (.mark kind :: items) w) :
    (∃ t u, w = t :: u ∧ t.kind = kind ∧ Shown text items u) ∨
      kind = .ampersand ∧ ∃ t u rest, w = t :: u ∧ t.kind = .ampersands ∧
        items = .mark .ampersand :: rest ∧ Shown text rest u := by
  generalize same : Item.mark kind :: items = row at shown
  cases shown with
  | nil => cases same
  | @mark t others u rest =>
    obtain ⟨own, rfl⟩ := List.cons.inj same
    exact .inl ⟨t, u, rfl, (Item.mark.inj own).symm, rest⟩
  | @pair t others u pair rest =>
    cases same
    exact .inr ⟨rfl, t, u, others, rfl, pair, rfl, rest⟩
  | text copied rest =>
    obtain ⟨rfl, _⟩ := List.cons.inj same
    exact copied.elim

theorem shown_text {text : String} {item : Item} {items : List Item} {w : List Token} {own : String}
    (textual : item.text? = some own) (shown : Shown text (item :: items) w) :
    ∃ row u, w = row ++ u ∧ item.Copy text row ∧ Shown text items u := by
  generalize same : item :: items = row at shown
  cases shown with
  | nil => cases same
  | mark _ =>
    obtain ⟨rfl, _⟩ := List.cons.inj same
    cases textual
  | pair _ _ =>
    obtain ⟨rfl, _⟩ := List.cons.inj same
    cases textual
  | @text _ _ row u copied rest =>
    obtain ⟨rfl, rfl⟩ := List.cons.inj same
    exact ⟨row, u, rfl, copied, rest⟩

theorem Shown.split {text : String} {a b : List Item} {w : List Token} (shown : Shown text (a ++ b) w)
    (other : ∀ front, a ≠ front ++ [.mark .ampersand]) :
    ∃ x y, w = x ++ y ∧ Shown text a x ∧ Shown text b y := by
  generalize whole : a ++ b = items at shown
  induction shown generalizing a with
  | nil =>
    obtain ⟨rfl, rfl⟩ := List.append_eq_nil_iff.mp whole
    exact ⟨[], [], rfl, .nil, .nil⟩
  | @mark t items w rest ih =>
    cases a with
    | nil =>
      obtain rfl : b = _ := whole
      exact ⟨[], _, rfl, .nil, .mark rest⟩
    | cons item a =>
      obtain ⟨rfl, same⟩ := List.cons.inj whole
      have left : ∀ front, a ≠ front ++ [.mark .ampersand] := by
        rintro front rfl
        exact other (_ :: front) rfl
      obtain ⟨x, y, rfl, first, second⟩ := ih left same
      exact ⟨t :: x, y, rfl, .mark first, second⟩
  | @pair t items w kind rest ih =>
    cases a with
    | nil =>
      obtain rfl : b = _ := whole
      exact ⟨[], _, rfl, .nil, .pair kind rest⟩
    | cons item a =>
      obtain ⟨rfl, rest⟩ := List.cons.inj whole
      cases a with
      | nil => exact absurd rfl (other [])
      | cons next a =>
        obtain ⟨rfl, same⟩ := List.cons.inj rest
        have left : ∀ front, a ≠ front ++ [.mark .ampersand] := by
          rintro front rfl
          exact other (_ :: _ :: front) rfl
        obtain ⟨x, y, rfl, first, second⟩ := ih left same
        exact ⟨t :: x, y, rfl, .pair kind first, second⟩
  | @text item items row w copied rest ih =>
    cases a with
    | nil =>
      obtain rfl : b = _ := whole
      exact ⟨[], _, rfl, .nil, .text copied rest⟩
    | cons head a =>
      obtain ⟨rfl, same⟩ := List.cons.inj whole
      have left : ∀ front, a ≠ front ++ [.mark .ampersand] := by
        rintro front rfl
        exact other (_ :: front) rfl
      obtain ⟨x, y, rfl, first, second⟩ := ih left same
      exact ⟨row ++ x, y, by rw [List.append_assoc], .text copied first, second⟩

theorem kindsOf_placed (a b : Cursor) (row : List Piece) :
    kindsOf (placed a row) = kindsOf (placed b row) := by
  induction row generalizing a b with
  | nil => rfl
  | cons piece row ih =>
    obtain ⟨found, read⟩ := piece
    cases found with
    | gap => exact ih _ _
    | token kind => rw [placed, placed, kindsOf_cons, kindsOf_cons, ih]

-- What answers items is lexed as tokens that show them.
theorem Answers.shown {text : String} {items : List Item} {pieces : List Piece}
    (answers : Answers items pieces) (front : List Char) (whole : text.toList = front ++ joined pieces)
    (lexed : Lexed [] pieces) (cursor : Cursor) (here : cursor.offset = front.length) :
    Shown text (solid items) (placed cursor pieces) := by
  induction answers generalizing front cursor with
  | nil => exact .nil
  | @gap items pieces read rest ih =>
    cases lexed with
    | cons _ _ lexed => exact ih (front ++ read) (by simpa using whole) lexed _ (by simp [here])
  | blank _ ih => exact ih front whole lexed cursor here
  | @mark kind read items pieces rest ih =>
    cases lexed with
    | cons _ _ lexed =>
      have behind := ih (front ++ read) (by simpa using whole) lexed (cursor.advance read)
        (by simp [here])
      rw [solid_mark, placed]
      exact .mark (t := ⟨kind, _, _⟩) behind
  | @pair read items pieces rest ih =>
    cases lexed with
    | cons _ _ lexed =>
      have behind := ih (front ++ read) (by simpa using whole) lexed (cursor.advance read)
        (by simp [here])
      rw [solid_mark, solid_mark, placed]
      exact .pair rfl behind
  | @text item row items pieces copied rest ih =>
    obtain ⟨first, second⟩ := lexed_append.mp lexed
    rw [joined_append] at whole
    have behind := ih (front ++ joined row) (by simpa using whole) second (cursor.advance (joined row))
      (by simp [here])
    rw [placed_append]
    have copy : item.Copy text (placed cursor row) := by
      cases item with
      | mark kind => exact copied.elim
      | blank => exact copied.elim
      | name own =>
        obtain ⟨rfl, _⟩ := copied
        exact ⟨_, rfl, by simp, rfl⟩
      | lifetime own =>
        cases copied
        exact ⟨_, rfl, by simp, rfl⟩
      | quote own | length own =>
        obtain ⟨same, tight⟩ := copied
        refine ⟨?_, ?_⟩
        · rw [wording_placed front tight whole here, same, String.ofList_toList]
        · rw [scan_joined first same]
          exact kindsOf_placed ..
    cases item with
    | mark kind => exact copy.elim
    | blank => exact copy.elim
    | name own => exact .text copy behind
    | lifetime own => exact .text copy behind
    | quote own => exact .text copy behind
    | length own => exact .text copy behind

end Deasync
