import Deasync.Proofs.Lexeme.Growth
import Deasync.Proofs.Lexing
import Deasync.Proofs.Printing.Spacing

namespace Deasync

open Lexeme

theorem Lexed.grow {old new : List Char} {row : List Piece} (lexed : Lexed old row) (shy : Shy old new)
    (quiet : Quiet new) (last : ∀ piece ∈ row.getLast?, ∀ q ∈ new.head?, piece.1.endsBefore q) :
    Lexed new row := by
  cases new with
  | nil => exact Lexed.cut lexed
  | cons q v =>
    induction lexed with
    | nil => exact .nil
    | @cons found read pieces filled here rest ih =>
      have alone : Lexed [] pieces := Lexed.cut rest
      refine .cons filled ?_ (ih ?_)
      · rw [← List.append_assoc] at here ⊢
        refine lexeme_grown (by simp [filled]) shy quiet here (by simp) ?_ ?_
        · intro longer
          rw [List.drop_left]
          cases alone with
          | nil => simp at longer
          | cons _ next _ =>
            rw [List.append_nil] at next
            rw [joined_cons, next]
            exact Option.some_ne_none _
        · intro ends
          cases alone with
          | nil => exact last _ rfl q rfl
          | cons full _ _ => simp [full] at ends
      · intro piece ends
        cases pieces with
        | nil => cases ends
        | cons next pieces => exact last piece (by rwa [List.getLast?_cons_cons])

def Item.text? : Item → Option String
  | name text | lifetime text | quote text | length text => some text
  | _ => none

-- A row that begins and ends with tokens, of certain kinds.
def Tight (first last : Kind → Bool) (row : List Piece) : Prop :=
  (∃ kind read, row.head? = some (.token kind, read) ∧ first kind) ∧
    ∃ kind read, row.getLast? = some (.token kind, read) ∧ last kind

-- The rows that items are copied from. What is no array length does not begin with an ampersand, nor
-- end with what a quiet character could continue.
def Item.From : Item → List Piece → Prop
  | name text, row =>
    row = [(.token (.ofWord text), text.toList)] ∧ Kind.ofWord text ∈ [.ident, .selfWord]
  | lifetime text, row => row = [(.token .lifetime, text.toList)]
  | quote text, row => joined row = text.toList ∧
    Tight (· ∉ [.ampersand, .ampersands]) (· ∉ [.docLine, .colon, .otherPunct, .equal]) row
  | length text, row => joined row = text.toList ∧ Tight (fun _ => true) (fun _ => true) row
  | _, _ => False

-- The texts of the items stand one behind the other in `chars`.
inductive Drawn : List Item → (chars : List Char) → Prop where
  | nil (chars : List Char) : Drawn [] chars
  | bare {item : Item} {items : List Item} {chars : List Char} : item.text? = none →
      Drawn items chars → Drawn (item :: items) chars
  | text {item : Item} {items : List Item} {row : List Piece} {chars : List Char} (front : List Char) :
      item.From row → Lexed chars row → Drawn items chars →
      Drawn (item :: items) (front ++ (joined row ++ chars))

theorem Item.From.whole {item : Item} {row : List Piece} {text : String} (drawn : item.From row)
    (same : item.text? = some text) : joined row = text.toList := by
  cases item <;> cases same
  · rw [drawn.1]
    simp
  · rw [drawn]
    simp
  · exact drawn.1
  · exact drawn.1

theorem Item.From.text {item : Item} {row : List Piece} (drawn : item.From row) :
    ∃ text, item.text? = some text := by
  cases item with
  | mark kind => exact drawn.elim
  | blank => exact drawn.elim
  | name text => exact ⟨text, rfl⟩
  | lifetime text => exact ⟨text, rfl⟩
  | quote text => exact ⟨text, rfl⟩
  | length text => exact ⟨text, rfl⟩

-- The marks that occur in neat rows.
def Kind.printed : List Kind :=
  [.mutWord, .constWord, .dynWord, .implWord, .asWord, .underscore, .openSquare, .closeSquare,
   .openRound, .closeRound, .bang, .semicolon, .comma, .ampersand, .less, .greater, .plus, .question,
   .pathSep, .arrow, .colon, .equal, .star]

theorem neat_tail {item : Item} {items : List Item} (row : neat (item :: items)) : neat items := by
  cases items with
  | nil => rfl
  | cons next items =>
    rw [neat, Bool.and_eq_true] at row
    exact row.2

theorem neat_printed {kind : Kind} {items : List Item} (row : neat (.mark kind :: items)) :
    kind ∈ Kind.printed := by
  cases items with
  | nil => cases kind <;> first | decide | cases row
  | cons next items =>
    have beside := (Bool.and_eq_true_iff.mp row).1
    cases kind <;> first | decide | cases beside

theorem quiet_written {items : List Item} (quiet : ∀ b ∈ items.head?, b.isQuiet) :
    Quiet (written items) := by
  cases items with
  | nil => intro c none; cases none
  | cons b items =>
    have first := quiet b rfl
    cases b with
    | blank => intro c same; cases same; decide
    | mark kind =>
      intro c same
      have listed := of_decide_eq_true first
      simp only [List.mem_cons, List.not_mem_nil, or_false] at listed
      rcases listed with rfl | rfl | rfl | rfl | rfl | rfl | rfl | rfl | rfl <;> cases same <;> decide
    | _ => cases first

-- Behind a text, or behind a word, something quiet follows.
theorem quiet_behind {item : Item} {items : List Item} (row : neat (item :: items))
    (solid : item.isEager = false)
    (plain : ∀ kind ∈ [Kind.colon, .equal, .star, .ampersand], item ≠ .mark kind) :
    Quiet (written items) := by
  apply quiet_written
  cases items with
  | nil => intro b none; cases none
  | cons next items =>
    intro b same
    cases same
    have beside := (Bool.and_eq_true_iff.mp row).1
    unfold Item.beside at beside
    split at beside
    · rw [of_decide_eq_true beside]
      rfl
    · exact absurd rfl (plain .colon (by decide))
    · exact absurd rfl (plain .equal (by decide))
    · exact absurd rfl (plain .star (by decide))
    · exact absurd rfl (plain .ampersand (by decide))
    · rw [solid, Bool.false_or, Bool.and_eq_true] at beside
      exact beside.2

theorem quiet_of_text {item : Item} {items : List Item} {text : String}
    (same : item.text? = some text) (row : neat (item :: items)) : Quiet (written items) := by
  cases item <;> cases same <;> exact quiet_behind row rfl (by simp)

-- A star is followed by a word.
theorem through_star {stop : List Char} (listed : stop ∈ closers) {items : List Item}
    (row : neat (.mark .star :: items)) (unclosed : through stop (written items) = none) :
    through stop ('*' :: written items) = none := by
  rw [through, unclosed, if_neg]
  · rfl
  · cases items with
    | nil => cases row
    | cons next items =>
      have beside := of_decide_eq_true (Bool.and_eq_true_iff.mp row).1
      simp only [closers, List.mem_cons, List.not_mem_nil, or_false] at listed
      rcases beside with rfl | rfl <;> rcases listed with rfl | rfl | rfl | rfl <;>
        simp [Item.text, Kind.spelling]

theorem through_mark {stop : List Char} (listed : stop ∈ closers) {kind : Kind} {items : List Item}
    (row : neat (.mark kind :: items)) (unclosed : through stop (written items) = none) :
    through stop (written (.mark kind :: items)) = none := by
  have printed := neat_printed row
  by_cases star : kind = .star
  · subst star
    exact through_star listed row unclosed
  · refine through_plain listed ?_ unclosed
    have plain : ∀ k ∈ Kind.printed, k ≠ .star → k.spelling.toList.all (· ∉ ['"', '*']) := by
      decide +kernel
    have own := List.all_eq_true.mp (plain kind printed star)
    exact fun c listed => of_decide_eq_true (own c listed)

-- What the items leave open behind them in the text they come from is open where they are printed.
theorem Drawn.shy {items : List Item} {x : List Char} (drawn : Drawn items x) (row : neat items) :
    Shy x (written items) := by
  induction drawn with
  | nil chars => intro stop _ _; rfl
  | @bare item items chars plain _ ih =>
    intro stop listed unclosed
    have behind := ih (neat_tail row) stop listed unclosed
    cases item with
    | mark kind => exact through_mark listed row behind
    | blank =>
      have single : ∀ c ∈ [' '], c ∉ ['"', '*'] := by simp
      exact through_plain listed single behind
    | _ => cases plain
  | @text item items own chars front copied lexed _ ih =>
    intro stop listed unclosed
    have filled := (closer_cases listed).1
    obtain ⟨text, same⟩ := copied.text
    have inside := through_suffix front unclosed
    have behind := ih (neat_tail row) stop listed (through_suffix _ inside)
    have whole := through_quiet listed (quiet_of_text same row) ((cuttable_through filled).lost inside)
      behind
    rw [copied.whole same] at whole
    cases item with
    | length text =>
      cases same
      have single : ∀ c ∈ [' '], c ∉ ['"', '*'] := by simp
      have spaced := through_plain listed single whole
      simpa [Item.text] using spaced
    | mark kind => cases same
    | blank => cases same
    | _ => cases same; exact whole

theorem lexeme_word_mark {kind : Kind} (word : (Item.mark kind).isWordMark) {cs : List Char}
    (quiet : Quiet cs) :
    lexeme (kind.spelling.toList ++ cs) = some (.token kind, kind.spelling.toList.length) := by
  have words : ∀ k ∈ [Kind.mutWord, .constWord, .dynWord, .implWord, .asWord, .underscore],
      k.spelling.toList.head?.any (fun c => startsWord c && c ∉ openers) ∧
        k.spelling.toList.tail.all continuesWord ∧ Kind.ofWord k.spelling = k := by decide
  obtain ⟨first, letters, own⟩ := words kind (of_decide_eq_true word)
  obtain ⟨c, begins, facts⟩ := (Option.any_eq_true _ _).mp first
  obtain ⟨starts, plain⟩ := Bool.and_eq_true_iff.mp facts
  have ends : ∀ q ∈ cs.head?, ¬continuesWord q := by
    intro q first
    obtain ⟨v, rfl⟩ := List.head?_eq_some_iff.mp first
    exact fun letter => quiet.not_solid (isSolid_of_continues letter)
  have whole : kind.spelling.toList = c :: kind.spelling.toList.tail :=
    (List.cons_head?_tail begins).symm
  rw [whole, lexeme_whole_word starts (of_decide_eq_true plain) (List.all_eq_true.mp letters) ends,
    ← whole, String.ofList_toList, own]

theorem lexeme_eager_mark {kind : Kind} (eager : (Item.mark kind).isEager) (cs : List Char) :
    lexeme (kind.spelling.toList ++ cs) = some (.token kind, kind.spelling.toList.length) := by
  have listed := of_decide_eq_true eager
  simp only [List.mem_cons, List.not_mem_nil, or_false] at listed
  rcases listed with rfl | rfl | rfl | rfl | rfl | rfl | rfl | rfl | rfl | rfl | rfl | rfl | rfl <;>
    cases cs <;> rfl

theorem lexeme_ampersand {cs : List Char} (other : cs.head? ≠ some '&') :
    lexeme ('&' :: cs) = some (.token .ampersand, 1) := by
  cases cs with
  | nil => rfl
  | cons d cs =>
    have different : d ≠ '&' := fun same => other (same ▸ rfl)
    have single : Kind.pairs.lookup ('&', d) = none := by simp [Kind.pairs, different]
    have alone : mark ('&' :: d :: cs) = some (.token .ampersand, 1) := by
      simp only [mark, single]
      rfl
    rw [← alone]
    rfl

theorem lexeme_ampersand_kind {cs : List Char} {kind : Kind} {n : Nat}
    (found : lexeme ('&' :: cs) = some (.token kind, n)) : kind ∈ [.ampersand, .ampersands] := by
  by_cases second : cs.head? = some '&'
  · obtain ⟨more, rfl⟩ := List.head?_eq_some_iff.mp second
    cases found
    decide
  · rw [lexeme_ampersand second] at found
    cases found
    decide

-- A blank in front of a row is a gap, or makes the gap longer that the row begins with.
theorem Lexed.blank {pieces : List Piece} (lexed : Lexed [] pieces) :
    Lexed [] ((.gap, [' ']) :: pieces) ∨
      ∃ read rest, pieces = (.gap, read) :: rest ∧ Lexed [] ((.gap, ' ' :: read) :: rest) := by
  cases lexed with
  | nil => exact .inl (.cons (by simp) rfl .nil)
  | @cons found read rest filled here later =>
    obtain ⟨c, more, rfl⟩ := List.exists_cons_of_ne_nil filled
    by_cases blank : isGapChar c
    · right
      rw [List.cons_append, lexeme_gap blank] at here
      obtain ⟨rfl, size⟩ := Prod.mk.inj (Option.some.inj here)
      refine ⟨c :: more, rest, rfl, .cons (by simp) ?_ later⟩
      rw [List.cons_append, lexeme_gap rfl, List.length_cons, ← size, List.cons_append, run,
        List.takeWhile_cons_of_pos blank]
      rfl
    · left
      refine .cons (by simp) ?_ (.cons filled here later)
      rw [List.cons_append, lexeme_gap rfl]
      simp [run, blank]

inductive Answers : List Item → List Piece → Prop where
  | nil : Answers [] []
  | gap {items : List Item} {pieces : List Piece} (read : List Char) : Answers items pieces →
      Answers items ((.gap, read) :: pieces)
  | blank {items : List Item} {pieces : List Piece} : Answers items pieces →
      Answers (.blank :: items) pieces
  | mark {kind : Kind} {read : List Char} {items : List Item} {pieces : List Piece} :
      Answers items pieces → Answers (.mark kind :: items) ((.token kind, read) :: pieces)
  | pair {read : List Char} {items : List Item} {pieces : List Piece} : Answers items pieces →
      Answers (.mark .ampersand :: .mark .ampersand :: items) ((.token .ampersands, read) :: pieces)
  | text {item : Item} {row : List Piece} {items : List Item} {pieces : List Piece} : item.From row →
      Answers items pieces → Answers (item :: items) (row ++ pieces)

theorem Item.From.first {item : Item} {row : List Piece} (copied : item.From row) :
    ∃ kind read rest, row = (.token kind, read) :: rest := by
  cases item with
  | mark kind => exact copied.elim
  | blank => exact copied.elim
  | name text => exact ⟨_, _, _, copied.1⟩
  | lifetime text => exact ⟨_, _, _, copied⟩
  | quote text | length text =>
    obtain ⟨kind, read, begins, _⟩ := copied.2.1
    obtain ⟨rest, rfl⟩ := List.head?_eq_some_iff.mp begins
    exact ⟨kind, read, rest, rfl⟩

-- A row ends with the mark that the items end with, but for ampersands.
def EndsAlike (items : List Item) (pieces : List Piece) : Prop :=
  ∀ kind ≠ .ampersand, items.getLast? = some (.mark kind) →
    ∃ read, pieces.getLast? = some (.token kind, read)

theorem EndsAlike.later {items : List Item} {pieces : List Piece} (ends : EndsAlike items pieces)
    (front : List Piece) : EndsAlike items (front ++ pieces) := by
  intro kind other last
  obtain ⟨read, final⟩ := ends kind other last
  exact ⟨read, by rw [List.getLast?_append, final, Option.some_or]⟩

theorem EndsAlike.behind {item : Item} {items : List Item} {pieces : List Piece}
    (ends : EndsAlike items pieces)
    (inner : ∀ kind ≠ .ampersand, item = .mark kind → items = [] →
      ∃ read, pieces.getLast? = some (.token kind, read)) : EndsAlike (item :: items) pieces := by
  intro kind other last
  by_cases void : items = []
  · subst void
    exact inner kind other (Option.some.inj last) rfl
  · rw [← List.singleton_append, List.getLast?_append_of_ne_nil _ void] at last
    exact ends kind other last

theorem EndsAlike.regap {items : List Item} {pieces : List Piece} {read : List Char}
    (ends : EndsAlike items ((.gap, read) :: pieces)) (more : List Char) :
    EndsAlike items ((.gap, more) :: pieces) := by
  intro kind other last
  obtain ⟨own, final⟩ := ends kind other last
  cases pieces with
  | nil => cases final
  | cons piece pieces => exact ⟨own, final⟩

-- How long a gap is does not matter.
theorem Answers.regap {items : List Item} {pieces : List Piece} {read : List Char}
    (answered : Answers items ((.gap, read) :: pieces)) (other : List Char) :
    Answers items ((.gap, other) :: pieces) := by
  generalize same : (Class.gap, read) :: pieces = row at answered
  induction answered with
  | nil => cases same
  | gap own rest _ =>
    cases same
    exact .gap other rest
  | blank _ ih => exact .blank (ih same)
  | mark _ _ => cases same
  | pair _ _ => cases same
  | text copied _ _ =>
    obtain ⟨kind, own, rest, rfl⟩ := copied.first
    cases same

-- The kind that a copied text begins with, and so its first character.
theorem Item.From.not_ampersand {item : Item} {row : List Piece} {chars : List Char}
    (copied : item.From row) (lexed : Lexed chars row) (short : ∀ text, item ≠ .length text) :
    (joined row).head? ≠ some '&' := by
  intro begins
  obtain ⟨kind, read, rest, rfl⟩ := copied.first
  have other : kind ∉ [.ampersand, .ampersands] := by
    cases item with
    | mark kind => exact copied.elim
    | blank => exact copied.elim
    | length text => exact absurd rfl (short text)
    | name text =>
      cases copied.1
      rcases List.mem_pair.mp copied.2 with same | same <;> rw [same] <;> decide
    | lifetime text =>
      cases copied
      decide
    | quote text =>
      obtain ⟨first, chars, same, plain⟩ := copied.2.1
      cases same
      exact of_decide_eq_true plain
  cases lexed with
  | cons filled here _ =>
    obtain ⟨c, more, rfl⟩ := List.exists_cons_of_ne_nil filled
    cases begins
    exact other (lexeme_ampersand_kind here)

-- Only an ampersand is printed with an ampersand in front.
theorem Drawn.first {items : List Item} {x : List Char} (drawn : Drawn items x) (row : neat items)
    (begins : (written items).head? = some '&') : items.head? = some (.mark .ampersand) := by
  cases drawn with
  | nil => cases begins
  | bare plain rest =>
    rename_i item items
    cases item with
    | mark kind =>
      have only : ∀ k ∈ Kind.printed,
          k = .ampersand ∨ k.spelling.toList ≠ [] ∧ k.spelling.toList.head? ≠ some '&' := by
        decide
      rcases only kind (neat_printed row) with rfl | ⟨filled, other⟩
      · rfl
      · rw [written_cons, Item.text, List.head?_append_of_ne_nil _ filled] at begins
        exact absurd begins other
    | blank => cases begins
    | _ => cases plain
  | text front copied lexed rest =>
    rename_i item items own chars
    exfalso
    obtain ⟨kind, read, rest, rfl⟩ := copied.first
    have filled : joined ((.token kind, read) :: rest) ≠ [] := by
      cases lexed with
      | cons filled _ _ => simp [filled]
    cases item with
    | mark kind => exact copied
    | blank => exact copied
    | length text => simp [Item.text] at begins
    | name text | lifetime text | quote text =>
      have same := copied.whole rfl
      rw [written_cons, Item.text, ← same, List.head?_append_of_ne_nil _ filled] at begins
      exact copied.not_ampersand lexed (by simp) begins

-- The last token of an array length is no line of documentation, which would run on.
def EndsPlain (text : String) : Prop := ∀ t ∈ (scan text).tokens.getLast?, t.kind ≠ .docLine

theorem placed_getLast (cursor : Cursor) {row : List Piece} {kind : Kind} {read : List Char}
    (ends : row.getLast? = some (.token kind, read)) : ∃ t, (placed cursor row).getLast? = some t ∧
      t.kind = kind ∧ t.extent.stop = cursor.offset + (joined row).length := by
  obtain ⟨front, rfl⟩ := List.getLast?_eq_some_iff.mp ends
  rw [placed_append]
  refine ⟨_, List.getLast?_concat, rfl, ?_⟩
  simp [Cursor.extent, Cursor.advance, Nat.add_assoc]

theorem scan_joined {old : List Char} {row : List Piece} {text : String} (lexed : Lexed old row)
    (same : joined row = text.toList) : scan text = ⟨placed .origin row, none⟩ := by
  have cut : Lexed [] row := Lexed.cut lexed
  have alone := scanFrom_joined cut .origin
  rw [List.append_nil, same] at alone
  rw [scan, alone]
  simp [scanFrom]

-- How a copied text may end, in front of what follows it in a neat row.
theorem Item.From.last {item : Item} {items : List Item} {own : List Piece} {chars : List Char}
    (copied : item.From own) (lexed : Lexed chars own) (row : neat (item :: items))
    (plain : ∀ text, item = .length text → EndsPlain text) :
    ∀ piece ∈ own.getLast?, ∀ q ∈ (written items).head?, piece.1.endsBefore q := by
  intro piece ends q begins
  obtain ⟨text, same⟩ := copied.text
  have quiet := quiet_of_text same row q begins
  have loose : ∀ kind ∉ [Kind.docLine, .colon, .otherPunct, .equal],
      (Class.token kind).endsBefore q := by
    intro kind other
    simp only [List.mem_cons, List.not_mem_nil, or_false, not_or] at other
    simp [Class.endsBefore, other]
  cases item with
  | mark kind => exact copied.elim
  | blank => exact copied.elim
  | name text =>
    obtain ⟨rfl, listed⟩ := copied
    cases ends
    rcases List.mem_pair.mp listed with same | same <;> rw [same] <;> exact loose _ (by decide)
  | lifetime text =>
    cases copied
    cases ends
    exact loose _ (by decide)
  | quote text =>
    obtain ⟨kind, read, last, other⟩ := copied.2.2
    cases ends.symm.trans last
    exact loose kind (of_decide_eq_true other)
  | length text =>
    obtain ⟨kind, read, last, _⟩ := copied.2.2
    cases ends.symm.trans last
    -- a bracket follows, which only a line of documentation would take in
    have bracket : q = ']' := by
      cases items with
      | nil => cases begins
      | cons next items =>
        obtain rfl := of_decide_eq_true (Bool.and_eq_true_iff.mp row).1
        cases begins
        rfl
    obtain ⟨t, final, same, _⟩ := placed_getLast .origin last
    have plain := plain text rfl t (by rw [scan_joined lexed (copied.whole rfl)]; exact final)
    rw [same] at plain
    simp [Class.endsBefore, bracket, plain]

theorem lexeme_mark {kind : Kind} {items : List Item} (row : neat (.mark kind :: items))
    (single : kind = .ampersand → (written items).head? ≠ some '&') :
    lexeme (kind.spelling.toList ++ written items) =
      some (.token kind, kind.spelling.toList.length) := by
  by_cases other : kind = .ampersand
  · subst other
    exact lexeme_ampersand (single rfl)
  by_cases eager : (Item.mark kind).isEager
  · exact lexeme_eager_mark eager _
  · by_cases word : (Item.mark kind).isWordMark
    · refine lexeme_word_mark word (quiet_behind row (by simpa using eager) ?_)
      rintro k listed same
      cases same
      simp only [List.mem_cons, List.not_mem_nil, or_false] at listed
      rcases listed with rfl | rfl | rfl | rfl <;> cases word
    · -- what is left asks for a certain item behind it
      cases items with
      | nil => cases kind <;> simp_all [neat, Item.isLast]
      | cons next items =>
        have beside := (Bool.and_eq_true_iff.mp row).1
        cases kind <;> simp_all [Item.beside, Item.isLast, Item.isEager, Item.isWordMark]
        · rfl
        · rfl
        · rcases beside with rfl | rfl <;> rfl

-- One more token in front of a row.
theorem Lexed.mark {items : List Item} {pieces : List Piece} {kind : Kind} {read : List Char}
    (lexed : Lexed [] pieces) (same : joined pieces = written items) (filled : read ≠ [])
    (here : lexeme (read ++ written items) = some (.token kind, read.length)) :
    Lexed [] ((.token kind, read) :: pieces) := by
  refine .cons filled ?_ lexed
  rw [List.append_nil, same]
  exact here

-- A row that is lexed from what the items are written as, and answers them.
structure Answering (items : List Item) (pieces : List Piece) : Prop where
  lexed : Lexed [] pieces
  joins : joined pieces = written items
  answers : Answers items pieces
  ends : EndsAlike items pieces

section

variable {items : List Item} {pieces : List Piece}

theorem Answering.blank (given : Answering items pieces) : ∃ row, Answering (.blank :: items) row := by
  rcases given.lexed.blank with spaced | ⟨read, others, rfl, spaced⟩
  · exact ⟨_, spaced, by simp [given.joins, Item.text], .blank (.gap _ given.answers),
      (given.ends.later [(.gap, [' '])]).behind nofun⟩
  · refine ⟨_, spaced, ?_, .blank (given.answers.regap _), (given.ends.regap _).behind nofun⟩
    rw [written_cons, ← given.joins]
    rfl

theorem Answering.mark {kind : Kind} (given : Answering items pieces) (row : neat (.mark kind :: items))
    (single : kind = .ampersand → (written items).head? ≠ some '&') :
    Answering (.mark kind :: items) ((.token kind, kind.spelling.toList) :: pieces) where
  lexed := by
    have filled : ∀ k ∈ Kind.printed, k.spelling.toList ≠ [] := by decide
    exact given.lexed.mark given.joins (filled kind (neat_printed row)) (lexeme_mark row single)
  joins := by simp [given.joins, Item.text]
  answers := .mark given.answers
  ends := by
    refine (given.ends.later [(.token kind, kind.spelling.toList)]).behind ?_
    rintro k - ⟨⟩ rfl
    obtain ⟨lexed, joins, -, -⟩ := given
    cases lexed with
    | nil => exact ⟨_, rfl⟩
    | cons filled _ _ => exact absurd (List.append_eq_nil_iff.mp joins).1 filled

theorem Answering.pair (given : Answering items pieces) :
    Answering (.mark .ampersand :: .mark .ampersand :: items)
      ((.token .ampersands, ['&', '&']) :: pieces) where
  lexed := given.lexed.mark given.joins (List.cons_ne_nil _ _) rfl
  joins := by
    rw [joined_cons, given.joins]
    rfl
  answers := .pair given.answers
  ends := by
    have paired := given.ends.later [(.token .ampersands, ['&', '&'])]
    refine (paired.behind ?_).behind ?_
    · rintro k other ⟨⟩
      exact absurd rfl other
    · rintro k other ⟨⟩
      exact absurd rfl other

theorem Answering.text {item : Item} {own : List Piece} (given : Answering items pieces)
    (copied : item.From own) (grown : Lexed (joined pieces ++ []) own) :
    ∃ row, Answering (item :: items) row := by
  obtain ⟨text, known⟩ := copied.text
  have whole := lexed_append.mpr ⟨grown, given.lexed⟩
  have answers : Answers (item :: items) (own ++ pieces) := .text copied given.answers
  have alike : EndsAlike (item :: items) (own ++ pieces) := by
    refine (given.ends.later own).behind ?_
    rintro kind - rfl
    exact copied.elim
  have chars : joined (own ++ pieces) = text.toList ++ written items := by
    rw [joined_append, copied.whole known, given.joins]
  cases item with
  | length text =>
    cases known
    obtain ⟨kind, read, more, rfl⟩ := copied.first
    rcases whole.blank with spaced | ⟨read, others, void, _⟩
    · refine ⟨_, spaced, ?_, .gap _ answers, alike.later [(.gap, [' '])]⟩
      rw [joined_cons, chars]
      simp [Item.text]
    · cases void
  | mark kind => cases known
  | blank => cases known
  | _ => cases known; exact ⟨_, whole, chars, answers, alike⟩

end

-- A neat row of items is lexed item by item, but for ampersands, two of which are taken together.
theorem Drawn.answers {items : List Item} {x : List Char} (drawn : Drawn items x)
    (row : neat items) (plain : ∀ text, .length text ∈ items → EndsPlain text) :
    ∃ pieces, Answering items pieces := by
  induction length : items.length using Nat.strongRecOn generalizing items x with
  | ind most ih =>
    subst length
    cases drawn with
    | nil => exact ⟨[], .nil, rfl, .nil, by rintro kind - ⟨⟩⟩
    | @bare item items _ void rest =>
      have later := neat_tail row
      obtain ⟨pieces, given⟩ := ih items.length (by simp) rest later
        (fun text listed => plain text (.tail _ listed)) rfl
      cases item with
      | blank => exact given.blank
      | mark kind =>
        by_cases pair : kind = .ampersand ∧ (written items).head? = some '&'
        · obtain ⟨rfl, begins⟩ := pair
          obtain ⟨others, rfl⟩ := List.head?_eq_some_iff.mp (rest.first later begins)
          cases rest with
          | bare _ rest =>
            have shorter : others.length <
                (Item.mark .ampersand :: .mark .ampersand :: others).length := by
              rw [List.length_cons, List.length_cons]
              omega
            obtain ⟨pieces, given⟩ := ih others.length shorter rest (neat_tail later)
              (fun text listed => plain text (.tail _ (.tail _ listed))) rfl
            exact ⟨_, given.pair⟩
          | text _ copied _ _ => exact copied.elim
        · exact ⟨_, given.mark row (not_and.mp pair)⟩
      | _ => cases void
    | @text item items own chars front copied lexed rest =>
      obtain ⟨pieces, given⟩ := ih items.length (by simp) rest (neat_tail row)
        (fun text listed => plain text (.tail _ listed)) rfl
      obtain ⟨text, known⟩ := copied.text
      refine given.text copied ?_
      rw [List.append_nil, given.joins]
      exact lexed.grow (rest.shy (neat_tail row)) (quiet_of_text known row)
        (copied.last lexed row fun text own => plain text (own ▸ .head _))

end Deasync
