import Deasync.Proofs.Lexeme.Cut
import Deasync.Token.Lexer

namespace Deasync

-- A lexeme that was read: its class and its characters.
abbrev Piece := Lexeme.Class × List Char

def joined (pieces : List Piece) : List Char := pieces.flatMap Prod.snd

@[simp] theorem joined_nil : joined [] = [] := rfl

@[simp] theorem joined_cons (piece : Piece) (pieces : List Piece) :
    joined (piece :: pieces) = piece.2 ++ joined pieces := rfl

@[simp] theorem joined_append (p q : List Piece) : joined (p ++ q) = joined p ++ joined q :=
  List.flatMap_append

-- What is read from the pieces, when `after` stands behind them, are these pieces.
inductive Lexed (after : List Char) : List Piece → Prop where
  | nil : Lexed after []
  | cons {found : Lexeme.Class} {read : List Char} {pieces : List Piece} : read ≠ [] →
      Lexeme.lexeme (read ++ (joined pieces ++ after)) = some (found, read.length) →
      Lexed after pieces → Lexed after ((found, read) :: pieces)

theorem lexed_append {after : List Char} {p q : List Piece} :
    Lexed after (p ++ q) ↔ Lexed (joined q ++ after) p ∧ Lexed after q := by
  induction p with
  | nil => exact ⟨fun all => ⟨.nil, all⟩, fun both => both.2⟩
  | cons piece p ih =>
    rw [List.cons_append]
    constructor
    · intro all
      cases all with
      | cons filled here rest =>
        obtain ⟨left, right⟩ := ih.mp rest
        refine ⟨.cons filled ?_ left, right⟩
        simpa only [joined_append, List.append_assoc] using here
    · rintro ⟨left, right⟩
      cases left with
      | cons filled here rest =>
        refine .cons filled ?_ (ih.mpr ⟨rest, right⟩)
        simpa only [joined_append, List.append_assoc] using here

-- A row of pieces stays as it is when what follows is cut off.
theorem Lexed.cut {before after : List Char} {pieces : List Piece}
    (lexed : Lexed (before ++ after) pieces) : Lexed before pieces := by
  induction lexed with
  | nil => exact .nil
  | cons filled here rest ih =>
    refine .cons filled ?_ ih
    rw [← List.append_assoc, ← List.append_assoc] at here
    rw [← List.append_assoc]
    exact Lexeme.cuttable_lexeme.kept here (by simp)

-- A token without its place.
def Token.bare (t : Token) : Kind × String := (t.kind, t.text)

-- The tokens of pieces that stand from a cursor on.
def placed (cursor : Cursor) : List Piece → List Token
  | [] => []
  | (.gap, read) :: rest => placed (cursor.advance read) rest
  | (.token kind, read) :: rest =>
    ⟨kind, String.ofList read, cursor.extent (cursor.advance read)⟩ ::
      placed (cursor.advance read) rest

@[simp] theorem advance_nil (cursor : Cursor) : cursor.advance [] = cursor := by
  simp [Cursor.advance]

theorem advance_append (cursor : Cursor) (a b : List Char) :
    cursor.advance (a ++ b) = (cursor.advance a).advance b := by
  simp [Cursor.advance, Nat.add_assoc]

@[simp] theorem advance_offset (cursor : Cursor) (read : List Char) :
    (cursor.advance read).offset = cursor.offset + read.length := rfl

theorem placed_append (cursor : Cursor) (p q : List Piece) :
    placed cursor (p ++ q) = placed cursor p ++ placed (cursor.advance (joined p)) q := by
  induction p generalizing cursor with
  | nil => simp [placed]
  | cons piece p ih =>
    obtain ⟨found, read⟩ := piece
    cases found with
    | gap => rw [List.cons_append, placed, placed, ih, joined_cons, advance_append]
    | token kind =>
      rw [List.cons_append, placed, placed, ih, joined_cons, advance_append, List.cons_append]

-- A row splits at each of its tokens.
theorem placed_split {cursor : Cursor} {pieces : List Piece} {before later : List Token}
    {token : Token} (split : placed cursor pieces = before ++ token :: later) :
    ∃ p read q, pieces = p ++ (.token token.kind, read) :: q ∧ placed cursor p = before ∧
      token = ⟨token.kind, String.ofList read, (cursor.advance (joined p)).extent
        ((cursor.advance (joined p)).advance read)⟩ ∧
      placed ((cursor.advance (joined p)).advance read) q = later := by
  induction pieces generalizing cursor before with
  | nil => simp [placed] at split
  | cons piece pieces ih =>
    obtain ⟨found, read⟩ := piece
    cases found with
    | gap =>
      obtain ⟨p, own, q, rfl, rfl, same, rest⟩ := ih split
      refine ⟨(.gap, read) :: p, own, q, rfl, rfl, ?_, ?_⟩
      · simpa only [joined_cons, advance_append] using same
      · simpa only [joined_cons, advance_append] using rest
    | token kind =>
      cases before with
      | nil =>
        simp only [placed, List.nil_append, List.cons.injEq] at split
        obtain ⟨rfl, rest⟩ := split
        exact ⟨[], read, pieces, rfl, rfl, by simp, by simpa using rest⟩
      | cons first before =>
        simp only [placed, List.cons_append, List.cons.injEq] at split
        obtain ⟨rfl, rest⟩ := split
        obtain ⟨p, own, q, rfl, rfl, same, behind⟩ := ih rest
        refine ⟨(.token kind, read) :: p, own, q, rfl, rfl, ?_, ?_⟩
        · simpa only [joined_cons, advance_append] using same
        · simpa only [joined_cons, advance_append] using behind

theorem scanFrom_joined {after : List Char} {pieces : List Piece} (lexed : Lexed after pieces)
    (cursor : Cursor) : scanFrom cursor (joined pieces ++ after) =
      ⟨placed cursor pieces ++ (scanFrom (cursor.advance (joined pieces)) after).tokens,
        (scanFrom (cursor.advance (joined pieces)) after).stray⟩ := by
  induction lexed generalizing cursor with
  | nil => simp [placed]
  | @cons found read pieces filled here rest ih =>
    obtain ⟨c, chars, rfl⟩ := List.exists_cons_of_ne_nil filled
    rw [joined_cons, List.append_assoc, List.cons_append, scanFrom]
    rw [List.cons_append, List.length_cons] at here
    simp only [here, List.take_left, List.drop_left, ih, advance_append]
    cases found <;> simp [placed]

-- One lexeme in front of a row that was lexed already.
theorem Lexed.cons_taken {after : List Char} {found : Lexeme.Class} {c : Char} {rest : List Char}
    {n : Nat} {pieces : List Piece} (here : Lexeme.lexeme (c :: rest) = some (found, n + 1))
    (same : rest.drop n = joined pieces ++ after) (lexed : Lexed after pieces) :
    c :: rest = joined ((found, c :: rest.take n) :: pieces) ++ after ∧
      Lexed after ((found, c :: rest.take n) :: pieces) := by
  have short := Lexeme.cuttable_lexeme.within here
  simp only [List.length_cons, Nat.add_le_add_iff_right] at short
  have whole : c :: rest.take n ++ (joined pieces ++ after) = c :: rest := by
    rw [← same, List.cons_append, List.take_append_drop]
  refine ⟨by rw [joined_cons, List.append_assoc, whole], .cons (List.cons_ne_nil _ _) ?_ lexed⟩
  rw [whole, here, List.length_cons, List.length_take, Nat.min_eq_left short]

-- Every text is a row of pieces up to where no lexeme is found, and that is what the lexer reads.
theorem exists_row (cursor : Cursor) (cs : List Char) :
    ∃ pieces after, cs = joined pieces ++ after ∧ Lexed after pieces ∧
      scanFrom cursor cs = ⟨placed cursor pieces,
        after.head?.map fun c => (c, cursor.advance (joined pieces))⟩ ∧
      ∀ found n, Lexeme.lexeme after ≠ some (found, n + 1) := by
  fun_induction scanFrom cursor cs with
  | case1 cursor => exact ⟨[], [], rfl, .nil, rfl, fun _ _ read => by cases read⟩
  | case2 cursor c rest n read next later here ih =>
    obtain ⟨pieces, after, same, lexed, scanned, stuck⟩ := ih
    obtain ⟨whole, row⟩ := Lexed.cons_taken here same lexed
    refine ⟨_, after, whole, row, ?_, stuck⟩
    rw [placed, joined_cons, advance_append]
    exact scanned
  | case3 cursor c rest n read next later kind here ih =>
    obtain ⟨pieces, after, same, lexed, scanned, stuck⟩ := ih
    obtain ⟨whole, row⟩ := Lexed.cons_taken here same lexed
    refine ⟨_, after, whole, row, ?_, stuck⟩
    rw [placed, joined_cons, advance_append]
    obtain ⟨tokens, stray⟩ := Scan.mk.inj scanned
    exact congrArg₂ Scan.mk (congrArg _ tokens) stray
  | case4 cursor c rest none => exact ⟨[], c :: rest, rfl, .nil, by simp [placed], none⟩

theorem lex_eq_ok_iff {text : String} {tokens : List Token} : lex text = .ok tokens ↔
    ∃ pieces, joined pieces = text.toList ∧ Lexed [] pieces ∧ placed .origin pieces = tokens := by
  constructor
  · intro lexed
    obtain ⟨pieces, after, same, row, scanned, _⟩ := exists_row .origin text.toList
    rw [lex, scan, scanned] at lexed
    cases after with
    | nil =>
      cases lexed
      rw [List.append_nil] at same
      exact ⟨pieces, same.symm, row, rfl⟩
    | cons c rest => cases lexed
  · rintro ⟨pieces, same, lexed, rfl⟩
    have scanned := scanFrom_joined lexed .origin
    rw [List.append_nil, same] at scanned
    unfold lex scan
    rw [scanned]
    simp [scanFrom]

-- Tokens between two offsets, none of them empty, in the order in which they stand.
structure InRow (start stop : Nat) (tokens : List Token) : Prop where
  apart : tokens.Pairwise fun a b => a.extent.stop ≤ b.extent.start
  filled : ∀ t ∈ tokens, t.extent.start < t.extent.stop
  from_start : ∀ t ∈ tokens, start ≤ t.extent.start
  to_stop : ∀ t ∈ tokens, t.extent.stop ≤ stop

theorem InRow.cons {start stop : Nat} {token : Token} {tokens : List Token}
    (front : start ≤ token.extent.start) (filled : token.extent.start < token.extent.stop)
    (fits : token.extent.stop ≤ stop) (row : InRow token.extent.stop stop tokens) :
    InRow start stop (token :: tokens) where
  apart := List.pairwise_cons.mpr ⟨row.from_start, row.apart⟩
  filled := List.forall_mem_cons.mpr ⟨filled, row.filled⟩
  from_start := List.forall_mem_cons.mpr ⟨front, fun t present => by
    have behind := row.from_start t present
    omega⟩
  to_stop := List.forall_mem_cons.mpr ⟨fits, row.to_stop⟩

theorem InRow.mono {start wider stop : Nat} {tokens : List Token} (row : InRow wider stop tokens)
    (less : start ≤ wider) : InRow start stop tokens :=
  { row with from_start := fun t present => Nat.le_trans less (row.from_start t present) }

theorem InRow.behind {start stop : Nat} {token : Token} {tokens : List Token}
    (row : InRow start stop (token :: tokens)) : InRow token.extent.stop stop tokens where
  apart := (List.pairwise_cons.mp row.apart).2
  filled := (List.forall_mem_cons.mp row.filled).2
  from_start := (List.pairwise_cons.mp row.apart).1
  to_stop := (List.forall_mem_cons.mp row.to_stop).2

theorem InRow.split {start stop : Nat} {front later : List Token} (most : start ≤ stop)
    (row : InRow start stop (front ++ later)) :
    ∃ middle, start ≤ middle ∧ middle ≤ stop ∧ InRow start middle front ∧
      InRow middle stop later := by
  induction front generalizing start with
  | nil => exact ⟨start, Nat.le_refl _, most, ⟨.nil, by simp, by simp, by simp⟩, row⟩
  | cons token front ih =>
    have fits := row.to_stop token (.head _)
    obtain ⟨middle, least, below, left, right⟩ := ih fits row.behind
    have begins := row.from_start token (.head _)
    have filled := row.filled token (.head _)
    exact ⟨middle, by omega, below, .cons begins filled least left, right⟩

theorem InRow.begins {start stop : Nat} {tokens : List Token} {first token : Token}
    (row : InRow start stop tokens) (begins : tokens.head? = some first) (listed : token ∈ tokens) :
    first.extent.start ≤ token.extent.start := by
  obtain ⟨rest, rfl⟩ := List.head?_eq_some_iff.mp begins
  rcases List.mem_cons.mp listed with rfl | later
  · exact Nat.le_refl _
  · have apart := row.behind.from_start token later
    have filled := row.filled first (.head _)
    omega

theorem InRow.ends {start stop : Nat} {tokens : List Token} {first last : Token}
    (row : InRow start stop tokens) (begins : tokens.head? = some first)
    (ends : tokens.getLast? = some last) : first.extent.stop ≤ last.extent.stop := by
  obtain ⟨rest, rfl⟩ := List.head?_eq_some_iff.mp begins
  have listed := List.mem_of_getLast? ends
  rcases List.mem_cons.mp listed with rfl | later
  · exact Nat.le_refl _
  · have apart := row.behind.from_start last later
    have filled := row.filled last listed
    omega

-- From the beginning of the first token to the end of the last.
theorem InRow.spanned {start stop : Nat} {tokens : List Token} {first last : Token}
    (row : InRow start stop tokens) (begins : tokens.head? = some first)
    (ends : tokens.getLast? = some last) :
    start ≤ first.extent.start ∧ first.extent.start < last.extent.stop ∧ last.extent.stop ≤ stop := by
  have front := row.from_start first (List.mem_of_head? begins)
  have filled := row.filled first (List.mem_of_head? begins)
  have back := row.to_stop last (List.mem_of_getLast? ends)
  have order := row.ends begins ends
  omega

theorem placed_inRow {after : List Char} {pieces : List Piece} (lexed : Lexed after pieces)
    (cursor : Cursor) :
    InRow cursor.offset (cursor.offset + (joined pieces).length) (placed cursor pieces) := by
  induction lexed generalizing cursor with
  | nil => exact ⟨.nil, by simp [placed], by simp [placed], by simp [placed]⟩
  | @cons found read pieces filled here rest ih =>
    have later := ih (cursor.advance read)
    have positive := List.length_pos_iff.mpr filled
    rw [advance_offset, Nat.add_assoc, ← List.length_append, ← joined_cons (found, read)] at later
    cases found with
    | gap => exact later.mono (Nat.le_add_right _ _)
    | token kind =>
      refine .cons (Nat.le_refl _) ?_ ?_ later
      · simpa [Cursor.extent] using positive
      · simp [Cursor.extent]

theorem lex_inRow {text : String} {tokens : List Token} (lexed : lex text = .ok tokens) :
    InRow 0 text.length tokens := by
  obtain ⟨pieces, whole, row, rfl⟩ := lex_eq_ok_iff.mp lexed
  have standing := placed_inRow row .origin
  rw [whole, String.length_toList] at standing
  simpa [Cursor.origin] using standing

-- The same token, `offset` characters further on in `a` than in `b`.
structure Token.Shifted (offset : Nat) (a b : Token) : Prop where
  kind : a.kind = b.kind
  text : a.text = b.text
  start : a.extent.start = offset + b.extent.start
  stop : a.extent.stop = offset + b.extent.stop

theorem placed_shifted {offset : Nat} {a b : Cursor} (far : a.offset = offset + b.offset)
    (pieces : List Piece) : List.Forall₂ (Token.Shifted offset) (placed a pieces) (placed b pieces) := by
  induction pieces generalizing a b with
  | nil => exact .nil
  | cons piece pieces ih =>
    obtain ⟨found, read⟩ := piece
    have further : (a.advance read).offset = offset + (b.advance read).offset := by
      rw [advance_offset, advance_offset, far, Nat.add_assoc]
    cases found with
    | gap => exact ih further
    | token kind => exact .cons ⟨rfl, rfl, far, further⟩ (ih further)

-- The first tokens of a row are those of a row in front, which ends with the last of them.
theorem placed_take {cursor : Cursor} {pieces : List Piece} {part later : List Token}
    {last : Token} (ends : part.getLast? = some last)
    (split : placed cursor pieces = part ++ later) :
    ∃ p q, pieces = p ++ q ∧ placed cursor p = part ∧
      last.extent.stop = cursor.offset + (joined p).length := by
  obtain ⟨before, rfl⟩ := List.getLast?_eq_some_iff.mp ends
  rw [List.append_assoc, List.singleton_append] at split
  obtain ⟨p, read, q, rfl, front, same, _⟩ := placed_split split
  refine ⟨p ++ [(.token last.kind, read)], q, by simp, ?_, ?_⟩
  · rw [placed_append, front, placed, placed, ← same]
  · rw [same]
    simp [Cursor.extent, Cursor.advance, Nat.add_assoc]

theorem lex_slice {text : String} {before part later : List Token} {first last : Token}
    (lexed : lex text = .ok (before ++ part ++ later)) (begins : part.head? = some first)
    (ends : part.getLast? = some last) : ∃ own,
      lex (Text.slice text first.extent.start last.extent.stop) = .ok own ∧
        List.Forall₂ (Token.Shifted first.extent.start) part own := by
  obtain ⟨rest, rfl⟩ := List.head?_eq_some_iff.mp begins
  obtain ⟨pieces, whole, row, split⟩ := lex_eq_ok_iff.mp lexed
  rw [List.append_assoc, List.cons_append] at split
  obtain ⟨p, read, q, rfl, -, same, behind⟩ := placed_split split
  have start : first.extent.start = (joined p).length := by
    rw [same]
    simp [Cursor.extent, Cursor.origin]
  have standing : placed (Cursor.origin.advance (joined p)) ((.token first.kind, read) :: q) =
      first :: rest ++ later := by
    rw [placed, behind, ← same]
    rfl
  obtain ⟨inner, outer, cut, own, stop⟩ := placed_take ends standing
  rw [cut] at whole row
  have sliced : (Text.slice text first.extent.start last.extent.stop).toList = joined inner := by
    rw [Text.toList_slice, ← whole, stop, start]
    simp [Cursor.origin]
  have alone : Lexed [] inner := by
    have inside := (lexed_append.mp (lexed_append.mp row).2).1
    exact Lexed.cut inside
  refine ⟨placed .origin inner, lex_eq_ok_iff.mpr ⟨inner, sliced.symm, alone, rfl⟩, ?_⟩
  rw [← own, start]
  exact placed_shifted (by simp [Cursor.origin]) inner

-- From any token of a text to any later one, the stretch has these tokens and no others.
theorem lex_stretch {text : String} {tokens : List Token} (lexed : lex text = .ok tokens) {i j : Nat}
    (order : i ≤ j) {first last : Token} (begins : tokens[i]? = some first)
    (ends : tokens[j]? = some last) : ∃ own,
      lex (Text.slice text first.extent.start last.extent.stop) = .ok own ∧
        List.Forall₂ (Token.Shifted first.extent.start) ((tokens.take (j + 1)).drop i) own := by
  have split : tokens = tokens.take i ++ (tokens.take (j + 1)).drop i ++ tokens.drop (j + 1) := by
    have front : tokens.take i = (tokens.take (j + 1)).take i := by
      rw [List.take_take, Nat.min_eq_left (Nat.le_succ_of_le order)]
    rw [front, List.take_append_drop, List.take_append_drop]
  rw [split] at lexed
  refine lex_slice lexed ?_ ?_
  · rw [List.head?_drop, List.getElem?_take_of_lt (Nat.lt_succ_of_le order), begins]
  · obtain ⟨short, _⟩ := List.getElem?_eq_some_iff.mp ends
    rw [List.getLast?_drop, if_neg, List.getLast?_eq_getElem?, List.length_take,
      Nat.min_eq_left short, Nat.succ_sub_one, List.getElem?_take_of_lt (Nat.lt_succ_self j), ends]
    rw [List.length_take, Nat.min_eq_left short]
    omega

def stretchText : String := "a /* ' */ b'\\n' /// d\n.. r\"\\\" 1.5e3f32 'c"

theorem lex_stretch_literals : ∃ tokens first last, lex stretchText = .ok tokens ∧
    tokens[1]? = some first ∧ tokens[4]? = some last ∧ ∃ own,
      lex (Text.slice stretchText first.extent.start last.extent.stop) = .ok own ∧
        List.Forall₂ (Token.Shifted first.extent.start) ((tokens.take 5).drop 1) own := by
  have accepted : ((lex stretchText).toOption.bind (·[4]?)).isSome := by decide +kernel
  obtain ⟨last, four⟩ := Option.isSome_iff_exists.mp accepted
  obtain ⟨tokens, found, ends⟩ := Option.bind_eq_some_iff.mp four
  have lexed : lex stretchText = .ok tokens := by
    cases result : lex stretchText with
    | error fault => rw [result] at found; cases found
    | ok others => rw [result] at found; cases found; rfl
  obtain ⟨long, _⟩ := List.getElem?_eq_some_iff.mp ends
  have begins : tokens[1]? = some tokens[1] := List.getElem?_eq_getElem (by omega)
  exact ⟨tokens, _, last, lexed, begins, ends, lex_stretch lexed (by decide) begins ends⟩

end Deasync
