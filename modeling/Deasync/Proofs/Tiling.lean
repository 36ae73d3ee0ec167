import Deasync.Proofs.Lexeme.Terminal
import Deasync.Proofs.Lexing

namespace Deasync

open Lexeme

theorem Position.behind_concat (before : List Char) (c : Char) :
    behind (before ++ [c]) = (behind before).after c := by
  by_cases line : c = '\n'
  · subst line
    simp [behind, after]
  · simp [behind, after, line]

-- Counting on from a place is the same as counting from the beginning.
theorem Position.foldl_after (before read : List Char) :
    read.foldl after (behind before) = behind (before ++ read) := by
  induction read generalizing before with
  | nil => rw [List.append_nil, List.foldl_nil]
  | cons c rest ih => rw [List.foldl_cons, ← behind_concat, ih, List.append_assoc, List.singleton_append]

theorem origin_advance (read : List Char) :
    Cursor.origin.advance read = ⟨read.length, .behind read⟩ := by
  rw [Cursor.advance, Cursor.origin, Nat.zero_add]
  exact congrArg _ (Position.foldl_after [] read)

theorem locate_append {text : String} {before after : List Char} (split : text.toList = before ++ after) :
    Position.locate text before.length = .behind before := by
  rw [Position.locate, split, Int.toNat_natCast, List.take_left]

-- Where the text goes on behind some tokens.
def gapStart (front : List Token) : Nat := (front.getLast?.map (·.extent.stop)).getD 0

-- Where the first of some tokens begins, or the text ends.
def gapStop (stop : Nat) (later : List Token) : Nat := (later.head?.map (·.extent.start)).getD stop

-- The tokens stand in order in the first `stop` characters, each spelled and placed as the text has it and
-- matched by the terminal of its kind, and what is between them is left out.
structure Tiles (text : String) (stop : Nat) (tokens : List Token) : Prop where
  row : InRow 0 stop tokens
  spelled : ∀ t ∈ tokens, t.text = t.extent.slice text
  matched : ∀ t ∈ tokens, t.kind.terminal.Takes (text.toList.drop t.extent.start)
    (t.extent.stop - t.extent.start)
  located : ∀ t ∈ tokens, Span.ofExtent t.extent = .between text t.extent.start t.extent.stop none
  gaps : ∀ front later, tokens = front ++ later →
    Gap (text.toList.drop (gapStart front)) (gapStop stop later - gapStart front)

variable {text : String} {after : List Char} {pieces : List Piece}

-- What stands in front of the first token of a row.
theorem gap_placed (lexed : Lexed after pieces) (cursor : Cursor) :
    ∃ n, gapStop (cursor.offset + (joined pieces).length) (placed cursor pieces) = cursor.offset + n ∧
      Gap (joined pieces ++ after) n := by
  induction lexed generalizing cursor with
  | nil => exact ⟨0, rfl, .none⟩
  | @cons found read pieces filled here rest ih =>
    rw [joined_cons, List.append_assoc]
    cases found with
    | gap =>
      obtain ⟨n, start, gap⟩ := ih (cursor.advance read)
      rw [advance_offset] at start
      refine ⟨read.length + n, ?_, .more (lexeme_ignored here) (by rwa [List.drop_left])⟩
      rw [placed, List.length_append, ← Nat.add_assoc, ← Nat.add_assoc, start]
    | token kind => exact ⟨0, rfl, .none⟩

theorem token_placed (lexed : Lexed after pieces) {t : Token} (listed : t ∈ placed .origin pieces) :
    ∃ before read later, joined pieces ++ after = before ++ (read ++ later) ∧
      lexeme (read ++ later) = some (.token t.kind, read.length) ∧
      t = ⟨t.kind, String.ofList read, (Cursor.origin.advance before).extent
        (Cursor.origin.advance (before ++ read))⟩ := by
  obtain ⟨front, behind, split⟩ := List.append_of_mem listed
  obtain ⟨p, read, q, rfl, _, same, _⟩ := placed_split split
  rw [← advance_append] at same
  cases (lexed_append.mp lexed).2 with
  | cons _ here _ =>
    exact ⟨joined p, read, joined q ++ after, by simp [List.append_assoc], here, same⟩

theorem row_tiles (whole : text.toList = joined pieces ++ after) (lexed : Lexed after pieces) :
    Tiles text (joined pieces).length (placed .origin pieces) where
  row := by simpa [Cursor.origin] using placed_inRow lexed .origin
  spelled := by
    intro t listed
    obtain ⟨before, read, later, split, _, same⟩ := token_placed lexed listed
    rw [same, Extent.slice, Text.slice, whole, split]
    simp [Cursor.extent, origin_advance]
  matched := by
    intro t listed
    obtain ⟨before, read, later, split, here, same⟩ := token_placed lexed listed
    have taken := lexeme_takes here
    rw [same, whole, split]
    simpa [Cursor.extent, origin_advance] using taken
  located := by
    intro t listed
    obtain ⟨before, read, later, split, _, same⟩ := token_placed lexed listed
    rw [← whole] at split
    have first := locate_append split
    have last := locate_append (split.trans (List.append_assoc _ _ _).symm)
    rw [same]
    simp [Span.ofExtent, Span.between, Cursor.extent, origin_advance, first, ← last]
  gaps := by
    intro front later split
    rw [whole]
    rcases List.eq_nil_or_concat front with rfl | ⟨others, t, rfl⟩
    · obtain ⟨n, start, gap⟩ := gap_placed lexed .origin
      rw [split, List.nil_append] at start
      have stops : gapStop (joined pieces).length later = n := by simpa [Cursor.origin] using start
      rw [stops]
      exact gap
    · rw [List.concat_eq_append, List.append_assoc] at split
      obtain ⟨p, read, q, rfl, _, same, rest⟩ := placed_split split
      rw [← advance_append] at same rest
      cases (lexed_append.mp lexed).2 with
      | cons _ _ tail =>
        obtain ⟨n, start, gap⟩ := gap_placed tail (Cursor.origin.advance (joined p ++ read))
        rw [rest] at start
        have resumes : gapStart (others.concat t) = (joined p ++ read).length := by
          rw [List.concat_eq_append, gapStart, List.getLast?_concat, same]
          simp [Cursor.extent, origin_advance]
        have stops : gapStop (joined (p ++ (.token t.kind, read) :: q)).length later =
            (joined p ++ read).length + n := by
          simpa [origin_advance, Nat.add_assoc] using start
        rw [resumes, stops, Nat.add_sub_cancel_left]
        simpa [List.append_assoc] using gap

-- A text that is lexed is tiled by its tokens. One that is not is tiled up to the character that its
-- fault points at, and there nothing matches.
theorem lex_tiles (text : String) :
    (∃ tokens, lex text = .ok tokens ∧ Tiles text text.length tokens) ∨
      ∃ fault tokens stop, lex text = .error fault ∧ fault.cause.family = .parse ∧
        stop < text.length ∧ Tiles text stop tokens ∧ Unmatched (text.toList.drop stop) ∧
        fault.span = .between text stop (stop + 1 : Nat) none := by
  obtain ⟨pieces, after, whole, lexed, scanned, stuck⟩ := exists_row .origin text.toList
  have tiles := row_tiles whole lexed
  have length : text.length = (joined pieces).length + after.length := by
    rw [← String.length_toList, whole, List.length_append]
  cases after with
  | nil =>
    refine .inl ⟨placed .origin pieces, ?_, ?_⟩
    · rw [lex, scan, scanned]
      rfl
    · rwa [length]
  | cons c rest =>
    refine .inr ⟨strayFault text c (Cursor.origin.advance (joined pieces)), placed .origin pieces,
      (joined pieces).length, ?_, rfl, ?_, tiles, ?_, ?_⟩
    · rw [lex, scan, scanned]
      rfl
    · rw [length, List.length_cons]
      omega
    · rw [whole, List.drop_left]
      cases here : lexeme (c :: rest) with
      | none => exact lexeme_unmatched here
      | some lexeme =>
        obtain ⟨found, size⟩ := lexeme
        obtain ⟨n, rfl⟩ := Nat.exists_eq_succ_of_ne_zero (lexeme_filled here)
        exact absurd here (stuck found n)
    · rw [strayFault, origin_advance]

end Deasync
