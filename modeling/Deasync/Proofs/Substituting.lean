import Deasync.Expansion.Substitution
import Deasync.Proofs.Lexeme.Rows

namespace Deasync

open Lexeme

def renamings : List (List Char × List Char) :=
  [(['s', 'e', 'l', 'f'], ['_', 's', 'e', 'l', 'f']),
   (['S', 'e', 'l', 'f'], ['A', 's', 'y', 'n', 'c', 'T', 'r', 'a', 'i', 't'])]

def Renaming (a b : Piece) : Prop :=
  (∃ kind, a.1 = .token kind) ∧ b.1 = .token .ident ∧ (a.2, b.2) ∈ renamings

-- A word ends in front of a character that it cannot go on with.
theorem lexeme_renamed {c : Char} (first : c ∈ ['_', 'A']) {word rest : List Char}
    (letters : ∀ d ∈ word, continuesWord d) (ends : ∀ q ∈ rest.head?, ¬continuesWord q) :
    lexeme (c :: word ++ rest) =
      some (.token (.ofWord (String.ofList (c :: word))), (c :: word).length) := by
  have stops : run continuesWord (word ++ rest) = word.length := by
    rw [run, List.takeWhile_append_of_pos letters]
    cases rest with
    | nil => simp
    | cons q rest => simp [ends q rfl]
  have read : Lexeme.word (c :: (word ++ rest)) = some (word.length + 1) := by
    rw [← stops]
    rcases List.mem_pair.mp first with rfl | rfl <;> rfl
  have whole : lexeme (c :: (word ++ rest)) = some (.token (.ofWord (String.ofList
      ((c :: (word ++ rest)).take (word.length + 1)))), word.length + 1) := by
    rw [lexeme, read]
    rcases List.mem_pair.mp first with rfl | rfl <;> rfl
  rw [List.take_succ_cons, List.take_left] at whole
  exact whole

-- What ended a word ends every word.
theorem word_ends {word old new : List Char} {kind : Kind}
    (listed : word ∈ renamings.map Prod.fst) (follows : Follows old new)
    (here : lexeme (word ++ old) = some (.token kind, word.length)) :
    ∀ q ∈ new.head?, ¬continuesWord q := by
  intro q first continues
  obtain ⟨p, found, alike⟩ := follows q first
  have goes : continuesWord p := by
    rcases alike with rfl | alike
    · exact continues
    · exact alike.word continues
  obtain ⟨rest, rfl⟩ := List.head?_eq_some_iff.mp found
  have past : 3 < run continuesWord (['e', 'l', 'f'] ++ p :: rest) := by
    rw [run, List.takeWhile_append_of_pos (List.all_eq_true.mp rfl), List.takeWhile_cons_of_pos goes,
      List.length_append]
    simp
  have longer : ∃ n, Lexeme.word (word ++ p :: rest) = some n ∧ word.length < n := by
    rcases List.mem_pair.mp listed with rfl | rfl <;> exact ⟨_, rfl, Nat.succ_lt_succ past⟩
  obtain ⟨n, read, far⟩ := longer
  rcases lexeme_of_word read here with same | ⟨c, inside, quote⟩
  · dsimp only at same
    omega
  · dsimp only at inside
    rw [List.take_left] at inside
    rcases List.mem_pair.mp listed with rfl | rfl <;> rcases List.mem_pair.mp quote with rfl | rfl <;>
      revert inside <;> decide

theorem Renaming.change {a b : Piece} (renames : Renaming a b) : Exchangeable a b := by
  obtain ⟨found, old⟩ := a
  obtain ⟨found', new⟩ := b
  obtain ⟨⟨kind, rfl⟩, rfl, listed⟩ := renames
  have old_listed : old ∈ renamings.map Prod.fst := List.mem_map_of_mem listed
  refine ⟨?_, ?_, fun {before after} follows here => ?_⟩
  · have plain : ∀ pair ∈ renamings, pair.2 ≠ [] ∧ ∀ c ∈ pair.2, c ∉ ['"', '#', '*', '/'] := by
      simp [renamings]
    obtain ⟨filled, marks⟩ := plain _ listed
    have varied := Varied.other (a := old) filled marks .nil
    rwa [List.append_nil, List.append_nil] at varied
  · rcases List.mem_pair.mp listed with same | same <;> cases same
    · exact ⟨'s', _, '_', _, rfl, rfl, by constructor <;> decide⟩
    · exact ⟨'S', _, 'A', _, rfl, rfl, by constructor <;> decide⟩
  · have ends := word_ends old_listed follows here
    rcases List.mem_pair.mp listed with same | same <;> cases same
    · exact lexeme_renamed (.head _) (List.all_eq_true.mp rfl) ends
    · exact lexeme_renamed (.tail _ (.head _)) (List.all_eq_true.mp rfl) ends

section

variable (replace : Token → List Token → Option String)

-- The pieces of a text whose tokens are replaced.
def substituted (cursor : Cursor) : List Piece → List Piece
  | [] => []
  | (.gap, read) :: rest => (.gap, read) :: substituted (cursor.advance read) rest
  | (.token kind, read) :: rest =>
    let next := cursor.advance read
    (match replace ⟨kind, String.ofList read, cursor.extent next⟩ (placed next rest) with
      | some new => (.token .ident, new.toList)
      | none => (.token kind, read)) :: substituted next rest

-- A piece that is not as it was is a token that there is a replacement for.
theorem substituted_change {front later more : List Piece} {a b : Piece} {cursor : Cursor}
    (same : substituted replace cursor (front ++ a :: later) = front ++ b :: more) (other : a ≠ b) :
    ∃ kind extent next, a.1 = .token kind ∧
      replace ⟨kind, String.ofList a.2, extent⟩ (placed next later) ≠ none := by
  induction front generalizing cursor with
  | nil =>
    obtain ⟨found, read⟩ := a
    cases found with
    | gap => exact absurd (List.cons.inj same).1 other
    | token kind =>
      refine ⟨kind, cursor.extent (cursor.advance read), cursor.advance read, rfl, fun none => other ?_⟩
      rw [List.nil_append, substituted, none] at same
      exact (List.cons.inj same).1
  | cons piece front ih =>
    obtain ⟨found, read⟩ := piece
    cases found <;> exact ih (List.cons.inj same).2

end

-- No word stands behind a number that could take in its new name.
def Unmerged (row : List Piece) : Prop :=
  ∀ w k v, [(.token .number, w), (.token k, v)] <:+: row → v ∉ renamings.map Prod.fst

-- No word with a new name that begins with an underscore stands behind an exponent that was begun.
def Unbegun (replace : Token → List Token → Option String) (row : List Piece) : Prop :=
  ∀ w k e l s m later, (.token .number, w) :: (.token k, e) :: (.token l, s) ::
      (.token m, ['s', 'e', 'l', 'f']) :: later <:+ row →
    e ∈ [['e'], ['E']] → s ∈ [['+'], ['-']] → ∀ extent next,
      replace ⟨m, "self", extent⟩ (placed next later) = none

theorem Lexed.joined_nil {after : List Char} {front : List Piece} (lexed : Lexed after front)
    (empty : joined front = []) : front = [] := by
  cases lexed with
  | nil => rfl
  | cons filled _ _ => exact absurd (List.append_eq_nil_iff.mp empty).1 filled

-- A row that begins with one lexeme of a single character begins with a piece of that character.
theorem Lexed.single {after : List Char} {front : List Piece} {c : Char} {cs : List Char}
    {found : Lexeme.Class} (lexed : Lexed after front) (whole : joined front = c :: cs)
    (here : lexeme (c :: (cs ++ after)) = some (found, 1)) :
    ∃ later, front = (found, [c]) :: later ∧ joined later = cs ∧ Lexed after later := by
  cases lexed with
  | nil => cases whole
  | @cons own read later filled first rest =>
    obtain ⟨d, more, rfl⟩ := List.exists_cons_of_ne_nil filled
    rw [← List.append_assoc, ← joined_cons (own, d :: more), whole, List.cons_append, here] at first
    obtain ⟨rfl, size⟩ := Prod.mk.inj (Option.some.inj first)
    obtain rfl : more = [] := List.length_eq_zero_iff.mp (Nat.succ.inj size).symm
    obtain ⟨rfl, behind⟩ := List.cons.inj whole
    exact ⟨later, rfl, behind, rest⟩

-- A letter in front of a word belongs to that word.
theorem Lexed.no_letter {front : List Piece} {c p : Char} {rest : List Char}
    (lexed : Lexed (p :: rest) front) (single : joined front = [c]) (starts : startsWord c)
    (plain : c ≠ 'r') (goes : continuesWord p) : False := by
  cases lexed with
  | nil => cases single
  | @cons own read later filled first behind =>
    obtain ⟨d, more, rfl⟩ := List.exists_cons_of_ne_nil filled
    obtain ⟨rfl, nothing⟩ := List.cons.inj single
    obtain ⟨rfl, empty⟩ := List.append_eq_nil_iff.mp nothing
    obtain rfl := behind.joined_nil empty
    have read : word (d :: p :: rest) = some (run continuesWord (p :: rest) + 1) := by
      rw [word_plain fun _ _ letter => absurd letter plain, if_pos starts]
    have longer : 0 < run continuesWord (p :: rest) := by simp [run, goes]
    rcases lexeme_of_word read first with same | ⟨x, inside, quote⟩
    · have size : 1 = run continuesWord (p :: rest) + 1 := same
      omega
    · obtain rfl := List.mem_singleton.mp inside
      rcases List.mem_pair.mp quote with rfl | rfl <;> cases starts

theorem number_renamed {replace : Token → List Token → Option String} {cursor : Cursor} {w : List Char}
    {x y : List Piece} (result : substituted replace cursor x = y) (exchanged : Exchanged Renaming x y)
    (lexed : Lexed [] ((.token .number, w) :: x)) (unmerged : Unmerged ((.token .number, w) :: x))
    (unbegun : Unbegun replace ((.token .number, w) :: x)) :
    lexeme (w ++ joined y) = some (.token .number, w.length) := by
  cases lexed with
  | cons filled here rest =>
    rw [List.append_nil] at here
    rcases exchanged.first with rfl | ⟨front, a, b, later, more, rfl, rfl, renames, _⟩
    · exact here
    have other : a ≠ b := by
      rintro rfl
      have apart : ∀ pair ∈ renamings, pair.1 ≠ pair.2 := by decide
      exact apart _ renames.2.2 rfl
    obtain ⟨own, extent, next, same, changes⟩ := substituted_change replace result other
    obtain ⟨found, old⟩ := a
    obtain ⟨found', new⟩ := b
    obtain ⟨⟨kind, rfl⟩, rfl, listed⟩ := renames
    obtain rfl : kind = own := Lexeme.Class.token.inj same
    obtain ⟨p, u, q, v, rfl, rfl, letter, goes, same⟩ : ∃ p u q v, old = p :: u ∧ new = q :: v ∧
        q ∈ ['_', 'A'] ∧ continuesWord p ∧ (q = '_' → old = ['s', 'e', 'l', 'f']) := by
      rcases List.mem_pair.mp listed with same | same <;> cases same
      · exact ⟨_, _, _, _, rfl, rfl, by decide, rfl, fun _ => rfl⟩
      · exact ⟨_, _, _, _, rfl, rfl, by decide, rfl, fun other => absurd other (by decide)⟩
    have inside := (lexed_append.mp rest).1
    rw [List.append_nil] at inside
    rw [joined_append, ← List.append_assoc] at here ⊢
    refine number_stays here (by simp) fun m read => ?_
    by_contra long
    have alone := cuttable_number.kept (number_of_lexeme here) (by simp)
    rcases number_crossing letter (by simp [filled]) alone read (Nat.not_le.mp long) with
      whole | ⟨mark, known, single⟩ | dangling
    · have empty : joined front = [] := by
        rw [List.length_append] at whole
        exact List.length_eq_zero_iff.mp (by omega)
      obtain rfl := inside.joined_nil empty
      exact unmerged w kind (p :: u) ⟨[], later, rfl⟩ (List.mem_map_of_mem listed)
    · rw [List.drop_left] at single
      refine inside.no_letter single ?_ ?_ goes
      · simp only [List.mem_cons, List.not_mem_nil, or_false] at known
        rcases known with rfl | rfl | rfl <;> rfl
      · rintro rfl
        exact absurd known (by decide)
    · rw [List.drop_left] at dangling
      generalize whole : joined front = cs at dangling
      cases dangling with
      | letter known =>
        refine inside.no_letter whole ?_ ?_ goes
        · rcases List.mem_pair.mp known with rfl | rfl <;> rfl
        · rintro rfl
          exact absurd known (by decide)
      | @sign mark sign underscore known signed =>
        obtain ⟨rfl, rfl⟩ := List.cons.inj (same underscore)
        have letter : lexeme (mark :: ([sign] ++ joined ((.token kind, ['s', 'e', 'l', 'f']) :: later))) =
            some (.token .ident, 1) := by
          rcases List.mem_pair.mp known with rfl | rfl <;>
            rcases List.mem_pair.mp signed with rfl | rfl <;> rfl
        obtain ⟨others, rfl, whole, inside⟩ := inside.single whole letter
        have single : ∃ k, lexeme (sign :: ([] ++ joined ((.token kind, ['s', 'e', 'l', 'f']) :: later))) =
            some (.token k, 1) := by
          rcases List.mem_pair.mp signed with rfl | rfl <;> exact ⟨_, rfl⟩
        obtain ⟨k, here⟩ := single
        obtain ⟨none, rfl, whole, inside⟩ := inside.single whole here
        obtain rfl := inside.joined_nil whole
        refine changes (unbegun w .ident [mark] k [sign] kind later List.suffix_rfl ?_ ?_ extent next)
        · rcases List.mem_pair.mp known with rfl | rfl <;> decide
        · rcases List.mem_pair.mp signed with rfl | rfl <;> decide

theorem Renaming.plain {found : Lexeme.Class} {read : List Char} (other : read ∉ renamings.map Prod.snd)
    (a : Piece) : ¬Renaming a (found, read) :=
  fun renames => other (List.mem_map_of_mem renames.2.2)

-- Pieces that nothing was exchanged for stand together as they did before.
theorem Exchanged.infix_of {l x y : List Piece} (exchanged : Exchanged Renaming x y)
    (plain : ∀ b ∈ l, ∀ a, ¬Renaming a b) (inside : l <:+: y) : l <:+: x := by
  have front {x y l : List Piece} (exchanged : Exchanged Renaming x y)
      (plain : ∀ b ∈ l, ∀ a, ¬Renaming a b) (begins : l <+: y) : l <+: x := by
    induction exchanged generalizing l with
    | nil => exact begins
    | same _ _ ih =>
      cases l with
      | nil => exact List.nil_prefix
      | cons b l =>
        obtain ⟨rfl, rest⟩ := List.cons_prefix_cons.mp begins
        exact List.cons_prefix_cons.mpr ⟨rfl, ih (fun c listed => plain c (.tail _ listed)) rest⟩
    | change renames _ _ =>
      cases l with
      | nil => exact List.nil_prefix
      | cons b l =>
        obtain ⟨rfl, _⟩ := List.cons_prefix_cons.mp begins
        exact absurd renames (plain b (.head _) _)
  induction exchanged with
  | nil => exact inside
  | same number others ih =>
    rcases List.infix_cons_iff.mp inside with begins | later
    · exact (front (.same number others) plain begins).isInfix
    · exact List.infix_cons_iff.mpr (.inr (ih later))
  | change renames others ih =>
    rcases List.infix_cons_iff.mp inside with begins | later
    · exact (front (.change renames others) plain begins).isInfix
    · exact List.infix_cons_iff.mpr (.inr (ih later))

theorem Unmerged.behind {a : Piece} {row : List Piece} (unmerged : Unmerged (a :: row)) : Unmerged row :=
  fun w k v inside => unmerged w k v (inside.trans (List.suffix_cons a row).isInfix)

theorem Unbegun.behind {replace : Token → List Token → Option String} {a : Piece} {row : List Piece}
    (unbegun : Unbegun replace (a :: row)) : Unbegun replace row :=
  fun w k e l s m later ends => unbegun w k e l s m later (ends.trans (List.suffix_cons a row))

theorem Unmerged.exchanged {x y : List Piece} (unmerged : Unmerged x) (exchanged : Exchanged Renaming x y) :
    Unmerged y := by
  intro w k v inside listed
  refine unmerged w k v (exchanged.infix_of ?_ inside) listed
  refine List.forall_mem_cons.mpr ⟨?_, List.forall_mem_singleton.mpr (Renaming.plain ?_)⟩
  · rintro a ⟨_, same, _⟩
    cases same
  · rcases List.mem_pair.mp listed with rfl | rfl <;> decide

section

variable (replace : Token → List Token → Option String)

-- The tokens, without their places.
def replaced : List Token → List (Kind × String)
  | [] => []
  | t :: later =>
    (match replace t later with
      | some new => (.ident, new)
      | none => t.bare) :: replaced later

theorem placed_substituted (cursor other : Cursor) (row : List Piece) :
    (placed other (substituted replace cursor row)).map Token.bare =
      replaced replace (placed cursor row) := by
  induction row generalizing cursor other with
  | nil => rfl
  | cons piece row ih =>
    obtain ⟨found, read⟩ := piece
    cases found with
    | gap => exact ih _ _
    | token kind =>
      rw [substituted, placed, replaced]
      cases replace _ _ with
      | none => simp only [placed, List.map_cons, ih, Token.bare]
      | some new => simp only [placed, List.map_cons, ih, Token.bare, String.ofList_toList]

theorem patchFrom_substituted {text : String} {front : List Char} {row : List Piece} {cursor : Cursor}
    (position : Nat) (whole : text.toList = front ++ joined row) (far : cursor.offset = front.length)
    (least : position ≤ front.length) :
    (Text.patchFrom text position (tokenPatches replace (placed cursor row))).toList =
      front.drop position ++ joined (substituted replace cursor row) := by
  induction row generalizing front cursor position with
  | nil =>
    rw [placed, tokenPatches, Text.patchFrom, Text.toList_sliceFrom, whole, substituted, joined_nil,
      List.append_nil, List.append_nil]
  | cons piece row ih =>
    obtain ⟨found, read⟩ := piece
    have more : text.toList = (front ++ read) ++ joined row := by
      rw [whole, joined_cons, List.append_assoc]
    have further : (cursor.advance read).offset = (front ++ read).length := by
      rw [advance_offset, far, List.length_append]
    have keeps := ih position more further (by rw [List.length_append]; omega)
    rw [List.drop_append_of_le_length least, List.append_assoc] at keeps
    cases found with
    | gap => exact keeps
    | token kind =>
      rw [placed, tokenPatches, substituted]
      cases replace _ _ with
      | none => exact keeps
      | some new =>
        have rest := ih (front ++ read).length more further (Nat.le_refl _)
        have start : (cursor.extent (cursor.advance read)).start = front.length := far
        have stop : (cursor.extent (cursor.advance read)).stop = (front ++ read).length := further
        rw [List.drop_length, List.nil_append] at rest
        simp only [Text.patchFrom, String.toList_append, Text.toList_slice, start, stop, rest, whole]
        rw [List.drop_append_of_le_length least, ← List.length_drop, List.take_left, List.append_assoc,
          joined_cons]

variable {replace}

-- Every token of a text that there is a replacement for is a word that is renamed.
def Renames (replace : Token → List Token → Option String) : Prop :=
  ∀ {kind : Kind} {read rest : List Char} {extent : Extent} {later : List Token} {new : String},
    lexeme (read ++ rest) = some (.token kind, read.length) →
    replace ⟨kind, String.ofList read, extent⟩ later = some new → (read, new.toList) ∈ renamings

theorem substituted_exchanged {row : List Piece} (lexed : Lexed [] row) (unmerged : Unmerged row)
    (unbegun : Unbegun replace row) (renames : Renames replace) (cursor : Cursor) :
    Exchanged Renaming row (substituted replace cursor row) := by
  induction row generalizing cursor with
  | nil => exact .nil
  | cons piece row ih =>
    obtain ⟨found, read⟩ := piece
    have own := lexed
    cases lexed with
    | cons filled here rest =>
      have others := ih rest unmerged.behind unbegun.behind (cursor.advance read)
      cases found with
      | gap => exact .same (fun other => by cases other) others
      | token kind =>
        rw [substituted]
        cases result : replace _ _ with
        | none =>
          refine .same (fun number => ?_) others
          obtain rfl : kind = .number := Lexeme.Class.token.inj number
          exact number_renamed rfl others own unmerged unbegun
        | some new =>
          refine .change ⟨⟨kind, rfl⟩, rfl, ?_⟩ others
          exact renames here result

-- Where no name is merged, a substitution of words gives a text that is lexed as before otherwise.
theorem substitute_renamed {text : String} {row : List Piece} (whole : joined row = text.toList)
    (lexed : Lexed [] row) (unmerged : Unmerged row) (unbegun : Unbegun replace row)
    (renames : Renames replace) :
    ∃ result, substitute text replace = .ok result ∧
      joined (substituted replace .origin row) = result.toList ∧
      Exchanged Renaming row (substituted replace .origin row) ∧
      Lexed [] (substituted replace .origin row) := by
  have exchanged := substituted_exchanged lexed unmerged unbegun renames .origin
  have tokens : lex text = .ok (placed .origin row) := lex_eq_ok_iff.mpr ⟨row, whole, lexed, rfl⟩
  refine ⟨_, by rw [substitute, tokens]; rfl, ?_, exchanged,
    exchanged.lexed (fun _ _ related => related.change) lexed⟩
  have chars := patchFrom_substituted replace 0 (show text.toList = [] ++ joined row from whole.symm)
    (show Cursor.origin.offset = _ from rfl) (Nat.le_refl _)
  exact chars.symm

end

end Deasync
