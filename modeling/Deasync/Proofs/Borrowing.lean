import Deasync.Proofs.Indenting
import Deasync.Proofs.Printing.Sources
import Deasync.Proofs.Substituting

namespace Deasync

open Lexeme

def markers : List (List Char) := [['S', 'e', 'n', 'd'], ['S', 'y', 'n', 'c']]

-- The characters of markers.
def isMarkerChar (c : Char) : Bool := ['S', 'e', 'n', 'd', 'y', 'c'].contains c

theorem marker_shape {w : List Char} (marker : w ∈ markers) :
    w.head? = some 'S' ∧ ∀ c ∈ w, isMarkerChar c := by
  rcases List.mem_pair.mp marker with rfl | rfl <;> exact ⟨rfl, List.all_eq_true.mp rfl⟩

-- Every marker that the text mentions is mentioned in `source`.
def Borrows (source text : String) : Prop :=
  ∀ w ∈ markers, w <:+: text.toList → w <:+: source.toList

-- What stands in two texts together stands in one of them, or across the seam.
theorem infix_seam {w a b : List Char} (inside : w <:+: a ++ b) :
    w <:+: a ∨ w <:+: b ∨ ∃ p s, w = p ++ s ∧ p ≠ [] ∧ s ≠ [] ∧ p <:+ a ∧ s <+: b := by
  induction a with
  | nil => exact .inr (.inl inside)
  | cons c a ih =>
    rcases List.infix_cons_iff.mp inside with front | later
    · obtain ⟨rest, whole⟩ := front
      rcases List.append_eq_append_iff.mp (show w ++ rest = (c :: a) ++ b from whole) with ⟨k, left, rfl⟩ | ⟨k, rfl, right⟩
      · exact .inl ⟨[], k, left.symm⟩
      · rcases List.eq_nil_or_concat k with rfl | filled
        · rw [List.append_nil]
          exact .inl List.infix_rfl
        · refine .inr (.inr ⟨c :: a, k, rfl, List.cons_ne_nil _ _, ?_, List.suffix_rfl, rest, right.symm⟩)
          obtain ⟨_, _, rfl⟩ := filled
          simp
    · rcases ih later with left | right | ⟨p, s, rfl, some, more, ends, begins⟩
      · exact .inl (left.trans (List.suffix_cons c a).isInfix)
      · exact .inr (.inl right)
      · exact .inr (.inr ⟨p, s, rfl, some, more, ends.trans (List.suffix_cons c a), begins⟩)

-- Across a seam a marker begins with its first letter, and continues with letters.
theorem marker_seam {p s : List Char} (marker : p ++ s ∈ markers) (some : p ≠ []) (more : s ≠ []) :
    'S' ∈ p ∧ (∀ c ∈ p, isMarkerChar c) ∧ (∃ c, p.getLast? = Option.some c ∧ isMarkerChar c) ∧
      ∃ c, s.head? = Option.some c ∧ isMarkerChar c := by
  obtain ⟨begins, letters⟩ := marker_shape marker
  obtain ⟨c, p, rfl⟩ := List.exists_cons_of_ne_nil some
  obtain ⟨d, s, rfl⟩ := List.exists_cons_of_ne_nil more
  cases begins
  refine ⟨.head _, fun c listed => letters c (List.mem_append_left _ listed), ?_, d, rfl, letters d (by simp)⟩
  obtain ⟨last, ends⟩ := List.getLast?_isSome.mpr some |> Option.isSome_iff_exists.mp
  exact ⟨last, ends, letters last (List.mem_append_left _ (List.mem_of_getLast? ends))⟩

-- Nothing that ends so is continued by a marker, and nothing that begins so continues one.
def EndsApart (cs : List Char) : Prop := ∀ c ∈ cs.getLast?, ¬isMarkerChar c

def BeginsApart (cs : List Char) : Prop := ∀ c ∈ cs.head?, ¬isMarkerChar c

theorem infix_apart {w a b : List Char} (marker : w ∈ markers) (apart : EndsApart a ∨ BeginsApart b)
    (inside : w <:+: a ++ b) : w <:+: a ∨ w <:+: b := by
  rcases infix_seam inside with left | right | ⟨p, s, rfl, some, more, ends, begins⟩
  · exact .inl left
  · exact .inr right
  · obtain ⟨_, _, ⟨c, last, letter⟩, d, first, other⟩ := marker_seam marker some more
    rcases apart with apart | apart
    · obtain ⟨front, rfl⟩ := ends
      rw [EndsApart, List.getLast?_append_of_ne_nil _ some] at apart
      exact absurd letter (apart c last)
    · obtain ⟨rest, rfl⟩ := begins
      rw [BeginsApart, List.head?_append_of_ne_nil _ more] at apart
      exact absurd other (apart d first)

section

variable {source a b : String}

theorem Borrows.append (first : Borrows source a) (second : Borrows source b)
    (apart : EndsApart a.toList ∨ BeginsApart b.toList) : Borrows source (a ++ b) := by
  intro w marker inside
  rw [String.toList_append] at inside
  exact (infix_apart marker apart inside).elim (first w marker) (second w marker)

theorem Borrows.of_part (inside : a.toList <:+: source.toList) : Borrows source a :=
  fun _ _ part => part.trans inside

theorem Borrows.of_no_initial (none : 'S' ∉ a.toList) : Borrows source a := by
  intro w marker inside
  obtain ⟨rest, rfl⟩ := List.head?_eq_some_iff.mp (marker_shape marker).1
  exact absurd (inside.subset (.head _)) none

theorem Borrows.of_no_marker (none : ∀ w ∈ markers, ¬w <:+: a.toList) : Borrows source a :=
  fun w marker inside => absurd inside (none w marker)

-- A text that anything may follow.
structure Finished (source text : String) : Prop where
  borrows : Borrows source text
  apart : EndsApart text.toList

-- Texts without markers, that may follow anything, be followed by anything, or both.
def isTrail (f : String) : Bool :=
  markers.all (fun w => !decide (w <:+: f.toList)) && f.toList.head?.any (!isMarkerChar ·)

def isLead (f : String) : Bool :=
  markers.all (fun w => !decide (w <:+: f.toList)) && f.toList.getLast?.all (!isMarkerChar ·)

def isJoint (f : String) : Bool := isTrail f && isLead f

theorem isTrail_iff {f : String} : isTrail f ↔ (∀ w ∈ markers, ¬w <:+: f.toList) ∧
    ∃ c, f.toList.head? = some c ∧ ¬isMarkerChar c := by
  simp [isTrail, Option.any_eq_true]

theorem isLead_iff {f : String} : isLead f ↔ (∀ w ∈ markers, ¬w <:+: f.toList) ∧ EndsApart f.toList := by
  simp [isLead, EndsApart, Option.all_eq_true]

theorem Finished.lead {f : String} (lead : isLead f) : Finished source f where
  borrows := .of_no_marker (isLead_iff.mp lead).1
  apart := (isLead_iff.mp lead).2

theorem Finished.then (first : Finished source a) (second : Borrows source b) : Borrows source (a ++ b) :=
  first.borrows.append second (.inl first.apart)

theorem Finished.append (first : Finished source a) (second : Finished source b) :
    Finished source (a ++ b) where
  borrows := first.then second.borrows
  apart := by
    rw [String.toList_append]
    by_cases empty : b.toList = []
    · rw [empty, List.append_nil]
      exact first.apart
    · rw [EndsApart, List.getLast?_append_of_ne_nil _ empty]
      exact second.apart

theorem Borrows.trail (first : Borrows source a) {f : String} (trail : isTrail f) :
    Borrows source (a ++ f) := by
  obtain ⟨none, c, begins, other⟩ := isTrail_iff.mp trail
  refine first.append (.of_no_marker none) (.inr ?_)
  rw [BeginsApart, begins]
  rintro _ ⟨⟩
  exact other

theorem Borrows.joint (first : Borrows source a) {f : String} (joint : isJoint f) :
    Finished source (a ++ f) := by
  obtain ⟨trail, lead⟩ := Bool.and_eq_true_iff.mp joint
  refine ⟨first.trail trail, ?_⟩
  obtain ⟨_, c, begins, _⟩ := isTrail_iff.mp trail
  have filled : f.toList ≠ [] := by
    intro empty
    rw [empty] at begins
    cases begins
  rw [String.toList_append, EndsApart, List.getLast?_append_of_ne_nil _ filled]
  exact (isLead_iff.mp lead).2

theorem Borrows.intercalate {f : String} (joint : isJoint f) {texts : List String}
    (all : ∀ t ∈ texts, Borrows source t) : Borrows source (f.intercalate texts) := by
  induction texts with
  | nil => exact .of_no_initial (by simp)
  | cons t texts ih =>
    cases texts with
    | nil => simpa using all t (.head _)
    | cons u texts =>
      rw [String.intercalate_cons_cons]
      exact ((all t (.head _)).joint joint).then (ih fun v listed => all v (.tail _ listed))

end

theorem continuesWord_of_marker {c : Char} (letter : isMarkerChar c) : continuesWord c := by
  have all : ['S', 'e', 'n', 'd', 'y', 'c'].all continuesWord := by decide
  exact List.all_eq_true.mp all c (List.contains_iff_mem.mp letter)

section

variable {x rest : List Char}

theorem word_stops (filled : x ≠ []) (found : word (x ++ rest) = some x.length) :
    ∀ q ∈ rest.head?, ¬continuesWord q := by
  obtain ⟨c, x, rfl⟩ := List.exists_cons_of_ne_nil filled
  rcases name_or_plain c (x ++ rest) with ⟨d, more, rfl, same, starts⟩ | plain
  · rw [List.cons_append, same, word_name _ _ starts, Option.some.injEq] at found
    rcases x with _ | ⟨hash, _ | ⟨first, x⟩⟩
    · simp at found
    · simp at found
    · obtain ⟨rfl, rfl, rfl⟩ : hash = '#' ∧ first = d ∧ x ++ rest = more := by simpa using same
      exact (run_eq_length (by simpa using found)).2
  · rw [List.cons_append, word_plain plain] at found
    obtain ⟨_, size⟩ := Option.ite_none_right_eq_some.mp found
    exact (run_eq_length (Nat.succ.inj (Option.some.inj size))).2

theorem lifetime_stops (found : lifetime (x ++ rest) = some x.length) :
    ∀ q ∈ rest.head?, ¬continuesWord q := by
  unfold lifetime at found
  split at found
  · rename_i c more same
    obtain ⟨_, size⟩ := Option.ite_none_right_eq_some.mp found
    rcases x with _ | ⟨quote, _ | ⟨first, x⟩⟩
    · simp at size
    · simp at size
    · obtain ⟨rfl, rfl, rfl⟩ : quote = '\x27' ∧ first = c ∧ x ++ rest = more := by simpa using same
      exact (run_eq_length (by simpa using size)).2
  · cases found

theorem escapeBody_ends {cs : List Char} {n : Nat} (found : escapeBody cs = some n) :
    ['\x27'] <:+ cs.take n := by
  unfold escapeBody at found
  split at found
  · obtain ⟨_, same⟩ := Option.ite_none_left_eq_some.mp found
    cases same
    exact List.suffix_append [_] _
  · obtain ⟨_, same⟩ := Option.ite_none_right_eq_some.mp found
    cases same
    exact List.suffix_append [_, _, _] _
  · rename_i rest
    obtain ⟨holds, same⟩ := Option.ite_none_right_eq_some.mp found
    cases same
    obtain ⟨more, whole⟩ := List.isPrefixOf_iff_prefix.mp (Bool.and_eq_true_iff.mp holds).2
    have chars : rest.take (run isHex rest + 2) = rest.take (run isHex rest) ++ ['\x7d', '\x27'] := by
      rw [List.take_add, ← whole]
      rfl
    rw [List.take_succ_cons, List.take_succ_cons, chars]
    exact ⟨'u' :: '\x7b' :: (rest.take (run isHex rest) ++ ['\x7d']), by simp⟩
  · cases found

theorem charBody_ends {cs : List Char} {n : Nat} (found : charBody cs = some n) :
    ['\x27'] <:+ cs.take n := by
  unfold charBody at found
  split at found
  · obtain ⟨m, inner, rfl⟩ := Option.map_eq_some_iff.mp found
    exact (escapeBody_ends inner).trans (List.suffix_cons _ _)
  · obtain ⟨_, same⟩ := Option.ite_none_left_eq_some.mp found
    cases same
    exact List.suffix_append [_] _
  · cases found

theorem charLiteral_ends {cs : List Char} {n : Nat} (found : charLiteral cs = some n) :
    ['\x27'] <:+ cs.take n := by
  unfold charLiteral at found
  split at found
  · obtain ⟨m, inner, rfl⟩ := Option.map_eq_some_iff.mp found
    exact (charBody_ends inner).trans ((List.suffix_cons _ _).trans (List.suffix_cons _ _))
  · obtain ⟨m, inner, rfl⟩ := Option.map_eq_some_iff.mp found
    exact (charBody_ends inner).trans (List.suffix_cons _ _)
  · cases found

theorem comment_stops {found : Lexeme.Class} (read : comment (x ++ rest) = some (found, x.length)) :
    ['*', '/'] <:+ x ∨ ∀ q ∈ rest.head?, ¬continuesWord q := by
  have size : 2 ≤ x.length := comment_size read
  obtain ⟨a, b, x, rfl⟩ : ∃ a b y, x = a :: b :: y := by
    rcases x with _ | ⟨a, _ | ⟨b, x⟩⟩
    · cases size
    · simp at size
    · exact ⟨a, b, x, rfl⟩
  have begins : a = '/' ∧ (b = '/' ∨ b = '*') := by
    by_contra other
    rw [List.cons_append, List.cons_append, comment_ne other] at read
    cases read
  obtain ⟨rfl, rfl | rfl⟩ := begins
  · right
    rw [List.cons_append, List.cons_append, comment_line, Option.some.injEq, Prod.mk.injEq] at read
    intro q first continues
    have line := (run_eq_length (Nat.add_right_cancel read.2)).2 q first
    obtain rfl : q = '\n' := by simpa using line
    cases continues
  · left
    have length := comment_block_size (x ++ rest)
    rw [← List.cons_append, ← List.cons_append, read] at length
    obtain ⟨m, closed, same⟩ := Option.map_eq_some_iff.mp length.symm
    obtain rfl : m = x.length := Nat.add_right_cancel same
    have ends := through_ends closed
    rw [List.take_left] at ends
    exact ends.trans ((List.suffix_cons _ _).trans (List.suffix_cons _ _))

-- What could be one word with what follows is a number.
theorem number_of_runs_on {found : Lexeme.Class} (filled : x ≠ [])
    (here : lexeme (x ++ rest) = some (found, x.length)) (ends : ∃ c ∈ x.getLast?, continuesWord c)
    (goes : ∃ q ∈ rest.head?, continuesWord q) : number (x ++ rest) = some x.length := by
  obtain ⟨c, last, letter⟩ := ends
  obtain ⟨q, first, other⟩ := goes
  have closed {stop : List Char} (some : stop ≠ []) (closer : ∀ d ∈ stop.getLast?, ¬continuesWord d) :
      ¬stop <:+ x := by
    rintro ⟨front, rfl⟩
    rw [List.getLast?_append_of_ne_nil _ some] at last
    exact closer c last letter
  have plain (all : ∀ d ∈ x, ¬continuesWord d) : False := all c (List.mem_of_getLast? last) letter
  cases lexeme_reads here with
  | number read => exact read
  | raw read =>
    obtain ⟨stop, listed, ends⟩ := rawString_ends read
    rw [List.take_left] at ends
    simp only [closers, List.mem_cons, List.not_mem_nil, or_false] at listed
    rcases listed with rfl | rfl | rfl | rfl <;> exact absurd ends (closed (by simp) (by simp; decide))
  | char read =>
    have ends := charLiteral_ends read
    rw [List.take_left] at ends
    exact absurd ends (closed (by simp) (by simp; decide))
  | string read =>
    have ends := stringLiteral_ends read
    rw [List.take_left] at ends
    exact absurd ends (closed (by simp) (by simp; decide))
  | gap read =>
    refine (plain fun d listed continues => ?_).elim
    have blank := (gap_chars read).1 d listed
    simp only [isGapChar, Bool.or_eq_true, beq_iff_eq] at blank
    rcases blank with (((rfl | rfl) | rfl) | rfl) | rfl <;> cases continues
  | comment read =>
    rcases comment_stops read with ends | stops
    · exact absurd ends (closed (by simp) (by simp; decide))
    · exact absurd other (stops q first)
  | word read _ => exact absurd other (word_stops filled read q first)
  | lifetime read => exact absurd other (lifetime_stops read q first)
  | mark read =>
    refine (plain fun d listed => (mark_chars read d ?_).2).elim
    rwa [List.take_left]

end

-- A marker does not begin in a row of lexemes in front of a word.
theorem Lexed.no_beginning {after : List Char} {front : List Piece} (lexed : Lexed after front)
    (goes : ∃ q ∈ after.head?, continuesWord q) {p : List Char} (initial : 'S' ∈ p)
    (letters : ∀ c ∈ p, isMarkerChar c) : ¬p <:+ joined front := by
  intro ends
  have some : p ≠ [] := List.ne_nil_of_mem initial
  rcases List.eq_nil_or_concat front with rfl | ⟨front, ⟨found, read⟩, rfl⟩
  · exact some (List.suffix_nil.mp ends)
  rw [List.concat_eq_append] at lexed ends
  cases (lexed_append.mp lexed).2 with
  | cons filled here _ =>
    rw [Deasync.joined_nil, List.nil_append] at here
    rw [joined_append, joined_cons, Deasync.joined_nil, List.append_nil] at ends
    have last : p.getLast? = read.getLast? := by
      obtain ⟨_, whole⟩ := ends
      rw [← List.getLast?_append_of_ne_nil _ some, whole, List.getLast?_append_of_ne_nil _ filled]
    obtain ⟨c, own⟩ := Option.isSome_iff_exists.mp (List.getLast?_isSome.mpr some)
    have number := number_of_runs_on filled here ⟨c, last ▸ own, continuesWord_of_marker
      (letters c (List.mem_of_getLast? own))⟩ goes
    rcases List.suffix_or_suffix_of_suffix ends (List.suffix_append (joined front) read) with short | long
    · have numeric := numeric_number number 'S' (by rw [List.take_left]; exact short.subset initial)
      cases numeric
    · obtain ⟨d, read, rfl⟩ := List.exists_cons_of_ne_nil filled
      have digit := digit_of_number number
      have letter := letters d (long.subset (.head _))
      have apart : ['S', 'e', 'n', 'd', 'y', 'c'].all (!·.isDigit) := by decide
      have other := List.all_eq_true.mp apart d (List.contains_iff_mem.mp letter)
      rw [digit] at other
      cases other

theorem Lexed.infix_apart {after : List Char} {front : List Piece} (lexed : Lexed after front)
    (goes : ∃ q ∈ after.head?, continuesWord q) {w b : List Char} (marker : w ∈ markers)
    (inside : w <:+: joined front ++ b) : w <:+: joined front ∨ w <:+: b := by
  rcases infix_seam inside with left | right | ⟨p, s, rfl, some, more, ends, _⟩
  · exact .inl left
  · exact .inr right
  · obtain ⟨initial, letters, _⟩ := marker_seam marker some more
    exact absurd ends (lexed.no_beginning goes initial letters)

theorem word_begins {c : Char} {cs : List Char} {n : Nat} (found : word (c :: cs) = some n) :
    continuesWord c := by
  rcases name_or_plain c cs with ⟨_, _, rfl, _⟩ | plain
  · rfl
  · rw [word_plain plain] at found
    exact continuesWord_of_starts (Option.ite_none_right_eq_some.mp found).1

section

variable {replace : Token → List Token → Option String}
  (named : ∀ t later new, replace t later = some new → t.kind ∈ [.ident, .selfWord])

include named

-- Where no word begins, none does after the substitution.
theorem begins_substituted {row : List Piece} (lexed : Lexed [] row) (cursor : Cursor)
    (stops : ∀ q ∈ (joined row).head?, ¬continuesWord q) :
    BeginsApart (joined (substituted replace cursor row)) := by
  cases lexed with
  | nil => rintro _ ⟨⟩
  | @cons found read row filled here rest =>
    obtain ⟨c, read, rfl⟩ := List.exists_cons_of_ne_nil filled
    have other : ¬continuesWord c := stops c rfl
    have apart : ∀ d ∈ some c, ¬isMarkerChar d := by
      rintro _ ⟨⟩
      exact fun letter => other (continuesWord_of_marker letter)
    cases found with
    | gap => exact apart
    | token kind =>
      rw [substituted]
      cases given : replace _ _ with
      | none => exact apart
      | some new => exact absurd (word_begins (lexeme_word here (named _ _ _ given)).1) other

variable {source : List Char}
  (news : ∀ t later new, replace t later = some new → ∀ w ∈ markers, w <:+: new.toList → w <:+: source)

include news

-- The front of the row has been left as it was.
theorem infix_substituted {w : List Char} (marker : w ∈ markers) {front row : List Piece}
    (lexed : Lexed [] (front ++ row)) (cursor : Cursor)
    (inside : w <:+: joined front ++ joined (substituted replace cursor row)) :
    w <:+: joined front ++ joined row ∨ w <:+: source := by
  induction row generalizing front cursor with
  | nil => exact .inl inside
  | cons piece row ih =>
    obtain ⟨found, read⟩ := piece
    have kept (next : Cursor)
        (same : w <:+: joined front ++ (read ++ joined (substituted replace next row))) :
        w <:+: joined front ++ joined ((found, read) :: row) ∨ w <:+: source := by
      have whole : Lexed [] ((front ++ [(found, read)]) ++ row) := by simpa using lexed
      have more := ih whole next (by simpa using same)
      simpa using more
    cases found with
    | gap => exact kept _ inside
    | token kind =>
      rw [substituted] at inside
      cases given : replace ⟨kind, String.ofList read, cursor.extent (cursor.advance read)⟩
          (placed (cursor.advance read) row) with
      | none =>
        rw [given] at inside
        exact kept _ inside
      | some new =>
        rw [given] at inside
        obtain ⟨before, behind⟩ := lexed_append.mp lexed
        cases behind with
        | cons filled here rest =>
          rw [List.append_nil] at here before
          have read' := (lexeme_word here (named _ _ _ given)).1
          obtain ⟨c, read, rfl⟩ := List.exists_cons_of_ne_nil filled
          -- neither the front nor what follows makes one word with the replacement
          rcases before.infix_apart ⟨c, rfl, word_begins read'⟩ marker inside with left | inside
          · exact .inl (left.trans (List.prefix_append _ _).isInfix)
          have apart := begins_substituted named rest (cursor.advance (c :: read))
            (word_stops filled read')
          rcases Deasync.infix_apart marker (.inr apart) inside with own | later
          · exact .inr (news _ _ _ given w marker own)
          · rcases ih (show Lexed [] ([] ++ row) from rest) _ later with left | right
            · exact .inl (left.trans ((List.suffix_append _ _).trans (List.suffix_append _ _)).isInfix)
            · exact .inr right

end

theorem Borrows.substituted {source text result : String}
    {replace : Token → List Token → Option String} (own : Borrows source text)
    (named : ∀ t later new, replace t later = some new → t.kind ∈ [.ident, .selfWord])
    (news : ∀ t later new, replace t later = some new → Borrows source new)
    (read : substitute text replace = .ok result) : Borrows source result := by
  unfold substitute at read
  cases lexed : lex text with
  | error fault =>
    rw [lexed] at read
    cases read
  | ok tokens =>
    rw [lexed] at read
    obtain rfl := Except.ok.inj read
    obtain ⟨row, whole, pieces, rfl⟩ := lex_eq_ok_iff.mp lexed
    intro w marker inside
    have chars := patchFrom_substituted replace 0 (show text.toList = [] ++ joined row from whole.symm)
      (show Cursor.origin.offset = _ from rfl) (Nat.le_refl _)
    rcases infix_substituted named news marker (show Lexed [] ([] ++ row) from pieces) _
        (chars ▸ inside) with left | right
    · exact own w marker (whole ▸ left)
    · exact right

section

variable {unit x y w : List Char}

theorem Spread.prefix_marker (letters : ∀ c ∈ w, isMarkerChar c) (spread : Spread unit x y)
    (begins : w <+: y) : w <+: x := by
  induction spread generalizing w with
  | nil => exact begins
  | same c _ ih =>
    cases w with
    | nil => exact List.nil_prefix
    | cons d w =>
      obtain ⟨rfl, more⟩ := List.cons_prefix_cons.mp begins
      exact List.cons_prefix_cons.mpr ⟨rfl, ih (List.forall_mem_cons.mp letters).2 more⟩
  | line _ _ =>
    cases w with
    | nil => exact List.nil_prefix
    | cons d w =>
      obtain ⟨rfl, _⟩ := List.cons_prefix_cons.mp begins
      cases letters '\n' (.head _)

theorem blank_apart {c : Char} (blank : isGapChar c) : ¬isMarkerChar c := by
  intro letter
  have apart : ['S', 'e', 'n', 'd', 'y', 'c'].all (!isGapChar ·) := by decide
  have other := List.all_eq_true.mp apart c (List.contains_iff_mem.mp letter)
  rw [blank] at other
  cases other

theorem Spread.infix_marker (blank : ∀ c ∈ unit, isGapChar c) (marker : w ∈ markers)
    (spread : Spread unit x y) (inside : w <:+: y) : w <:+: x := by
  obtain ⟨first, letters⟩ := marker_shape marker
  obtain ⟨w, rfl⟩ := List.head?_eq_some_iff.mp first
  induction spread with
  | nil => exact inside
  | same c spread ih =>
    rcases List.infix_cons_iff.mp inside with front | later
    · exact ((Spread.same c spread).prefix_marker letters front).isInfix
    · exact (ih later).trans (List.suffix_cons _ _).isInfix
  | line spread ih =>
    rcases List.infix_cons_iff.mp inside with front | later
    · exact ((Spread.line spread).prefix_marker letters front).isInfix
    · rcases infix_apart marker (.inl fun c last => blank_apart (blank c (List.mem_of_getLast? last))) later
        with own | rest
      · exact absurd (letters 'S' (.head _)) (blank_apart (blank 'S' (own.subset (.head _))))
      · exact (ih rest).trans (List.suffix_cons _ _).isInfix

theorem Borrows.indented {source text unit result : String} (own : Borrows source text)
    (blank : ∀ c ∈ unit.toList, isGapChar c) (read : indentLines text unit = .ok result) :
    Borrows source result := by
  unfold indentLines at read
  cases lexed : lex text with
  | error fault =>
    rw [lexed] at read
    cases read
  | ok tokens =>
    rw [lexed] at read
    obtain rfl := Except.ok.inj read
    intro w marker inside
    rw [String.toList_ofList] at inside
    obtain ⟨spaced, spread, whole⟩ := indentFrom_spread ((tokens.filter (·.kind.isText)).map Token.extent)
      unit.toList 0 text.toList []
    rw [indentFrom, List.append_nil, List.append_nil] at whole
    rw [whole] at inside
    exact own w marker (spread.infix_marker blank marker inside)

end

end Deasync
