import Deasync.Proofs.Lexeme.Exchange
import Deasync.Proofs.Lexeme.Pattern

namespace Deasync

open Lexeme

namespace Lexeme.Pattern

def name : Pattern := .seq (.one startsWord) (.many (.one continuesWord))

def ident : Pattern := .either (.row [.text "r#", name]) name

def lifetime : Pattern := .row [.text "'", name]

-- What stands behind the backslash of an escape.
def escape : Pattern :=
  .anyOf [.row [.text "x", .one isHex, .one isHex],
    .row [.text "u\x7b", .one isHex, .upTo 5 (.one isHex), .text "\x7d"], .noneOf "\n"]

def charBody : Pattern := .row [.either (.row [.text "\\", escape]) (.noneOf "\\'\n"), .text "'"]

def char : Pattern := .row [.optional (.text "b"), .text "'", charBody]

def stringBody : Pattern :=
  .row [.many (.either (.row [.text "\\", anything]) (.noneOf "\"\\")), .text "\""]

def string : Pattern := .row [.optional (.text "b"), .text "\"", stringBody]

def rawBody : Pattern :=
  .anyOf [.row [.text "\"", .many (.noneOf "\""), .text "\""],
    .row [.text "#\"", .many anything, .text "\"#"], .row [.text "##\"", .many anything, .text "\"##"]]

def rawString : Pattern := .row [.optional (.text "b"), .text "r", rawBody]

def radix : Pattern :=
  .anyOf [.row [.text "0x", .many1 (.one fun c => isHex c || c == '_')],
    .row [.text "0o", .many1 (.one fun c => (decide ('0' ≤ c) && decide (c ≤ '7')) || c == '_')],
    .row [.text "0b", .many1 (.one fun c => c == '0' || c == '1' || c == '_')]]

def fraction : Pattern := .row [.text ".", .one Char.isDigit, .many (.one isDecimal)]

def exponent : Pattern := .row [.oneOf "eE", .optional (.oneOf "+-"), .many1 (.one isDecimal)]

def decimal : Pattern :=
  .row [.one Char.isDigit, .many (.one isDecimal), .optional fraction, .optional exponent]

def suffix : Pattern :=
  .anyOf [.row [.oneOf "iu", .anyOf (["8", "16", "32", "64", "128", "size"].map .text)], .text "f32", .text "f64"]

def number : Pattern := .row [.either radix decimal, .optional suffix]

def docLine : Pattern := .row [.text "///", .absent (.text "/"), .many (.noneOf "\n")]

def docBlock : Pattern := .row [.text "/**", .absent (.oneOf "*/"), .many anything, .text "*/"]

-- What is left out.

def whiteSpace : Pattern := .many1 (.oneOf " \t\x0c\r\n")

def lineComment : Pattern :=
  .row [.text "//", .absent (.row [.text "/", .absent (.text "/")]), .many (.noneOf "\n")]

def blockComment : Pattern :=
  .row [.text "/*", .absent (.row [.text "*", .absent (.oneOf "*/")]), .many anything, .text "*/"]

end Lexeme.Pattern

-- The terminal of a kind.
def Kind.terminal : Kind → Lexeme.Pattern
  | .fnWord => .text "fn" | .asyncWord => .text "async" | .pubWord => .text "pub"
  | .traitWord => .text "trait" | .implWord => .text "impl" | .forWord => .text "for"
  | .whereWord => .text "where" | .unsafeWord => .text "unsafe" | .externWord => .text "extern"
  | .constWord => .text "const" | .typeWord => .text "type" | .mutWord => .text "mut"
  | .dynWord => .text "dyn" | .selfWord => .text "self" | .asWord => .text "as"
  | .underscore => .text "_"
  | .ident => .ident | .lifetime => .lifetime | .char => .char | .string => .string
  | .rawString => .rawString | .number => .number | .docLine => .docLine | .docBlock => .docBlock
  | .otherPunct => .oneOf "-%^|@$~/\\"
  | .hash => .text "#" | .openSquare => .text "[" | .closeSquare => .text "]"
  | .openRound => .text "(" | .closeRound => .text ")"
  | .openCurly => .text "\x7b" | .closeCurly => .text "\x7d"
  | .colon => .text ":" | .bang => .text "!" | .semicolon => .text ";" | .equal => .text "="
  | .comma => .text "," | .ampersand => .text "&" | .less => .text "<" | .greater => .text ">"
  | .plus => .text "+" | .question => .text "?" | .star => .text "*" | .dot => .text "."
  | .ampersands => .text "&&" | .pathSep => .text "::" | .dotDot => .text ".." | .arrow => .text "->"
  | .fatArrow => .text "=>"

namespace Lexeme

-- White space and comments go as far as they can, except that a block comment ends where it first can.
inductive Ignored (cs : List Char) (n : Nat) : Prop where
  | whiteSpace : Pattern.whiteSpace.Longest cs n → Ignored cs n
  | lineComment : Pattern.lineComment.Longest cs n → Ignored cs n
  | blockComment : Pattern.blockComment.Shortest cs n → Ignored cs n

-- The first `n` characters are white space and comments.
def Gap : List Char → Nat → Prop := Repeated Ignored

-- No token, no comment and no white space stands in front.
structure Unmatched (cs : List Char) : Prop where
  token : ∀ (kind : Kind) (n : Nat), ¬kind.terminal.Takes cs n
  whiteSpace : ∀ n, ¬Pattern.whiteSpace.Takes cs n
  lineComment : ∀ n, ¬Pattern.lineComment.Takes cs n
  blockComment : ∀ n, ¬Pattern.blockComment.Takes cs n

namespace Pattern

variable {cs : List Char} {n : Nat}

theorem name_takes {c : Char} (starts : startsWord c) :
    name.Takes (c :: cs) (run continuesWord cs + 1) := by
  rw [Nat.add_comm]
  exact ⟨1, _, ⟨⟨c, cs, rfl, starts⟩, rfl⟩, takes_many_one.mpr (Nat.le_refl _), rfl⟩

theorem ident_takes (read : word cs = some n) : ident.Takes cs n := by
  cases cs with
  | nil => cases read
  | cons c rest =>
    rcases name_or_plain c rest with ⟨d, more, rfl, rfl, starts⟩ | plain
    · rw [word_name d more starts] at read
      cases read
      exact .inl (takes_text_cons.mpr ⟨d :: more, _, rfl,
        takes_row_singleton.mpr (name_takes starts), Nat.add_comm _ 2⟩)
    · rw [word_plain plain] at read
      obtain ⟨starts, size⟩ := Option.ite_none_right_eq_some.mp read
      cases size
      exact .inr (name_takes starts)

theorem lifetime_takes (read : Lexeme.lifetime cs = some n) : lifetime.Takes cs n := by
  unfold Lexeme.lifetime at read
  split at read
  · rename_i c rest
    obtain ⟨starts, size⟩ := Option.ite_none_right_eq_some.mp read
    cases size
    exact takes_text_cons.mpr ⟨c :: rest, _, rfl, takes_row_singleton.mpr (name_takes starts),
      Nat.add_comm _ 1⟩
  · cases read

theorem reserved_terminal : ∀ entry ∈ Kind.reserved, entry.2.terminal = .text entry.1 := by
  simp [Kind.reserved, Kind.terminal]

theorem word_takes (read : word cs = some n) :
    (Kind.ofWord (String.ofList (cs.take n))).terminal.Takes cs n := by
  rw [Kind.ofWord]
  cases found : Kind.reserved.lookup (String.ofList (cs.take n)) with
  | none => exact ident_takes read
  | some kind =>
    obtain ⟨before, after, split, _⟩ := List.lookup_eq_some_iff.mp found
    have listed : (String.ofList (cs.take n), kind) ∈ Kind.reserved := by simp [split]
    rw [Option.getD_some, reserved_terminal _ listed]
    have within : n ≤ cs.length := cuttable_word.within read
    exact ⟨by simpa using List.take_prefix n cs, by simp [Nat.min_eq_left within]⟩

-- A literal and the same one behind a `b`.
theorem literal_takes {s : String} {p : Pattern} (taken : p.Takes cs n) :
    (row [optional (text "b"), text s, p]).Takes (s.toList ++ cs) (n + s.toList.length) :=
  takes_optional_cons.mpr (.inr (takes_text_cons.mpr
    ⟨cs, n, rfl, takes_row_singleton.mpr taken, Nat.add_comm _ _⟩))

theorem byteLiteral_takes {s : String} {p : Pattern} (taken : p.Takes cs n) :
    (row [optional (text "b"), text s, p]).Takes ('b' :: (s.toList ++ cs)) (n + s.toList.length + 1) :=
  takes_optional_cons.mpr (.inl (takes_text_cons.mpr ⟨s.toList ++ cs, _, rfl, takes_text_cons.mpr
    ⟨cs, n, rfl, takes_row_singleton.mpr taken, rfl⟩, by simp; omega⟩))

theorem through_takes {s : String} {f : Char → Bool}
    (each : ∀ c rest, ¬s.toList <+: c :: rest → f c) (closed : through s.toList cs = some n) :
    (row [many (one f), text s]).Takes cs n := by
  induction cs generalizing n with
  | nil => cases closed
  | cons c rest ih =>
    rw [through] at closed
    split at closed
    · rename_i here
      cases closed
      exact takes_many_nil (takes_row_singleton.mpr ⟨List.isPrefixOf_iff_prefix.mp here, rfl⟩)
    · rename_i other
      obtain ⟨m, inner, rfl⟩ := Option.map_eq_some_iff.mp closed
      rw [List.isPrefixOf_iff_prefix] at other
      rw [Nat.add_comm]
      exact takes_many_cons ⟨⟨c, rest, rfl, each c rest other⟩, rfl⟩ (ih inner)

theorem rawBody_takes (read : Lexeme.rawBody cs = some n) : rawBody.Takes cs n := by
  have quote : ∀ c rest, ¬"\"".toList <+: c :: rest → !"\"".toList.contains c := by
    intro c rest other
    have plain : c ≠ '"' := fun same => other ⟨rest, by rw [same]; rfl⟩
    simp [plain]
  unfold Lexeme.rawBody at read
  split at read
  · obtain ⟨m, inner, rfl⟩ := Option.map_eq_some_iff.mp read
    exact takes_anyOf.mpr ⟨_, .head _, takes_text_cons.mpr
      ⟨_, m, rfl, through_takes quote inner, Nat.add_comm _ _⟩⟩
  · obtain ⟨m, inner, rfl⟩ := Option.map_eq_some_iff.mp read
    exact takes_anyOf.mpr ⟨_, .tail _ (.head _), takes_text_cons.mpr
      ⟨_, m, rfl, through_takes (fun _ _ _ => rfl) inner, Nat.add_comm _ _⟩⟩
  · obtain ⟨m, inner, rfl⟩ := Option.map_eq_some_iff.mp read
    exact takes_anyOf.mpr ⟨_, .tail _ (.tail _ (.head _)), takes_text_cons.mpr
      ⟨_, m, rfl, through_takes (fun _ _ _ => rfl) inner, Nat.add_comm _ _⟩⟩
  · cases read

theorem rawString_takes (read : Lexeme.rawString cs = some n) : rawString.Takes cs n := by
  unfold Lexeme.rawString at read
  split at read
  · obtain ⟨m, inner, rfl⟩ := Option.map_eq_some_iff.mp read
    exact byteLiteral_takes (rawBody_takes inner)
  · obtain ⟨m, inner, rfl⟩ := Option.map_eq_some_iff.mp read
    exact literal_takes (rawBody_takes inner)
  · cases read

theorem stringBody_takes (read : Lexeme.stringBody cs = some n) : stringBody.Takes cs n := by
  fun_induction Lexeme.stringBody cs generalizing n with
  | case1 => cases read
  | case2 rest =>
    cases read
    exact takes_many_nil (takes_row_singleton.mpr ⟨⟨rest, rfl⟩, rfl⟩)
  | case3 => cases read
  | case4 c rest ih =>
    obtain ⟨m, inner, rfl⟩ := Option.map_eq_some_iff.mp read
    rw [Nat.add_comm]
    refine takes_many_cons (.inl (takes_text_cons.mpr ⟨c :: rest, 1, rfl, ?_, rfl⟩)) (ih inner)
    exact takes_row_singleton.mpr ⟨⟨c, rest, rfl, rfl⟩, rfl⟩
  | case5 c rest quote single pair ih =>
    obtain ⟨m, inner, rfl⟩ := Option.map_eq_some_iff.mp read
    have plain : c ≠ '"' ∧ c ≠ '\\' := ⟨quote, plain_of_not_escape single pair⟩
    rw [Nat.add_comm]
    exact takes_many_cons (.inr ⟨⟨c, rest, rfl, by simp [plain]⟩, rfl⟩) (ih inner)

theorem string_takes (read : stringLiteral cs = some n) : string.Takes cs n := by
  unfold stringLiteral at read
  split at read
  · obtain ⟨m, inner, rfl⟩ := Option.map_eq_some_iff.mp read
    exact byteLiteral_takes (stringBody_takes inner)
  · obtain ⟨m, inner, rfl⟩ := Option.map_eq_some_iff.mp read
    exact literal_takes (stringBody_takes inner)
  · cases read

theorem escape_takes (read : escapeBody cs = some n) : (row [escape, text "'"]).Takes cs n := by
  unfold escapeBody at read
  split at read
  · rename_i c rest
    obtain ⟨line, size⟩ := Option.ite_none_left_eq_some.mp read
    cases size
    refine takes_row_cons.mpr ⟨1, 1, takes_anyOf.mpr ⟨_, .tail _ (.tail _ (.head _)), ?_⟩,
      takes_row_singleton.mpr ⟨⟨rest, rfl⟩, rfl⟩, rfl⟩
    exact ⟨⟨c, _, rfl, by simp [line]⟩, rfl⟩
  · rename_i a b rest _
    obtain ⟨hex, size⟩ := Option.ite_none_right_eq_some.mp read
    cases size
    rw [Bool.and_eq_true] at hex
    refine takes_row_cons.mpr ⟨3, 1, takes_anyOf.mpr ⟨_, .head _, ?_⟩,
      takes_row_singleton.mpr ⟨⟨rest, rfl⟩, rfl⟩, rfl⟩
    exact takes_text_cons.mpr ⟨_, 2, rfl, takes_one_cons.mpr ⟨a, _, 1, rfl, hex.1,
      takes_row_singleton.mpr ⟨⟨b, _, rfl, hex.2⟩, rfl⟩, rfl⟩, rfl⟩
  · rename_i rest _
    obtain ⟨digits, size⟩ := Option.ite_none_right_eq_some.mp read
    cases size
    simp only [Bool.and_eq_true, decide_eq_true_eq] at digits
    obtain ⟨⟨least, most⟩, closed⟩ := digits
    obtain ⟨c, more, rfl, hex, _⟩ := run_succ least
    rw [run_cons_of_pos hex] at most closed ⊢
    obtain ⟨tail, closed⟩ := List.isPrefixOf_iff_prefix.mp closed
    rw [List.drop_succ_cons] at closed
    refine takes_row_cons.mpr ⟨run isHex more + 4, 1, takes_anyOf.mpr ⟨_, .tail _ (.head _), ?_⟩, ?_, rfl⟩
    · refine takes_text_cons.mpr ⟨_, run isHex more + 2, rfl, takes_one_cons.mpr ⟨c, more, _, rfl, hex,
        takes_row_cons.mpr ⟨run isHex more, 1, takes_upTo_one.mpr ⟨by omega, Nat.le_refl _⟩,
          takes_row_singleton.mpr ⟨⟨_, closed⟩, rfl⟩, rfl⟩, rfl⟩, Nat.add_comm _ 2⟩
    · rw [Nat.add_comm _ 4, ← List.drop_drop]
      refine takes_row_singleton.mpr ⟨?_, rfl⟩
      change _ <+: (more.drop 1).drop (run isHex more)
      rw [List.drop_drop, Nat.add_comm, ← List.drop_drop, ← closed]
      exact ⟨tail, rfl⟩
  · cases read

theorem charBody_takes (read : Lexeme.charBody cs = some n) : charBody.Takes cs n := by
  unfold Lexeme.charBody at read
  split at read
  · obtain ⟨m, inner, rfl⟩ := Option.map_eq_some_iff.mp read
    obtain ⟨j, k, taken, later, rfl⟩ := escape_takes inner
    refine takes_row_cons.mpr ⟨j + 1, k, .inl (takes_text_cons.mpr
      ⟨_, j, rfl, takes_row_singleton.mpr taken, Nat.add_comm _ _⟩), later, by omega⟩
  · rename_i c rest _
    obtain ⟨plain, size⟩ := Option.ite_none_left_eq_some.mp read
    cases size
    refine takes_row_cons.mpr ⟨1, 1, .inr ⟨⟨c, _, rfl, ?_⟩, rfl⟩,
      takes_row_singleton.mpr ⟨⟨rest, rfl⟩, rfl⟩, rfl⟩
    have plain : c ≠ '\'' ∧ c ≠ '\n' := by simpa using plain
    simp [plain, show c ≠ '\\' from ‹_›]
  · cases read

theorem char_takes (read : charLiteral cs = some n) : char.Takes cs n := by
  unfold charLiteral at read
  split at read
  · obtain ⟨m, inner, rfl⟩ := Option.map_eq_some_iff.mp read
    exact byteLiteral_takes (charBody_takes inner)
  · obtain ⟨m, inner, rfl⟩ := Option.map_eq_some_iff.mp read
    exact literal_takes (charBody_takes inner)
  · cases read

theorem radix_takes (read : Lexeme.radix cs = some n) : radix.Takes cs n := by
  obtain ⟨mark, rest, rfl, filled, rfl⟩ := radix_some read
  rw [radixDigits] at filled ⊢
  split at filled
  · rename_i same
    subst same
    exact takes_anyOf.mpr ⟨_, .head _, takes_text_cons.mpr ⟨rest, _, rfl,
      takes_row_singleton.mpr (takes_many1_one.mpr ⟨filled, Nat.le_refl _⟩), Nat.add_comm _ 2⟩⟩
  · rw [if_neg ‹_›]
    split at filled
    · rename_i same
      subst same
      exact takes_anyOf.mpr ⟨_, .tail _ (.head _), takes_text_cons.mpr ⟨rest, _, rfl,
        takes_row_singleton.mpr (takes_many1_one.mpr ⟨filled, Nat.le_refl _⟩), Nat.add_comm _ 2⟩⟩
    · rw [if_neg ‹_›]
      split at filled
      · rename_i same
        subst same
        exact takes_anyOf.mpr ⟨_, .tail _ (.tail _ (.head _)), takes_text_cons.mpr ⟨rest, _, rfl,
          takes_row_singleton.mpr (takes_many1_one.mpr ⟨filled, Nat.le_refl _⟩), Nat.add_comm _ 2⟩⟩
      · exact absurd rfl filled

theorem fraction_takes (cs : List Char) : (optional fraction).Takes cs (Lexeme.fraction cs) := by
  unfold Lexeme.fraction
  split
  · split
    · rename_i c rest digit
      exact .inl (takes_text_cons.mpr ⟨c :: rest, _, rfl, takes_one_cons.mpr ⟨c, rest, _, rfl, digit,
        takes_row_singleton.mpr (takes_many_one.mpr (Nat.le_refl _)), rfl⟩, Nat.add_comm _ 1⟩)
    · exact takes_optional_none
  · exact takes_optional_none

theorem sign_takes {p : Pattern} {cs : List Char} (taken : p.Takes (cs.drop (signLength cs)) n) :
    (row [optional (oneOf "+-"), p]).Takes cs (signLength cs + n) := by
  refine takes_row_cons.mpr ⟨signLength cs, n, ?_, takes_row_singleton.mpr taken, rfl⟩
  unfold signLength
  split
  · rename_i c rest
    split
    · rename_i sign
      exact .inl ⟨⟨c, rest, rfl, by simpa using sign⟩, rfl⟩
    · exact takes_optional_none
  · exact takes_optional_none

theorem exponent_takes (cs : List Char) : (optional exponent).Takes cs (Lexeme.exponent cs) := by
  cases cs with
  | nil => exact takes_optional_none
  | cons mark rest =>
    rw [exponent_cons]
    split
    · rename_i letter
      split
      · exact takes_optional_none
      · rename_i filled
        have digits := takes_many1_one.mpr ⟨filled, Nat.le_refl _⟩
        exact .inl (takes_one_cons.mpr ⟨mark, rest, _, rfl, by simpa using letter, sign_takes digits,
          by omega⟩)
    · exact takes_optional_none

theorem decimal_takes (read : Lexeme.decimal cs = some n) : decimal.Takes cs n := by
  cases cs with
  | nil => cases read
  | cons c rest =>
    obtain ⟨digit, size⟩ := Option.ite_none_right_eq_some.mp read
    cases size
    refine takes_one_cons.mpr ⟨c, rest, _, rfl, digit, takes_row_cons.mpr ⟨run isDecimal rest, _,
      takes_many_one.mpr (Nat.le_refl _), takes_row_cons.mpr ⟨_, _, fraction_takes _,
      takes_row_singleton.mpr (exponent_takes _), rfl⟩, rfl⟩, ?_⟩
    rw [List.drop_drop, List.drop_succ_cons, Nat.add_right_comm (run isDecimal rest) 1,
      List.drop_succ_cons]
    omega

theorem suffix_shape : ∀ ending ∈ suffixes,
    (∃ c ∈ "iu".toList, ∃ size ∈ ["8", "16", "32", "64", "128", "size"], ending = c :: size.toList) ∨
      ∃ s ∈ ["f32", "f64"], ending = s.toList := by
  simp [suffixes]

theorem suffix_takes (cs : List Char) : (optional suffix).Takes cs (suffixLength cs) := by
  unfold suffixLength
  split
  · rename_i ending found
    have listed := List.mem_of_find?_eq_some found
    obtain ⟨rest, rfl⟩ : ending <+: cs := by simpa using List.find?_some found
    refine .inl (takes_anyOf.mpr ?_)
    rcases suffix_shape ending listed with ⟨c, letter, size, known, rfl⟩ | ⟨s, known, rfl⟩
    · exact ⟨_, .head _, takes_one_cons.mpr ⟨c, size.toList ++ rest, _, rfl,
        List.contains_iff_mem.mpr letter, takes_row_singleton.mpr (takes_anyOf.mpr
          ⟨_, List.mem_map_of_mem known, ⟨rest, rfl⟩, rfl⟩), rfl⟩⟩
    · refine ⟨.text s, .tail _ ?_, ⟨rest, rfl⟩, rfl⟩
      exact List.mem_map_of_mem (f := text) known
  · exact takes_optional_none

theorem number_takes (read : Lexeme.number cs = some n) : number.Takes cs n := by
  obtain ⟨digits, inner, rfl⟩ := number_some read
  refine takes_row_cons.mpr ⟨digits, _, ?_, takes_row_singleton.mpr (suffix_takes _), rfl⟩
  rcases Option.or_eq_some_iff.mp inner with based | ⟨_, plain⟩
  · exact .inl (radix_takes based)
  · exact .inr (decimal_takes plain)

theorem pair_terminal : ∀ entry ∈ Kind.pairs,
    entry.2.terminal = .text (String.ofList [entry.1.1, entry.1.2]) := by
  simp [Kind.pairs, Kind.terminal]

theorem single_terminal : ∀ entry ∈ Kind.singles, entry.2.terminal = .text (String.singleton entry.1) ∨
    entry.2 = .otherPunct ∧ entry.1 ∈ "-%^|@$~/\\".toList := by
  simp [Kind.singles, Kind.terminal]

theorem mark_takes {kind : Kind} (read : mark cs = some (.token kind, n)) : kind.terminal.Takes cs n := by
  unfold mark at read
  dsimp only at read
  rcases Option.or_eq_some_iff.mp read with pair | ⟨_, single⟩
  · split at pair
    · rename_i a b rest
      obtain ⟨own, found, same⟩ := Option.map_eq_some_iff.mp pair
      cases same
      obtain ⟨before, after, split, _⟩ := List.lookup_eq_some_iff.mp found
      rw [pair_terminal ((a, b), kind) (by simp [split])]
      exact ⟨by simp, by simp⟩
    · cases pair
  · split at single
    · rename_i c rest _
      obtain ⟨own, found, same⟩ := Option.map_eq_some_iff.mp single
      cases same
      obtain ⟨before, after, split, _⟩ := List.lookup_eq_some_iff.mp found
      rcases single_terminal (c, kind) (by simp [split]) with plain | ⟨rfl, other⟩
      · rw [plain]
        exact ⟨by simp, by simp⟩
      · exact ⟨⟨c, rest, rfl, List.contains_iff_mem.mpr other⟩, rfl⟩
    · cases single

-- What leads through the first ending is the shortest match.
theorem through_shortest {s : String} (closed : through s.toList cs = some n) :
    (row [many anything, text s]).Shortest cs n := by
  refine ⟨through_takes (fun _ _ _ => rfl) closed, ?_⟩
  rintro m ⟨k, j, reached, ends, rfl⟩
  obtain ⟨here, rfl⟩ := takes_row_singleton.mp ends
  have within := takes_many_anything.mp reached
  clear reached ends
  induction cs generalizing n k with
  | nil => cases closed
  | cons c rest ih =>
    rw [through] at closed
    split at closed
    · cases closed
      exact Nat.le_add_left _ _
    · rename_i later
      obtain ⟨m, inner, rfl⟩ := Option.map_eq_some_iff.mp closed
      cases k with
      | zero => exact absurd (List.isPrefixOf_iff_prefix.mpr here) later
      | succ k =>
        have least := ih inner k here (Nat.le_of_succ_le_succ within)
        omega

theorem run_noneOf_line (cs : List Char) :
    run (fun c => !"\n".toList.contains c) cs = run (fun c => decide (c ≠ '\n')) cs := by
  congr
  funext c
  simp

-- The slash that makes a line comment documentation.
theorem docSlash_takes : (row [text "/", absent (text "/")]).Takes cs n ↔
    ∃ rest, cs = '/' :: rest ∧ rest.head? ≠ some '/' ∧ n = 1 := by
  rw [takes_text_cons]
  constructor
  · rintro ⟨rest, k, rfl, later, rfl⟩
    obtain ⟨fails, last⟩ := takes_absent_cons.mp later
    cases takes_row_nil.mp last
    refine ⟨rest, rfl, fun slash => ?_, rfl⟩
    obtain ⟨more, rfl⟩ := List.head?_eq_some_iff.mp slash
    exact fails 1 ⟨⟨more, rfl⟩, rfl⟩
  · rintro ⟨rest, rfl, single, rfl⟩
    refine ⟨rest, 0, rfl, takes_absent_cons.mpr ⟨?_, takes_row_nil.mpr rfl⟩, rfl⟩
    rintro m ⟨⟨more, rfl⟩, _⟩
    exact single rfl

theorem lineClass_eq (cs : List Char) : (∃ rest, cs = '/' :: rest ∧ rest.head? ≠ some '/') ∧
      lineClass cs = .token .docLine ∨
    (∀ m, ¬(row [text "/", absent (text "/")]).Takes cs m) ∧ lineClass cs = .gap := by
  unfold lineClass
  split
  · refine .inr ⟨fun m taken => ?_, rfl⟩
    obtain ⟨rest, same, single, _⟩ := docSlash_takes.mp taken
    cases same
    exact single rfl
  · rename_i rest double
    refine .inl ⟨⟨rest, rfl, fun slash => ?_⟩, rfl⟩
    obtain ⟨more, rfl⟩ := List.head?_eq_some_iff.mp slash
    exact double _ rfl
  · rename_i none
    refine .inr ⟨fun m taken => ?_, rfl⟩
    obtain ⟨rest, same, _⟩ := docSlash_takes.mp taken
    exact none _ same

theorem lineComment_longest (plain : ∀ m, ¬(row [text "/", absent (text "/")]).Takes cs m) :
    lineComment.Longest ('/' :: '/' :: cs) (run (· ≠ '\n') cs + 2) := by
  constructor
  · refine takes_text_cons.mpr ⟨cs, _, rfl, takes_absent_cons.mpr ⟨plain,
      takes_row_singleton.mpr (takes_many_one.mpr ?_)⟩, Nat.add_comm _ 2⟩
    exact Nat.le_of_eq (run_noneOf_line cs).symm
  · intro m taken
    obtain ⟨rest, k, same, later, rfl⟩ := takes_text_cons.mp taken
    cases same
    have within := takes_many_one.mp (takes_row_singleton.mp (takes_absent_cons.mp later).2)
    rw [run_noneOf_line] at within
    rw [Nat.add_comm]
    exact Nat.add_le_add_right within 2

theorem docLine_takes (single : cs.head? ≠ some '/') :
    docLine.Takes ('/' :: '/' :: '/' :: cs) (run (· ≠ '\n') cs + 3) := by
  refine takes_text_cons.mpr ⟨cs, _, rfl, takes_absent_cons.mpr ⟨?_,
    takes_row_singleton.mpr (takes_many_one.mpr ?_)⟩, Nat.add_comm _ 3⟩
  · rintro m ⟨⟨more, rfl⟩, _⟩
    exact single rfl
  · exact Nat.le_of_eq (run_noneOf_line cs).symm

-- The star that makes a block comment documentation.
theorem docStar_takes : (row [text "*", absent (oneOf "*/")]).Takes cs n ↔
    ∃ rest, cs = '*' :: rest ∧ (∀ c ∈ rest.head?, c ≠ '*' ∧ c ≠ '/') ∧ n = 1 := by
  rw [takes_text_cons]
  constructor
  · rintro ⟨rest, k, rfl, later, rfl⟩
    obtain ⟨fails, last⟩ := takes_absent_cons.mp later
    cases takes_row_nil.mp last
    refine ⟨rest, rfl, fun c first => ?_, rfl⟩
    obtain ⟨more, rfl⟩ := List.head?_eq_some_iff.mp first
    rw [← not_or]
    exact fun mark => fails 1 ⟨⟨c, more, rfl, by simpa using mark⟩, rfl⟩
  · rintro ⟨rest, rfl, single, rfl⟩
    refine ⟨rest, 0, rfl, takes_absent_cons.mpr ⟨?_, takes_row_nil.mpr rfl⟩, rfl⟩
    rintro m ⟨⟨c, more, rfl, mark⟩, _⟩
    have plain := single c rfl
    simp [plain] at mark

theorem blockComment_shortest (plain : ∀ m, ¬(row [text "*", absent (oneOf "*/")]).Takes cs m)
    (closed : through ['*', '/'] cs = some n) : blockComment.Shortest ('/' :: '*' :: cs) (n + 2) := by
  have shortest := through_shortest (s := "*/") closed
  constructor
  · exact takes_text_cons.mpr ⟨cs, n, rfl, takes_absent_cons.mpr ⟨plain, shortest.1⟩, Nat.add_comm n 2⟩
  · intro m taken
    obtain ⟨rest, k, same, later, rfl⟩ := takes_text_cons.mp taken
    cases same
    rw [Nat.add_comm]
    exact Nat.add_le_add_left (shortest.2 k (takes_absent_cons.mp later).2) 2

theorem docBlock_takes (single : ∀ c ∈ cs.head?, c ≠ '*' ∧ c ≠ '/')
    (closed : through ['*', '/'] cs = some n) :
    docBlock.Takes ('/' :: '*' :: '*' :: cs) (n + 3) := by
  have shortest := through_shortest (s := "*/") closed
  refine takes_text_cons.mpr ⟨cs, n, rfl, takes_absent_cons.mpr ⟨?_, shortest.1⟩, Nat.add_comm n 3⟩
  rintro m ⟨⟨c, more, rfl, mark⟩, _⟩
  have plain := single c rfl
  simp [plain] at mark

-- A comment is left out unless it is documentation.
theorem comment_terminal {found : Class} (read : comment cs = some (found, n)) :
    (∃ kind, found = .token kind ∧ kind.terminal.Takes cs n) ∨ found = .gap ∧ Ignored cs n := by
  obtain ⟨rest, rfl⟩ := comment_slash read
  obtain ⟨d, more, rfl⟩ : ∃ d more, rest = d :: more := by
    cases rest with
    | nil => cases read
    | cons d more => exact ⟨d, more, rfl⟩
  by_cases line : d = '/'
  · subst line
    rw [comment_line] at read
    cases read
    rcases lineClass_eq more with ⟨⟨cs, rfl, single⟩, doc⟩ | ⟨plain, gap⟩
    · refine .inl ⟨.docLine, doc, ?_⟩
      rw [run_cons_of_pos (by decide)]
      exact docLine_takes single
    · exact .inr ⟨gap, .lineComment (lineComment_longest plain)⟩
  · by_cases block : d = '*'
    · subst block
      match more with
      | [] | [_] =>
        rw [comment_short (by simp)] at read
        cases read
      | a :: b :: cs =>
        rw [comment_block, blockEnd] at read
        split at read
        · rename_i doc
          obtain ⟨m, closed, same⟩ := Option.map_eq_some_iff.mp read
          cases same
          obtain ⟨rfl, single⟩ := doc
          refine .inl ⟨.docBlock, rfl, docBlock_takes ?_ closed⟩
          rintro c ⟨⟩
          exact not_or.mp single
        · rename_i plain
          obtain ⟨m, closed, same⟩ := Option.map_eq_some_iff.mp read
          cases same
          refine .inr ⟨rfl, .blockComment (blockComment_shortest ?_ closed)⟩
          intro m taken
          obtain ⟨rest, same, single, _⟩ := docStar_takes.mp taken
          cases same
          exact plain ⟨rfl, not_or.mpr (single b rfl)⟩
    · rw [comment_ne (by simp [line, block])] at read
      cases read

theorem terminal_filled (kind : Kind) : kind.terminal.nullable = false := by
  cases kind <;> decide

theorem terminal_leads {c : Char} {kind : Kind} (begins : kind.terminal.leads c) :
    startsWord c ∨ c.isDigit ∨ c ∈ Kind.singles.map Prod.fst ∨ c = '"' ∧ kind = .string ∨
      c = '\'' ∧ (kind = .char ∨ kind = .lifetime) := by
  cases kind <;> simp [Kind.terminal, leads, nullable, row, anyOf, optional, many1, oneOf, noneOf, ident, name,
    lifetime, char, string, rawString, rawBody, number, radix, decimal, docLine, docBlock] at begins
  case ident =>
    rcases begins with rfl | starts
    · exact .inl rfl
    · exact .inl starts
  case number =>
    rcases begins with rfl | digit
    · exact .inr (.inl rfl)
    · exact .inr (.inl digit)
  case char | string | rawString => rcases begins with rfl | rfl <;> decide
  case otherPunct => rcases begins with rfl | rfl | rfl | rfl | rfl | rfl | rfl | rfl | rfl <;> decide
  all_goals subst begins; decide

theorem stringBody_read (taken : stringBody.Takes cs n) : ∃ m, Lexeme.stringBody cs = some m := by
  obtain ⟨j, k, body, ends, -⟩ := takes_row_cons.mp taken
  obtain ⟨closed, -⟩ := takes_row_singleton.mp ends
  change Repeated _ _ _ at body
  clear ends taken
  induction body with
  | none =>
    obtain ⟨rest, rfl⟩ := closed
    exact ⟨1, rfl⟩
  | @more cs m n item _ ih =>
    rw [← List.drop_drop] at closed
    obtain ⟨size, inner⟩ := ih closed
    rcases item with escaped | ⟨⟨c, rest, rfl, plain⟩, rfl⟩
    · obtain ⟨later, _, rfl, last, rfl⟩ := takes_text_cons.mp escaped
      obtain ⟨⟨c, rest, rfl, _⟩, rfl⟩ := takes_row_singleton.mp last
      exact ⟨size + 2, by rw [show "\\".toList ++ c :: rest = '\\' :: c :: rest from rfl, Lexeme.stringBody,
        show Lexeme.stringBody rest = some size from inner]; rfl⟩
    · have plain : c ≠ '"' ∧ c ≠ '\\' := by simpa using plain
      refine ⟨size + 1, ?_⟩
      rw [Lexeme.stringBody, show Lexeme.stringBody rest = some size from inner]
      · rfl
      · exact plain.1
      · exact fun same => absurd same plain.2
      · exact fun _ _ same => absurd same plain.2

theorem escape_read (taken : (row [escape, text "'"]).Takes cs n) : ∃ m, escapeBody cs = some m := by
  obtain ⟨j, k, body, ends, -⟩ := takes_row_cons.mp taken
  obtain ⟨closed, -⟩ := takes_row_singleton.mp ends
  obtain ⟨p, listed, body⟩ := takes_anyOf.mp body
  simp only [List.mem_cons, List.not_mem_nil, or_false] at listed
  rcases listed with rfl | rfl | rfl
  · obtain ⟨digits, _, rfl, hex, rfl⟩ := takes_text_cons.mp body
    obtain ⟨a, other, _, rfl, one, last, rfl⟩ := takes_one_cons.mp hex
    obtain ⟨⟨b, rest, rfl, two⟩, rfl⟩ := takes_row_singleton.mp last
    obtain ⟨rest, rfl⟩ := closed
    refine ⟨4, ?_⟩
    change escapeBody ('x' :: a :: b :: '\'' :: rest) = _
    rw [escapeBody, if_pos (by rw [one, two]; rfl)]
    rintro rfl
    cases one
  · obtain ⟨digits, _, rfl, hex, rfl⟩ := takes_text_cons.mp body
    obtain ⟨c, other, _, rfl, one, more, rfl⟩ := takes_one_cons.mp hex
    obtain ⟨i, _, many, last, rfl⟩ := takes_row_cons.mp more
    obtain ⟨⟨later, brace⟩, rfl⟩ := takes_row_singleton.mp last
    obtain ⟨most, within⟩ := takes_upTo_one.mp many
    have length : run isHex other = i :=
      Nat.le_antisymm (run_le_of_drop brace.symm (by decide)) within
    have quote : "'".toList <+: later := by
      have size : "u\x7b".toList.length + (i + "\x7d".toList.length + 1) = i + 1 + 3 := by
        change 2 + (i + 1 + 1) = _
        omega
      rw [size] at closed
      change _ <+: other.drop (i + 1) at closed
      rwa [← List.drop_drop, ← brace] at closed
    obtain ⟨rest, rfl⟩ := quote
    refine ⟨run isHex (c :: other) + 4, ?_⟩
    change escapeBody ('u' :: '\x7b' :: c :: other) = _
    rw [escapeBody]
    change escapeDigits (c :: other) = _
    rw [escapeDigits, if_pos]
    rw [run_cons_of_pos one, length, List.drop_succ_cons, ← brace, decide_eq_true (Nat.le_add_left 1 i),
      decide_eq_true (Nat.succ_le_succ most)]
    rfl
  · obtain ⟨⟨c, rest, rfl, plain⟩, rfl⟩ := body
    obtain ⟨rest, rfl⟩ := closed
    have plain : c ≠ '\n' := by simpa using plain
    exact ⟨2, by simp [escapeBody, plain]⟩

theorem charBody_read (taken : charBody.Takes cs n) : ∃ m, Lexeme.charBody cs = some m := by
  obtain ⟨j, k, body, ends, -⟩ := takes_row_cons.mp taken
  rcases body with escaped | ⟨⟨c, rest, rfl, plain⟩, rfl⟩
  · obtain ⟨rest, i, rfl, body, rfl⟩ := takes_text_cons.mp escaped
    obtain ⟨m, inner⟩ := escape_read (takes_row_cons.mpr ⟨i, k, takes_row_singleton.mp body,
      by rwa [Nat.add_comm] at ends, rfl⟩)
    exact ⟨m + 1, by rw [show "\\".toList ++ rest = '\\' :: rest from rfl, Lexeme.charBody, inner]; rfl⟩
  · obtain ⟨⟨later, rfl⟩, -⟩ := takes_row_singleton.mp ends
    have plain : c ≠ '\\' ∧ c ≠ '\'' ∧ c ≠ '\n' := by simpa using plain
    exact ⟨2, by simp [Lexeme.charBody, plain]⟩

theorem string_read {rest : List Char} (taken : string.Takes ('"' :: rest) n) :
    ∃ m, stringLiteral ('"' :: rest) = some m := by
  rcases takes_optional_cons.mp taken with byte | plain
  · obtain ⟨_, _, same, _⟩ := takes_text_cons.mp byte
    cases same
  · obtain ⟨later, k, same, body, -⟩ := takes_text_cons.mp plain
    obtain rfl : rest = later := List.tail_eq_of_cons_eq same
    obtain ⟨m, read⟩ := stringBody_read (takes_row_singleton.mp body)
    exact ⟨m + 1, by rw [stringLiteral, read]; rfl⟩

theorem char_read {rest : List Char} (taken : char.Takes ('\'' :: rest) n) :
    ∃ m, charLiteral ('\'' :: rest) = some m := by
  rcases takes_optional_cons.mp taken with byte | plain
  · obtain ⟨_, _, same, _⟩ := takes_text_cons.mp byte
    cases same
  · obtain ⟨later, k, same, body, -⟩ := takes_text_cons.mp plain
    obtain rfl : rest = later := List.tail_eq_of_cons_eq same
    obtain ⟨m, read⟩ := charBody_read (takes_row_singleton.mp body)
    exact ⟨m + 1, by rw [charLiteral, read]; rfl⟩

theorem lifetime_read {rest : List Char} (taken : lifetime.Takes ('\'' :: rest) n) :
    ∃ m, Lexeme.lifetime ('\'' :: rest) = some m := by
  obtain ⟨later, k, same, body, -⟩ := takes_text_cons.mp taken
  obtain rfl : rest = later := List.tail_eq_of_cons_eq same
  obtain ⟨_, _, ⟨⟨c, more, rfl, starts⟩, _⟩, _⟩ := takes_row_singleton.mp body
  exact ⟨_, by rw [Lexeme.lifetime, if_pos starts]⟩

theorem word_read {c : Char} (starts : startsWord c) (rest : List Char) : ∃ n, word (c :: rest) = some n := by
  rcases name_or_plain c rest with ⟨d, more, rfl, rfl, inner⟩ | plain
  · exact ⟨_, word_name d more inner⟩
  · exact ⟨_, by rw [word_plain plain, if_pos starts]⟩

theorem mark_read {c : Char} (single : c ∈ Kind.singles.map Prod.fst) (rest : List Char) :
    ∃ r, mark (c :: rest) = some r := by
  cases unread : mark (c :: rest) with
  | some r => exact ⟨r, rfl⟩
  | none =>
    unfold mark at unread
    dsimp only at unread
    have absent := Option.map_eq_none_iff.mp (Option.or_eq_none_iff.mp unread).2
    obtain ⟨⟨_, kind⟩, listed, rfl⟩ := List.mem_map.mp single
    simpa using List.lookup_eq_none_iff.mp absent _ listed

theorem whiteSpace_longest {c : Char} {rest : List Char} (blank : isGapChar c) :
    whiteSpace.Longest (c :: rest) (run isGapChar rest + 1) := by
  have same : whiteSpace = many1 (.one isGapChar) := by
    refine congrArg (fun f => many1 (.one f)) (funext fun d => ?_)
    rw [Bool.eq_iff_iff]
    simp [isGapChar, or_assoc]
  rw [same, ← run_cons_of_pos blank]
  refine ⟨takes_many1_one.mpr ⟨?_, Nat.le_refl _⟩, fun m taken => (takes_many1_one.mp taken).2⟩
  rw [run_cons_of_pos blank]
  exact Nat.succ_ne_zero _

end Pattern

variable {cs : List Char} {n : Nat}

-- Where no lexeme is read, no terminal matches.
theorem lexeme_unmatched (none : lexeme cs = none) : Unmatched cs := by
  simp only [lexeme, Option.or_eq_none_iff, Option.map_eq_none_iff] at none
  obtain ⟨-, noChar, noString, noGap, -, noWord, noNumber, noLifetime, noMark⟩ := none
  have known {c : Char} {rest : List Char} (same : cs = c :: rest) :
      ¬(startsWord c ∨ c.isDigit ∨ c ∈ Kind.singles.map Prod.fst) := by
    subst same
    rintro (starts | digit | single)
    · obtain ⟨n, read⟩ := Pattern.word_read starts rest
      rw [read] at noWord
      cases noWord
    · obtain ⟨n, read⟩ := number_of_digit digit rest
      rw [read] at noNumber
      cases noNumber
    · obtain ⟨r, read⟩ := Pattern.mark_read single rest
      rw [read] at noMark
      cases noMark
  constructor
  · intro kind n taken
    obtain ⟨_, c, rest, rfl, begins⟩ := taken.first (Pattern.terminal_filled kind)
    rcases Pattern.terminal_leads begins with starts | digit | single | ⟨rfl, rfl⟩ | ⟨rfl, rfl | rfl⟩
    · exact known rfl (.inl starts)
    · exact known rfl (.inr (.inl digit))
    · exact known rfl (.inr (.inr single))
    · obtain ⟨m, read⟩ := Pattern.string_read taken
      rw [read] at noString
      cases noString
    · obtain ⟨m, read⟩ := Pattern.char_read taken
      rw [read] at noChar
      cases noChar
    · obtain ⟨m, read⟩ := Pattern.lifetime_read taken
      rw [read] at noLifetime
      cases noLifetime
  · intro n taken
    obtain ⟨_, _, ⟨⟨c, rest, rfl, blank⟩, _⟩, _⟩ := taken
    have blank : isGapChar c := by simpa [isGapChar, or_assoc] using blank
    rw [gap, if_pos blank] at noGap
    cases noGap
  · intro n taken
    obtain ⟨rest, _, rfl, _⟩ := Pattern.takes_text_cons.mp taken
    exact known rfl (.inr (.inr (by decide)))
  · intro n taken
    obtain ⟨rest, _, rfl, _⟩ := Pattern.takes_text_cons.mp taken
    exact known rfl (.inr (.inr (by decide)))

-- A token is a match of the terminal of its kind.
theorem lexeme_takes {kind : Kind} (here : lexeme cs = some (.token kind, n)) :
    kind.terminal.Takes cs n := by
  cases lexeme_reads here with
  | raw read => exact Pattern.rawString_takes read
  | char read => exact Pattern.char_takes read
  | string read => exact Pattern.string_takes read
  | comment read =>
    rcases Pattern.comment_terminal read with ⟨_, same, taken⟩ | ⟨same, _⟩
    · cases same
      exact taken
    · cases same
  | word read same =>
    rw [same]
    exact Pattern.word_takes read
  | number read => exact Pattern.number_takes read
  | lifetime read => exact Pattern.lifetime_takes read
  | mark read => exact Pattern.mark_takes read

theorem Ignored.filled (ignored : Ignored cs n) : n ≠ 0 := by
  cases ignored with
  | whiteSpace longest => exact (longest.1.first (by decide)).1
  | lineComment longest => exact (longest.1.first (by decide)).1
  | blockComment shortest => exact (shortest.1.first (by decide)).1

theorem lexeme_ignored (here : lexeme cs = some (.gap, n)) : Ignored cs n := by
  cases lexeme_reads here with
  | gap read =>
    cases cs with
    | nil => cases read
    | cons c rest =>
      obtain ⟨blank, size⟩ := Option.ite_none_right_eq_some.mp read
      cases size
      exact .whiteSpace (Pattern.whiteSpace_longest blank)
  | comment read =>
    rcases Pattern.comment_terminal read with ⟨_, same, _⟩ | ⟨_, ignored⟩
    · cases same
    · exact ignored
  | mark read =>
    obtain ⟨_, _, same⟩ := mark_class read
    cases same

theorem lexeme_filled {found : Class} (here : lexeme cs = some (found, n)) : n ≠ 0 := by
  cases found with
  | gap => exact (lexeme_ignored here).filled
  | token kind => exact ((lexeme_takes here).first (Pattern.terminal_filled kind)).1

end Lexeme

end Deasync
