import Deasync.Proofs.Heading
import Deasync.Proofs.Indenting
import Mathlib.Data.List.Forall2

namespace Deasync

def linesOf (text : String) : List (List Char) := text.toList.splitOn '\n'

-- The offset at which a line begins: each line in front of it takes its characters and a line feed.
def lineOffset (lines : List (List Char)) (k : Nat) : Nat :=
  ((lines.take k).flatMap fun line => line ++ ['\n']).length

-- An offset lies inside a string, behind its first character.
def InsideString (tokens : List Token) (offset : Nat) : Prop :=
  ∃ t ∈ tokens, (t.kind = .string ∨ t.kind = .rawString) ∧ t.extent.start < offset ∧ offset < t.extent.stop

-- Every line has the unit in front, unless it is the first, is empty or begins at an offset that is spared.
structure Indented (unit : String) (spared : Nat → Prop) (text result : String) : Prop where
  lines : (linesOf result).length = (linesOf text).length
  kept : ∀ k line, (linesOf text)[k]? = some line →
    k = 0 ∨ line = [] ∨ spared (lineOffset (linesOf text) k) → (linesOf result)[k]? = some line
  moved : ∀ k line, (linesOf text)[k]? = some line →
    ¬(k = 0 ∨ line = [] ∨ spared (lineOffset (linesOf text) k)) →
      (linesOf result)[k]? = some (unit.toList ++ line)

-- A token of the text and what it is in the result.
structure Token.Reindented (unit : String) (t t' : Token) : Prop where
  kind : t'.kind = t.kind
  text : t.kind ≠ .docBlock → t'.text = t.text
  block : t.kind = .docBlock → Indented unit (fun _ => False) t.text t'.text

theorem lineOffset_succ (line : List Char) (lines : List (List Char)) (k : Nat) :
    lineOffset (line :: lines) (k + 1) = line.length + 1 + lineOffset lines k := by
  simp only [lineOffset, List.take_succ_cons, List.flatMap_cons, List.length_append, List.length_singleton]

theorem splitOn_cons_feed (cs : List Char) : ('\n' :: cs).splitOn '\n' = [] :: cs.splitOn '\n' := by
  rw [List.splitOn_cons_eq_if_modifyHead]
  rfl

theorem splitOn_append_plain {front cs line : List Char} {later : List (List Char)}
    (plain : '\n' ∉ front) (split : cs.splitOn '\n' = line :: later) :
    (front ++ cs).splitOn '\n' = (front ++ line) :: later := by
  induction front with
  | nil => exact split
  | cons c front ih =>
    simp only [List.mem_cons, not_or] at plain
    rw [List.cons_append, List.splitOn_cons_eq_if_modifyHead, ih plain.2,
      if_neg (by simpa using Ne.symm plain.1)]
    rfl

-- A first line is empty where the text ends or goes on with a line feed.
theorem first_line_filled {cs line : List Char} {later : List (List Char)}
    (split : cs.splitOn '\n' = line :: later) : cs.head?.any (· ≠ '\n') ↔ line ≠ [] := by
  cases cs with
  | nil =>
    cases split
    simp
  | cons c cs =>
    rw [List.splitOn_cons_eq_if_modifyHead] at split
    obtain ⟨next, more, rest⟩ := List.exists_cons_of_ne_nil (List.splitOn_ne_nil '\n' cs)
    rw [rest] at split
    by_cases feed : c = '\n'
    · simp_all
    · simp only [beq_iff_eq, if_neg feed, List.modifyHead_cons, List.cons.injEq] at split
      simp [feed, ← split.1]

section

variable (literals : List Extent) (unit : List Char)

-- The lines behind the first one, from the offset at which the first of them begins.
def indentedFrom : Nat → List (List Char) → List (List Char)
  | _, [] => []
  | offset, line :: later =>
    (if line = [] ∨ insideLiteral literals offset then line else unit ++ line) ::
      indentedFrom (offset + (line.length + 1)) later

theorem indentedFrom_length (offset : Nat) (lines : List (List Char)) :
    (indentedFrom literals unit offset lines).length = lines.length := by
  induction lines generalizing offset with
  | nil => rfl
  | cons line later ih => simp [indentedFrom, ih]

theorem getElem?_indentedFrom {offset k : Nat} {lines : List (List Char)} {line : List Char}
    (there : lines[k]? = some line) : (indentedFrom literals unit offset lines)[k]? =
      some (if line = [] ∨ insideLiteral literals (offset + lineOffset lines k) then line
        else unit ++ line) := by
  induction lines generalizing offset k with
  | nil => simp at there
  | cons first later ih =>
    cases k with
    | zero =>
      obtain rfl : first = line := by simpa using there
      rfl
    | succ k =>
      rw [List.getElem?_cons_succ] at there
      rw [indentedFrom, List.getElem?_cons_succ, ih there, lineOffset_succ, Nat.add_assoc]

variable {literals unit} in
theorem splitOn_indentFrom (plain : '\n' ∉ unit) {cs line : List Char} {later : List (List Char)}
    {offset : Nat} (split : cs.splitOn '\n' = line :: later) :
    (indentFrom literals unit offset cs).splitOn '\n' =
      line :: indentedFrom literals unit (offset + (line.length + 1)) later := by
  induction cs generalizing offset line later with
  | nil =>
    cases split
    rfl
  | cons c cs ih =>
    obtain ⟨next, more, rest⟩ := List.exists_cons_of_ne_nil (List.splitOn_ne_nil '\n' cs)
    have inner : (indentFrom literals unit (offset + 1) cs).splitOn '\n' = next :: _ := ih rest
    rw [indentFrom_cons]
    by_cases feed : c = '\n'
    · subst feed
      rw [splitOn_cons_feed, rest] at split
      cases split
      rw [List.length_nil, Nat.zero_add, indentedFrom]
      by_cases still : next = [] ∨ insideLiteral literals (offset + 1)
      · have unmoved : ¬(cs.head?.any (· ≠ '\n') ∧ ¬insideLiteral literals (offset + 1)) := by
          rintro ⟨filled, outside⟩
          exact (first_line_filled rest).mp filled (still.resolve_right outside)
        rw [if_neg fun breaks => unmoved breaks.2, if_pos still, List.singleton_append,
          splitOn_cons_feed, inner]
      · obtain ⟨filled, outside⟩ := not_or.mp still
        rw [if_pos ⟨rfl, (first_line_filled rest).mpr filled, outside⟩, if_neg still, List.cons_append,
          splitOn_cons_feed, splitOn_append_plain plain inner]
    · rw [if_neg fun breaks => feed breaks.1]
      have whole : ([c] ++ cs).splitOn '\n' = ([c] ++ next) :: more :=
        splitOn_append_plain (by simpa using Ne.symm feed) rest
      rw [List.singleton_append, split] at whole
      cases whole
      rw [splitOn_append_plain (by simpa using Ne.symm feed) inner]
      simp only [List.singleton_append, List.length_cons, List.cons.injEq, true_and]
      congr 1
      omega

end

theorem insideLiteral_textExtents {tokens : List Token} {offset : Nat} :
    insideLiteral (textExtents tokens) offset ↔ InsideString tokens offset := by
  simp only [insideLiteral, textExtents, List.any_map, List.any_filter, InsideString, Kind.isText,
    List.any_eq_true, Function.comp_apply, Bool.and_eq_true, Bool.or_eq_true, decide_eq_true_eq]

-- What is inserted in front of lines, for any literals of the text.
theorem indented_indentFrom {unit text : String} {literals : List Extent} {spared : Nat → Prop}
    (plain : '\n' ∉ unit.toList) (inside : ∀ offset, insideLiteral literals offset ↔ spared offset) :
    Indented unit spared text (String.ofList (indentFrom literals unit.toList 0 text.toList)) := by
  obtain ⟨first, later, split⟩ := List.exists_cons_of_ne_nil (List.splitOn_ne_nil '\n' text.toList)
  have lines : (indentFrom literals unit.toList 0 text.toList).splitOn '\n' = first :: _ :=
    splitOn_indentFrom plain split
  rw [Nat.zero_add] at lines
  have found {k : Nat} {line : List Char} (there : later[k]? = some line) :
      (linesOf (String.ofList (indentFrom literals unit.toList 0 text.toList)))[k + 1]? =
        some (if line = [] ∨ insideLiteral literals (lineOffset (first :: later) (k + 1)) then line
          else unit.toList ++ line) := by
    rw [linesOf, String.toList_ofList, lines, List.getElem?_cons_succ, getElem?_indentedFrom _ _ there,
      lineOffset_succ]
  constructor
  · rw [linesOf, linesOf, String.toList_ofList, lines, split, List.length_cons, List.length_cons,
      indentedFrom_length]
  · intro k line there still
    rw [linesOf, split] at there still
    cases k with
    | zero => rwa [linesOf, String.toList_ofList, lines]
    | succ k =>
      rw [found there, if_pos]
      simpa [inside] using still
  · intro k line there moves
    rw [linesOf, split] at there moves
    cases k with
    | zero => exact absurd (.inl rfl) moves
    | succ k =>
      rw [found there, if_neg]
      simpa [inside] using moves

theorem Token.reindented_of_bare {unit : String} (plain : '\n' ∉ unit.toList) {t t' : Token}
    (same : t'.bare = t.indented unit) : t.Reindented unit t' := by
  rw [Token.indented] at same
  by_cases block : t.kind = .docBlock
  · rw [if_pos block] at same
    obtain ⟨kind, text⟩ := Prod.mk.inj same
    refine ⟨kind.trans block.symm, fun other => absurd block other, fun _ => ?_⟩
    rw [text]
    exact indented_indentFrom plain fun _ => by simp [insideLiteral]
  · rw [if_neg block] at same
    obtain ⟨kind, text⟩ := Prod.mk.inj same
    exact ⟨kind, fun _ => text, fun own => absurd own block⟩

-- Indenting leaves the tokens of a text alone, up to the lines of its documentation blocks, and puts
-- the unit in front of every line that is neither the first nor empty and begins outside all strings.
theorem indentLines_keeps_tokens {text unit : String} {tokens : List Token}
    (lexed : lex text = .ok tokens) (blank : ∀ c ∈ unit.toList, c = ' ' ∨ c = '\t') :
    ∃ result again, indentLines text unit = .ok result ∧ lex result = .ok again ∧
      List.Forall₂ (Token.Reindented unit) tokens again ∧
      Indented unit (InsideString tokens) text result := by
  have plain : '\n' ∉ unit.toList := by
    intro listed
    rcases blank _ listed with same | same <;> cases same
  obtain ⟨row, whole, covers, rfl⟩ := lex_eq_ok_iff.mp lexed
  have gaps : ∀ c ∈ unit.toList, Lexeme.isGapChar c := by
    intro c listed
    rcases blank c listed with rfl | rfl <;> rfl
  obtain ⟨result, again, indented, relexed, bare⟩ := indentLines_lexed gaps whole covers
  refine ⟨result, again, indented, relexed, ?_, ?_⟩
  · rw [← List.forall₂_eq_eq_eq, List.forall₂_map_left_iff, List.forall₂_map_right_iff] at bare
    exact bare.flip.imp fun _ _ same => Token.reindented_of_bare plain same
  · rw [indentLines, lexed] at indented
    cases indented
    exact indented_indentFrom plain fun _ => insideLiteral_textExtents

def quotedLines : String := "f(\"x\ny\")\n\n/** d\ne */\n;"

-- The line inside the string and the empty line stay, and the block of documentation is indented.
theorem indentLines_keeps_tokens_quoted : ∃ tokens result again, lex quotedLines = .ok tokens ∧
    indentLines quotedLines "\t" = .ok "f(\"x\ny\")\n\n\t/** d\n\te */\n\t;" ∧
      indentLines quotedLines "\t" = .ok result ∧ lex result = .ok again ∧
        List.Forall₂ (Token.Reindented "\t") tokens again ∧
          Indented "\t" (InsideString tokens) quotedLines result := by
  have accepted : (lex quotedLines).toOption.any fun _ => True := by decide +kernel
  obtain ⟨tokens, lexed, _⟩ := (Option.any_eq_true _ _).mp accepted
  have indented : (indentLines quotedLines "\t").toOption =
      some "f(\"x\ny\")\n\n\t/** d\n\te */\n\t;" := by decide +kernel
  have blank : ∀ c ∈ "\t".toList, c = ' ' ∨ c = '\t' := by simp
  obtain ⟨result, again, kept⟩ := indentLines_keeps_tokens (toOption_eq_some lexed) blank
  exact ⟨tokens, result, again, toOption_eq_some lexed, toOption_eq_some indented, kept⟩

end Deasync
