import Deasync.Expansion.Substitution
import Deasync.Proofs.Lexeme.Rows

namespace Deasync

open Lexeme

-- `y` is `x` with `unit` behind some of its line breaks.
inductive Spread (unit : List Char) : List Char → List Char → Prop where
  | nil : Spread unit [] []
  | same {x y : List Char} (c : Char) : Spread unit x y → Spread unit (c :: x) (c :: y)
  | line {x y : List Char} : Spread unit x y → Spread unit ('\n' :: x) ('\n' :: (unit ++ y))

namespace Spread

variable {unit x y : List Char} (blank : ∀ c ∈ unit, isGapChar c)

theorem same_of_no_break (spread : Spread unit x y) (none : '\n' ∉ x) : y = x := by
  induction spread with
  | nil => rfl
  | same c _ ih => rw [ih fun listed => none (.tail _ listed)]
  | line _ _ => exact absurd (.head _) none

theorem cons {c : Char} (spread : Spread unit (c :: x) y) :
    ∃ z, y = c :: z ∧ (c ≠ '\n' → Spread unit x z) := by
  cases spread with
  | same _ rest => exact ⟨_, rfl, fun _ => rest⟩
  | line rest => exact ⟨_, rfl, fun other => absurd rfl other⟩

include blank in
theorem gaps (spread : Spread unit x y) (all : ∀ c ∈ x, isGapChar c) : ∀ c ∈ y, isGapChar c := by
  induction spread with
  | nil => exact all
  | same c _ ih =>
    rw [List.forall_mem_cons] at all ⊢
    exact ⟨all.1, ih all.2⟩
  | line _ ih =>
    rw [List.forall_mem_cons] at all ⊢
    exact ⟨all.1, List.forall_mem_append.mpr ⟨blank, ih all.2⟩⟩

include blank in
theorem varied (spread : Spread unit x y) : Varied x y := by
  induction spread with
  | nil => exact .nil
  | same c _ ih => exact .same c ih
  | @line x y _ ih =>
    have marks : ∀ c ∈ '\n' :: unit, c ∉ ['"', '#', '*', '/'] := by
      refine List.forall_mem_cons.mpr ⟨by decide, fun c listed mark => ?_⟩
      have gap := blank c listed
      simp only [List.mem_cons, List.not_mem_nil, or_false] at mark
      rcases mark with rfl | rfl | rfl | rfl <;> cases gap
    exact Varied.other (a := ['\n']) (List.cons_ne_nil _ _) marks ih

include blank in
theorem through_last {stop : List Char} (filled : stop ∈ closers) (spread : Spread unit x y)
    (closed : through stop x = some x.length) : through stop y = some y.length := by
  induction spread with
  | nil => exact closed
  | @same x y c spread ih =>
    have varied := (Spread.same c spread).varied blank
    have marks : ∀ stop ∈ closers, '\n' ∉ stop ∧ ∀ c ∈ stop, c ∈ ['"', '#', '*', '/'] := by
      simp [closers]
    obtain ⟨plain, own⟩ := marks stop filled
    rw [through] at closed
    split at closed
    · rename_i here
      obtain ⟨rest, whole⟩ := List.isPrefixOf_iff_prefix.mp here
      have size := Option.some.inj closed
      have all : c :: x = stop := by
        have short := congrArg List.length whole
        rw [List.length_append, size] at short
        obtain rfl : rest = [] := List.length_eq_zero_iff.mp (by omega)
        rw [← whole, List.append_nil]
      have same : y = x := spread.same_of_no_break fun listed => plain (all ▸ .tail _ listed)
      rw [same, through, if_pos here, size]
    · rename_i absent
      obtain ⟨m, inner, size⟩ := Option.map_eq_some_iff.mp closed
      rw [List.length_cons, Nat.add_right_cancel_iff] at size
      subst size
      rw [through, ih inner, if_neg]
      · rfl
      · intro here
        rw [List.isPrefixOf_iff_prefix] at here absent
        exact absent (varied.prefix_of own here)
  | @line x y spread ih =>
    have plain : ∀ c ∈ '\n' :: unit, c ∉ ['"', '*'] := by
      refine List.forall_mem_cons.mpr ⟨by decide, fun c listed mark => ?_⟩
      have gap := blank c listed
      rcases List.mem_pair.mp mark with rfl | rfl <;> cases gap
    have before := through_behind filled (fun c (listed : c ∈ ['\n']) => plain c (by simp_all)) x
    rw [List.singleton_append, closed] at before
    obtain ⟨m, inner, size⟩ := Option.map_eq_some_iff.mp before.symm
    obtain rfl : m = x.length := Nat.succ.inj size
    rw [← List.cons_append, through_behind filled plain, ih inner, List.length_append, Option.map_some,
      Nat.add_comm]

end Spread

theorem Follows.ends {f : Char → Bool} {old new : List Char} (follows : Follows old new)
    (alike : ∀ p q, Alike p q → f q → f p) (ends : ∀ p ∈ old.head?, ¬f p) : ∀ q ∈ new.head?, ¬f q := by
  intro q first holds
  obtain ⟨p, found, rfl | like⟩ := follows q first
  · exact ends q found holds
  · exact ends p found (alike p q like holds)

theorem block_class {d e : Char} {cs : List Char} {r : Lexeme.Class × Nat}
    (read : comment ('/' :: '*' :: d :: e :: cs) = some r) :
    r.1 = if d = '*' ∧ ¬(e = '*' ∨ e = '/') then .token .docBlock else .gap := by
  rw [comment_block, blockEnd] at read
  split at read
  · rename_i doc
    obtain ⟨n, _, rfl⟩ := Option.map_eq_some_iff.mp read
    rw [if_pos doc]
  · rename_i plain
    obtain ⟨n, _, rfl⟩ := Option.map_eq_some_iff.mp read
    rw [if_neg plain]

-- A block comment whose body is spread is one of its kind.
theorem comment_spread {unit x y old new : List Char} {found : Lexeme.Class}
    (blank : ∀ c ∈ unit, isGapChar c)
    (spread : Spread unit x y) (read : comment ('/' :: '*' :: (x ++ old)) = some (found, x.length + 2)) :
    comment ('/' :: '*' :: (y ++ new)) = some (found, y.length + 2) := by
  have size := comment_block_size (x ++ old)
  rw [read] at size
  obtain ⟨n, closed, same⟩ := Option.map_eq_some_iff.mp size.symm
  obtain rfl : n = x.length := Nat.add_right_cancel same
  have inside := (cuttable_through (by simp : ['*', '/'] ≠ [])).kept closed (Nat.le_refl _)
  have ends := spread.through_last blank (by decide : ['*', '/'] ∈ closers) inside
  have least := through_ge inside
  have also := through_ge ends
  have length := comment_block_size (y ++ new)
  rw [through_append (by simp) ends, Option.map_some] at length
  obtain ⟨⟨found', m⟩, result, size⟩ := Option.map_eq_some_iff.mp length
  obtain rfl : m = y.length + 2 := size
  rw [result]
  match x, y, least, also with
  | d :: e :: x, d' :: e' :: y, _, _ =>
    have first := block_class read
    have second := block_class result
    obtain ⟨_, begins, rest⟩ := spread.cons
    cases begins
    by_cases star : d = '*'
    · subst star
      obtain ⟨_, next, _⟩ := (rest (by decide)).cons
      cases next
      obtain rfl : found' = found := second.trans first.symm
      rfl
    · rw [if_neg fun both => star both.1] at first second
      obtain rfl : found' = found := second.trans first.symm
      rfl

theorem gap_chars {x rest : List Char} (read : gap (x ++ rest) = some x.length) :
    (∀ c ∈ x, isGapChar c) ∧ ∀ q ∈ rest.head?, ¬isGapChar q := by
  cases x with
  | nil => cases rest with
    | nil => cases read
    | cons q rest =>
      obtain ⟨_, size⟩ := Option.ite_none_right_eq_some.mp read
      cases size
  | cons c x =>
    obtain ⟨blank, size⟩ := Option.ite_none_right_eq_some.mp read
    obtain ⟨all, ends⟩ := run_eq_length (Nat.succ.inj (Option.some.inj size))
    exact ⟨List.forall_mem_cons.mpr ⟨blank, all⟩, ends⟩

theorem gap_of_chars {c : Char} {x rest : List Char} (all : ∀ d ∈ c :: x, isGapChar d)
    (ends : ∀ q ∈ rest.head?, ¬isGapChar q) : gap (c :: x ++ rest) = some (c :: x).length := by
  obtain ⟨blank, all⟩ := List.forall_mem_cons.mp all
  rw [List.cons_append, gap, if_pos blank, run_of_ends all ends, List.length_cons]

-- A comment whose text is spread is one of its kind, in front of what may follow it.
theorem Spread.comment {unit x y old new : List Char} {found : Lexeme.Class}
    (blank : ∀ c ∈ unit, isGapChar c)
    (spread : Spread unit x y) (follows : Follows old new)
    (read : comment (x ++ old) = some (found, x.length)) :
    comment (y ++ new) = some (found, y.length) := by
  have size : 2 ≤ x.length := comment_size read
  match x, size with
  | a :: b :: x, _ =>
    have begins : a = '/' ∧ (b = '/' ∨ b = '*') := by
      by_contra other
      rw [List.cons_append, List.cons_append, comment_ne other] at read
      cases read
    obtain ⟨rfl, second⟩ := begins
    rcases second with rfl | rfl
    · rw [List.cons_append, List.cons_append, comment_line, Option.some.injEq, Prod.mk.injEq] at read
      obtain ⟨rfl, size⟩ := read
      obtain ⟨all, ends⟩ := run_eq_length (Nat.add_right_cancel size)
      have none : '\n' ∉ '/' :: '/' :: x := by
        simp only [List.mem_cons, not_or]
        exact ⟨by decide, by decide, fun listed => by simpa using all _ listed⟩
      obtain rfl := spread.same_of_no_break none
      have stays := follows.ends (f := (· ≠ '\n'))
        (fun p q alike more => by simpa using fun same => absurd (alike.line same) (by simpa using more)) ends
      have length := run_of_ends all stays
      rw [List.cons_append, List.cons_append, comment_line, length,
        ← lineClass_cut (Nat.le_of_eq length), lineClass_cut (Nat.le_of_eq (Nat.add_right_cancel size))]
      rfl
    · obtain ⟨_, rfl, rest⟩ := spread.cons
      obtain ⟨y, rfl, inner⟩ := (rest (by decide)).cons
      exact comment_spread blank (inner (by decide)) read

-- A gap or a block comment, with blanks behind some of its line breaks.
structure Indenting (unit : List Char) (a b : Piece) : Prop where
  same : b.1 = a.1
  known : a.1 ∈ [.gap, .token .docBlock]
  spread : Spread unit a.2 b.2
  begins : ∃ c rest, a.2 = c :: rest ∧ (isGapChar c ∨ c = '/')

theorem alike_self {c : Char} (plain : isGapChar c ∨ c = '/') : Alike c c := by
  have only : c = ' ' ∨ c = '\t' ∨ c = '\x0c' ∨ c = '\r' ∨ c = '\n' ∨ c = '/' := by
    simpa [isGapChar, or_assoc] using plain
  refine ⟨id, id, id, id, id, ?_, ?_⟩ <;>
    rcases only with rfl | rfl | rfl | rfl | rfl | rfl <;> decide

theorem lexeme_space {cs : List Char} {found : Lexeme.Class} {n : Nat}
    (here : lexeme cs = some (found, n))
    (known : found ∈ [.gap, .token .docBlock]) :
    found = .gap ∧ gap cs = some n ∨ comment cs = some (found, n) := by
  cases lexeme_reads here with
  | gap read => exact .inl ⟨rfl, read⟩
  | comment read => exact .inr read
  | @word kind read same =>
    have listed : kind = .docBlock := by simpa using known
    exact absurd (listed ▸ same ▸ ofWord_class _) (by decide)
  | mark read =>
    obtain ⟨kind, listed, rfl⟩ := mark_class read
    have doc : kind = .docBlock := by simpa using known
    exact absurd (doc ▸ listed) (by decide)
  | _ => exact absurd known (by decide)

theorem Indenting.change {unit : List Char} (blank : ∀ c ∈ unit, isGapChar c) {a b : Piece}
    (indents : Indenting unit a b) : Exchangeable a b := by
  obtain ⟨found, x⟩ := a
  obtain ⟨found', y⟩ := b
  obtain ⟨rfl, known, spread, c, rest, rfl, first⟩ := indents
  obtain ⟨z, rfl, inner⟩ := spread.cons
  refine ⟨spread.varied blank, ⟨c, rest, c, z, rfl, rfl, alike_self first⟩, fun {old new} follows here => ?_⟩
  dsimp only at known spread here
  rcases lexeme_space here known with ⟨rfl, read⟩ | read
  · obtain ⟨all, ends⟩ := gap_chars read
    have also := spread.gaps blank all
    have stays := follows.ends (fun _ _ alike => alike.gap) ends
    rw [List.cons_append] at read ⊢
    refine lexeme_of_gap (gap_of_chars also stays)
  · exact lexeme_of_comment (spread.comment blank follows read)

theorem through_ends {stop cs : List Char} {n : Nat} (found : through stop cs = some n) :
    stop <:+ cs.take n := by
  induction cs generalizing n with
  | nil => cases found
  | cons c cs ih =>
    rw [through] at found
    split at found
    · rename_i here
      obtain ⟨rest, whole⟩ := List.isPrefixOf_iff_prefix.mp here
      rw [← Option.some.inj found, ← whole, List.take_left]
    · obtain ⟨m, inner, rfl⟩ := Option.map_eq_some_iff.mp found
      rw [List.take_succ_cons]
      exact (ih inner).trans (List.suffix_cons _ _)

theorem stringBody_ends {cs : List Char} {n : Nat} (found : stringBody cs = some n) :
    ['"'] <:+ cs.take n := by
  fun_induction stringBody cs generalizing n with
  | case1 => cases found
  | case2 =>
    cases found
    exact List.suffix_refl _
  | case3 => cases found
  | case4 c rest ih =>
    obtain ⟨m, inner, rfl⟩ := Option.map_eq_some_iff.mp found
    exact (ih inner).trans ((List.suffix_cons _ _).trans (List.suffix_cons _ _))
  | case5 c rest _ _ _ ih =>
    obtain ⟨m, inner, rfl⟩ := Option.map_eq_some_iff.mp found
    exact (ih inner).trans (List.suffix_cons _ _)

theorem stringLiteral_ends {cs : List Char} {n : Nat} (found : stringLiteral cs = some n) :
    ['"'] <:+ cs.take n := by
  unfold stringLiteral at found
  split at found
  · obtain ⟨m, inner, rfl⟩ := Option.map_eq_some_iff.mp found
    exact (stringBody_ends inner).trans ((List.suffix_cons _ _).trans (List.suffix_cons _ _))
  · obtain ⟨m, inner, rfl⟩ := Option.map_eq_some_iff.mp found
    exact (stringBody_ends inner).trans (List.suffix_cons _ _)
  · cases found

theorem rawString_ends {cs : List Char} {n : Nat} (found : rawString cs = some n) :
    ∃ stop ∈ closers, stop <:+ cs.take n := by
  obtain ⟨front, stop, y, m, listed, rfl, closed, rfl⟩ := rawString_some found
  refine ⟨stop, (raw_opener listed).1, ?_⟩
  rw [List.take_length_add_append]
  exact (through_ends closed).trans (List.suffix_append _ _)

theorem escapeBody_chars {cs : List Char} {n : Nat} (found : escapeBody cs = some n) :
    '\n' ∉ cs.take n := by
  unfold escapeBody at found
  split at found
  · obtain ⟨other, same⟩ := Option.ite_none_left_eq_some.mp found
    cases same
    simp [Ne.symm other]
  · obtain ⟨digits, same⟩ := Option.ite_none_right_eq_some.mp found
    cases same
    obtain ⟨first, second⟩ := Bool.and_eq_true_iff.mp digits
    have plain {c : Char} (hex : isHex c) : '\n' ≠ c := by rintro rfl; cases hex
    simp [plain first, plain second]
  · rename_i rest
    obtain ⟨holds, same⟩ := Option.ite_none_right_eq_some.mp found
    cases same
    obtain ⟨more, whole⟩ := List.isPrefixOf_iff_prefix.mp (Bool.and_eq_true_iff.mp holds).2
    have chars : rest.take (run isHex rest + 2) = rest.take (run isHex rest) ++ ['\x7d', '\x27'] := by
      rw [List.take_add, ← whole]
      rfl
    rw [List.take_succ_cons, List.take_succ_cons, chars]
    simp only [List.mem_cons, List.mem_append, List.not_mem_nil, or_false, not_or]
    exact ⟨by decide, by decide, fun listed => absurd (of_mem_run listed) (by decide), by decide, by decide⟩
  · cases found

theorem charBody_chars {cs : List Char} {n : Nat} (found : charBody cs = some n) :
    '\n' ∉ cs.take n := by
  unfold charBody at found
  split at found
  · obtain ⟨m, inner, rfl⟩ := Option.map_eq_some_iff.mp found
    simp [escapeBody_chars inner]
  · obtain ⟨other, same⟩ := Option.ite_none_left_eq_some.mp found
    cases same
    simp only [Bool.or_eq_true, decide_eq_true_eq, not_or] at other
    simp [Ne.symm other.2]
  · cases found

theorem charLiteral_chars {cs : List Char} {n : Nat} (found : charLiteral cs = some n) :
    '\n' ∉ cs.take n := by
  unfold charLiteral at found
  split at found
  · obtain ⟨m, inner, rfl⟩ := Option.map_eq_some_iff.mp found
    simp [charBody_chars inner]
  · obtain ⟨m, inner, rfl⟩ := Option.map_eq_some_iff.mp found
    simp [charBody_chars inner]
  · cases found

theorem comment_breaks {cs : List Char} {kind : Kind} {n : Nat}
    (found : comment cs = some (.token kind, n)) :
    '\n' ∉ cs.take n ∨ kind = .docBlock ∧ ['*', '/'] <:+ cs.take n := by
  have size := comment_size found
  have within := cuttable_comment.within found
  rcases cs with _ | ⟨a, _ | ⟨b, cs⟩⟩
  · cases found
  · dsimp only [List.length_singleton] at size within
    omega
  · have begins : a = '/' ∧ (b = '/' ∨ b = '*') := by
      by_contra other
      rw [comment_ne other] at found
      cases found
    obtain ⟨rfl, rfl | rfl⟩ := begins
    · left
      rw [comment_line] at found
      obtain ⟨_, rfl⟩ := Prod.mk.inj (Option.some.inj found)
      have line : '\n' ∉ cs.take (run (· ≠ '\n') cs) := fun listed => by simpa using of_mem_run listed
      rw [List.take_succ_cons, List.take_succ_cons]
      simp only [List.mem_cons, not_or]
      exact ⟨by decide, by decide, line⟩
    · right
      have length := comment_block_size cs
      rw [found] at length
      obtain ⟨m, closed, same⟩ := Option.map_eq_some_iff.mp length.symm
      obtain rfl : n = m + 2 := same.symm
      refine ⟨?_, (through_ends closed).trans ((List.suffix_cons _ _).trans (List.suffix_cons _ _))⟩
      have least := through_ge closed
      have most := cuttable_through (by simp : ['*', '/'] ≠ []) |>.within closed
      rcases cs with _ | ⟨d, _ | ⟨e, cs⟩⟩
      · simp only [id, List.length_cons, List.length_nil] at least most
        omega
      · simp only [id, List.length_cons, List.length_nil] at least most
        omega
      · have block := block_class found
        dsimp only at block
        split at block
        · cases block
          rfl
        · cases block

theorem mark_chars {cs : List Char} {r : Lexeme.Class × Nat} (found : mark cs = some r) :
    ∀ c ∈ cs.take r.2, c ≠ '\n' ∧ ¬continuesWord c := by
  have listed {α : Type} [BEq α] [LawfulBEq α] {a : α} {table : List (α × Kind)} {kind : Kind}
      (found : table.lookup a = some kind) : (a, kind) ∈ table := by
    obtain ⟨before, after, rfl, _⟩ := List.lookup_eq_some_iff.mp found
    simp
  have pairs : Kind.pairs.all (fun pair => [pair.1.1, pair.1.2].all
      fun c => c != '\n' && !continuesWord c) := by decide
  have singles : Kind.singles.all (fun single => single.1 != '\n' && !continuesWord single.1) := by decide
  unfold mark at found
  dsimp only at found
  rcases Option.or_eq_some_iff.mp found with pair | ⟨_, single⟩
  · split at pair
    · obtain ⟨kind, here, rfl⟩ := Option.map_eq_some_iff.mp pair
      simpa using List.all_eq_true.mp pairs _ (listed here)
    · cases pair
  · split at single
    · obtain ⟨kind, here, rfl⟩ := Option.map_eq_some_iff.mp single
      simpa using List.all_eq_true.mp singles _ (listed here)
    · cases single

-- Only strings and documentation blocks have line breaks, and not at their end.
theorem token_breaks {cs : List Char} {kind : Kind} {n : Nat}
    (here : lexeme cs = some (.token kind, n)) :
    '\n' ∉ cs.take n ∨ (kind.isText ∨ kind = .docBlock) ∧ (cs.take n).getLast? ≠ some '\n' := by
  have closed {stop : List Char} (listed : stop ∈ closers) (ends : stop <:+ cs.take n) :
      (cs.take n).getLast? ≠ some '\n' := by
    obtain ⟨front, whole⟩ := ends
    have last : ∀ stop ∈ closers, stop ≠ [] ∧ stop.getLast? ≠ some '\n' := by decide
    obtain ⟨filled, other⟩ := last stop listed
    rwa [← whole, List.getLast?_append_of_ne_nil _ filled]
  have solid (all : Solid (cs.take n)) : '\n' ∉ cs.take n :=
    fun listed => absurd (all _ listed) (by decide)
  cases lexeme_reads here with
  | raw read =>
    obtain ⟨stop, listed, ends⟩ := rawString_ends read
    exact .inr ⟨.inl rfl, closed listed ends⟩
  | char read => exact .inl (charLiteral_chars read)
  | string read => exact .inr ⟨.inl rfl, closed (by decide) (stringLiteral_ends read)⟩
  | comment read =>
    rcases comment_breaks read with none | ⟨doc, ends⟩
    · exact .inl none
    · exact .inr ⟨.inr doc, closed (by decide) ends⟩
  | word read _ => exact .inl (solid (solid_word read))
  | number read => exact .inl (solid (solid_number read))
  | lifetime read => exact .inl (solid (solid_lifetime read))
  | mark read => exact .inl fun listed => (mark_chars read _ listed).1 rfl

section

variable {literals : List Extent} {unit : List Char}

theorem indentFrom_cons (offset : Nat) (c : Char) (rest : List Char) :
    indentFrom literals unit offset (c :: rest) =
      (if c = '\n' ∧ rest.head?.any (· ≠ '\n') ∧ ¬insideLiteral literals (offset + 1) then c :: unit
        else [c]) ++ indentFrom literals unit (offset + 1) rest := by
  rw [indentFrom.eq_def]
  cases rest with
  | nil => simp
  | cons d rest =>
    simp only [Bool.and_eq_true, decide_eq_true_eq, Bool.not_eq_true', Bool.not_eq_true, List.head?_cons,
      Option.any_some, and_assoc]
    split <;> simp

variable (literals unit) in
theorem indentFrom_spread (offset : Nat) (read after : List Char) :
    ∃ spaced, Spread unit read spaced ∧ indentFrom literals unit offset (read ++ after) =
      spaced ++ indentFrom literals unit (offset + read.length) after := by
  induction read generalizing offset with
  | nil => exact ⟨[], .nil, rfl⟩
  | cons c read ih =>
    obtain ⟨spaced, spread, rest⟩ := ih (offset + 1)
    rw [Nat.add_assoc, Nat.add_comm 1] at rest
    rw [List.cons_append, indentFrom_cons, rest, List.length_cons, ← List.append_assoc]
    split
    · rename_i breaks
      obtain rfl := breaks.1
      exact ⟨_, .line spread, rfl⟩
    · exact ⟨_, .same c spread, rfl⟩

theorem indentFrom_no_break (offset : Nat) {read : List Char} (none : '\n' ∉ read) (after : List Char) :
    indentFrom literals unit offset (read ++ after) =
      read ++ indentFrom literals unit (offset + read.length) after := by
  obtain ⟨spaced, spread, whole⟩ := indentFrom_spread literals unit offset read after
  rw [whole, spread.same_of_no_break none]

-- The lines of a stretch depend on the literals around it, and not on where it stands.
theorem indentFrom_append (others : List Extent) (offset other : Nat) {read : List Char}
    (ends : read.getLast? ≠ some '\n') (after : List Char)
    (same : ∀ i, 0 < i → i < read.length →
      insideLiteral literals (offset + i) = insideLiteral others (other + i)) :
    indentFrom literals unit offset (read ++ after) =
      indentFrom others unit other read ++ indentFrom literals unit (offset + read.length) after := by
  induction read generalizing offset other with
  | nil => rfl
  | cons c read ih =>
    cases read with
    | nil =>
      have other : c ≠ '\n' := by simpa using ends
      simp [indentFrom, other]
    | cons d read =>
      have rest := ih (offset + 1) (other + 1) (by simpa using ends) fun i _ short => by
        have moved := same (1 + i) (by omega) (by simp only [List.length_cons] at short ⊢; omega)
        rwa [← Nat.add_assoc, ← Nat.add_assoc] at moved
      have here := same 1 (by decide) (by simp)
      rw [Nat.add_assoc, Nat.add_comm 1] at rest
      rw [List.length_cons, List.cons_append, indentFrom_cons, rest, indentFrom_cons other, here,
        List.append_assoc]
      rfl

theorem indentFrom_inside (offset : Nat) {read : List Char}
    (inside : ∀ i, 0 < i → i < read.length → insideLiteral literals (offset + i)) :
    indentFrom literals unit offset read = read := by
  induction read generalizing offset with
  | nil => rfl
  | cons c read ih =>
    have rest := ih (offset + 1) fun i _ short => by
      have moved := inside (1 + i) (by omega) (by simp only [List.length_cons] at short ⊢; omega)
      rwa [← Nat.add_assoc] at moved
    rw [indentFrom_cons, rest, if_neg, List.singleton_append]
    rintro ⟨_, some, outside⟩
    obtain ⟨d, first, _⟩ := (Option.any_eq_true _ _).mp some
    obtain ⟨more, rfl⟩ := List.head?_eq_some_iff.mp first
    exact outside (inside 1 (by decide) (by simp))

end

-- The text of a documentation block with its lines indented.
def indentedBlock (unit text : String) : String :=
  String.ofList (indentFrom [] unit.toList 0 text.toList)

def Token.indented (unit : String) (t : Token) : Kind × String :=
  if t.kind = .docBlock then (.docBlock, indentedBlock unit t.text) else t.bare

def textExtents (tokens : List Token) : List Extent :=
  (tokens.filter (·.kind.isText)).map Token.extent

section

variable {unit : List Char}

theorem space_begins {cs : List Char} {found : Lexeme.Class} {n : Nat}
    (here : lexeme cs = some (found, n))
    (known : found ∈ [.gap, .token .docBlock]) : ∃ c rest, cs = c :: rest ∧ (isGapChar c ∨ c = '/') := by
  rcases lexeme_space here known with ⟨_, read⟩ | read
  · cases cs with
    | nil => cases read
    | cons c rest => exact ⟨c, rest, rfl, .inl (Option.ite_none_right_eq_some.mp read).1⟩
  · obtain ⟨rest, rfl⟩ := comment_slash read
    exact ⟨'/', rest, rfl, .inr rfl⟩

-- What begins a gap or a comment is part of no number.
theorem number_indented {w : List Char} {x y : List Piece} (exchanged : Exchanged (Indenting unit) x y)
    (here : lexeme (w ++ joined x) = some (.token .number, w.length)) :
    lexeme (w ++ joined y) = some (.token .number, w.length) := by
  rcases exchanged.first with rfl | ⟨front, a, b, later, more, rfl, rfl, indents, _⟩
  · exact here
  obtain ⟨c, rest, old, first⟩ := indents.begins
  obtain ⟨z, new, _⟩ := (old ▸ indents.spread).cons
  rw [joined_append, joined_cons, ← List.append_assoc] at here ⊢
  refine number_stays here (by simp) fun m read => ?_
  rw [new, List.cons_append] at read
  refine (solid_number read).within ?_
  have only : c = ' ' ∨ c = '\t' ∨ c = '\x0c' ∨ c = '\r' ∨ c = '\n' ∨ c = '/' := by
    simpa [isGapChar, or_assoc] using first
  rcases only with rfl | rfl | rfl | rfl | rfl | rfl <;> decide

end

theorem textExtents_cons (t : Token) (later : List Token) : textExtents (t :: later) =
    if t.kind.isText then t.extent :: textExtents later else textExtents later := by
  unfold textExtents
  rw [List.filter_cons]
  split <;> rfl

-- No literal but a token's own reaches into it.
theorem outside_others {before later : List Extent} {start stop i : Nat}
    (passed : ∀ e ∈ before, e.stop ≤ start) (behind : ∀ e ∈ later, stop ≤ e.start) (least : start ≤ i)
    (most : i < stop) : insideLiteral (before ++ later) i = insideLiteral [] 0 := by
  refine List.any_eq_false.mpr fun e listed => ?_
  simp only [Bool.and_eq_true, decide_eq_true_eq, not_and]
  rcases List.mem_append.mp listed with first | second
  · have ended := passed e first
    omega
  · have begins := behind e second
    omega

-- A row that spells the text of another one with its lines indented, token by token the same. The
-- literals of the text are those known before and those of the row.
structure Respaced (unit : String) (known : List Extent) (cursor : Cursor) (row spaced : List Piece) :
    Prop where
  whole : joined spaced = indentFrom (known ++ textExtents (placed cursor row)) unit.toList
    cursor.offset (joined row)
  exchanged : Exchanged (Indenting unit.toList) row spaced
  bare : ∀ other, (placed other spaced).map Token.bare = (placed cursor row).map (Token.indented unit)

namespace Respaced

variable {unit : String} {known : List Extent} {cursor : Cursor} {kind : Kind} {read : List Char}
  {row spaced : List Piece}

theorem gap (behind : Respaced unit known (cursor.advance read) row spaced)
    (begins : ∃ c rest, read = c :: rest ∧ (isGapChar c ∨ c = '/')) :
    ∃ more, Respaced unit known cursor ((.gap, read) :: row) more := by
  obtain ⟨blanks, spread, chars⟩ := indentFrom_spread
    (known ++ textExtents (placed (cursor.advance read) row)) unit.toList cursor.offset read (joined row)
  refine ⟨(.gap, blanks) :: spaced, ?_, .change ⟨rfl, .head _, spread, begins⟩ behind.exchanged,
    fun other => behind.bare _⟩
  rw [joined_cons, behind.whole, placed, joined_cons, chars]
  rfl

-- No line of a literal is indented.
theorem text (behind : Respaced unit (known ++ [cursor.extent (cursor.advance read)])
      (cursor.advance read) row spaced)
    (literal : kind.isText) (ends : read.getLast? ≠ some '\n') :
    Respaced unit known cursor ((.token kind, read) :: row) ((.token kind, read) :: spaced) := by
  refine ⟨?_, .same (fun number => ?_) behind.exchanged, fun other => ?_⟩
  · have inside : ∀ i, 0 < i → i < read.length → insideLiteral (known ++
        cursor.extent (cursor.advance read) :: textExtents (placed (cursor.advance read) row))
        (cursor.offset + i) := by
      intro i least most
      refine List.any_eq_true.mpr ⟨_, List.mem_append_right _ (.head _), ?_⟩
      simp [Cursor.extent, least, most]
    rw [joined_cons, behind.whole, placed, textExtents_cons, if_pos literal, joined_cons, List.append_assoc,
      List.singleton_append, indentFrom_append _ _ cursor.offset ends _ fun _ _ _ => rfl,
      indentFrom_inside _ inside]
    rfl
  · cases number
    cases literal
  · have plain : kind ≠ .docBlock := by
      rintro rfl
      cases literal
    simp [placed, behind.bare, Token.indented, plain, Token.bare]

-- The lines of a documentation block are indented as if it stood alone.
theorem block (behind : Respaced unit known (cursor.advance read) row spaced)
    (begins : ∃ c rest, read = c :: rest ∧ (isGapChar c ∨ c = '/')) (ends : read.getLast? ≠ some '\n')
    (passed : ∀ e ∈ known, e.stop ≤ cursor.offset)
    (later : ∀ e ∈ textExtents (placed (cursor.advance read) row),
      (cursor.advance read).offset ≤ e.start) :
    ∃ more, Respaced unit known cursor ((.token .docBlock, read) :: row) more := by
  obtain ⟨block, spread, chars⟩ := indentFrom_spread [] unit.toList 0 read []
  rw [List.append_nil, indentFrom, List.append_nil] at chars
  refine ⟨(.token .docBlock, block) :: spaced, ?_,
    .change ⟨rfl, .tail _ (.head _), spread, begins⟩ behind.exchanged, fun other => ?_⟩
  · have outside : ¬Kind.docBlock.isText := by decide
    rw [joined_cons, behind.whole, placed, textExtents_cons, if_neg outside, joined_cons,
      indentFrom_append [] _ 0 ends _ fun i least most =>
        outside_others passed later (Nat.le_add_right _ _) (Nat.add_lt_add_left most _), chars]
    rfl
  · simp [placed, behind.bare, Token.indented, Token.bare, indentedBlock, chars]

-- What else is a token stands on one line.
theorem word (behind : Respaced unit known (cursor.advance read) row spaced)
    (here : lexeme (read ++ joined row) = some (.token kind, read.length)) (outside : ¬kind.isText)
    (doc : kind ≠ .docBlock) (plain : '\n' ∉ read) :
    Respaced unit known cursor ((.token kind, read) :: row) ((.token kind, read) :: spaced) := by
  refine ⟨?_, .same (fun number => ?_) behind.exchanged, fun other => ?_⟩
  · rw [joined_cons, behind.whole, placed, textExtents_cons, if_neg outside, joined_cons,
      indentFrom_no_break _ plain]
    rfl
  · obtain rfl : kind = .number := Lexeme.Class.token.inj number
    exact number_indented behind.exchanged here
  · simp [placed, behind.bare, Token.indented, doc, Token.bare]

end Respaced

theorem indented_row {unit : String} {row : List Piece} (lexed : Lexed [] row) (cursor : Cursor)
    (known : List Extent) (passed : ∀ e ∈ known, e.stop ≤ cursor.offset) :
    ∃ spaced, Respaced unit known cursor row spaced := by
  induction lexed generalizing cursor known with
  | nil => exact ⟨[], rfl, .nil, fun _ => rfl⟩
  | @cons found read row filled here rest ih =>
    have further : ∀ e ∈ known, e.stop ≤ (cursor.advance read).offset := fun e listed =>
      Nat.le_trans (passed e listed) (Nat.le_add_right _ _)
    rw [List.append_nil] at here
    have begins (space : found ∈ [.gap, .token .docBlock]) :
        ∃ c rest, read = c :: rest ∧ (isGapChar c ∨ c = '/') := by
      obtain ⟨c, cs, whole, first⟩ := space_begins here space
      obtain ⟨d, more, rfl⟩ := List.exists_cons_of_ne_nil filled
      obtain ⟨rfl, _⟩ := List.cons.inj whole
      exact ⟨d, more, rfl, first⟩
    cases found with
    | gap =>
      obtain ⟨spaced, behind⟩ := ih (cursor.advance read) known further
      exact behind.gap (begins (.head _))
    | token kind =>
      have breaks := token_breaks here
      rw [List.take_left] at breaks
      have ends : read.getLast? ≠ some '\n' := by
        rcases breaks with none | ⟨_, ends⟩
        · exact fun last => none (List.mem_of_getLast? last)
        · exact ends
      by_cases literal : kind.isText
      · have own : ∀ e ∈ known ++ [cursor.extent (cursor.advance read)],
            e.stop ≤ (cursor.advance read).offset :=
          List.forall_mem_append.mpr ⟨further, by simp [Cursor.extent]⟩
        obtain ⟨spaced, behind⟩ := ih (cursor.advance read) _ own
        exact ⟨_, behind.text literal ends⟩
      · obtain ⟨spaced, behind⟩ := ih (cursor.advance read) known further
        by_cases doc : kind = .docBlock
        · subst doc
          refine behind.block (begins (.tail _ (.head _))) ends passed fun e listed => ?_
          obtain ⟨t, present, rfl⟩ := List.mem_map.mp listed
          exact (placed_inRow rest _).from_start t (List.mem_filter.mp present).1
        · have plain : '\n' ∉ read := by
            rcases breaks with none | ⟨kinds, _⟩
            · exact none
            · exact absurd kinds (not_or.mpr ⟨literal, doc⟩)
          exact ⟨_, behind.word here literal doc plain⟩

-- A text whose lines are indented is lexed as before, but for its documentation blocks.
theorem indentLines_lexed {text unit : String} {row : List Piece} (blank : ∀ c ∈ unit.toList, isGapChar c)
    (whole : joined row = text.toList) (lexed : Lexed [] row) :
    ∃ result tokens, indentLines text unit = .ok result ∧ lex result = .ok tokens ∧
      tokens.map Token.bare = (placed .origin row).map (Token.indented unit) := by
  obtain ⟨spaced, chars, exchanged, bare⟩ := indented_row lexed .origin [] (by simp)
  have tokens : lex text = .ok (placed .origin row) := lex_eq_ok_iff.mpr ⟨row, whole, lexed, rfl⟩
  refine ⟨_, placed .origin spaced, by rw [indentLines, tokens]; rfl, lex_eq_ok_iff.mpr
    ⟨spaced, ?_, exchanged.lexed (fun _ _ indents => indents.change blank) lexed, rfl⟩, bare _⟩
  rw [chars, String.toList_ofList, whole]
  rfl

end Deasync
