import Deasync.Proofs.Lexeme.Growth

namespace Deasync.Lexeme

-- `q` may stand where `p` stood.
structure Alike (p q : Char) : Prop where
  gap : isGapChar q → isGapChar p
  line : p = '\n' → q = '\n'
  word : continuesWord q → continuesWord p
  start : startsWord q → startsWord p
  slash : q = '/' → p = '/'
  plain : q ∉ openers
  single : q ∉ ['&', ':', '.', '>']

section

variable {u v w : List Char} {p q : Char} {found : Class} {n m : Nat}

theorem run_crossing {f : Char → Bool} (same : f q → f p) (crosses : u.length < run f (u ++ q :: v)) :
    u.length < run f (u ++ p :: w) := by
  induction u with
  | nil =>
    have first : f q := by
      by_contra stops
      simp [run, stops] at crosses
    simp [run, same first]
  | cons c u ih =>
    by_cases holds : f c
    · simp only [run, List.cons_append, List.takeWhile_cons_of_pos holds, List.length_cons] at ih crosses ⊢
      exact Nat.succ_lt_succ (ih (Nat.lt_of_succ_lt_succ crosses))
    · simp [run, holds] at crosses

theorem gap_alike (alike : Alike p q) (filled : u ≠ []) (read : gap (u ++ q :: v) = some m)
    (crosses : u.length < m) : ∃ k, gap (u ++ p :: w) = some k ∧ u.length < k := by
  obtain ⟨c, x, rfl⟩ := List.exists_cons_of_ne_nil filled
  simp only [List.cons_append, gap, Option.ite_none_right_eq_some, Option.some.injEq] at read ⊢
  obtain ⟨blank, rfl⟩ := read
  have longer := run_crossing (w := w) alike.gap (Nat.lt_of_succ_lt_succ crosses)
  exact ⟨_, ⟨blank, rfl⟩, Nat.succ_lt_succ longer⟩

theorem comment_alike (alike : Alike p q) (covert : Covert (p :: w) (q :: v)) (filled : u ≠ [])
    {r : Class × Nat} (read : comment (u ++ q :: v) = some r) (crosses : u.length < r.2) :
    ∃ s, comment (u ++ p :: w) = some s ∧ u.length < s.2 := by
  have line (x : List Char) : ∃ s, comment ('/' :: '/' :: x) = some s ∧ 1 < s.2 :=
    ⟨_, comment_line x, by simp⟩
  match u with
  | [] => exact absurd rfl filled
  | [a] =>
    by_cases slash : a = '/' ∧ q = '/'
    · obtain ⟨rfl, same⟩ := slash
      obtain rfl := alike.slash same
      exact line w
    · rw [List.singleton_append, comment_ne] at read
      · cases read
      · rintro ⟨rfl, second | star⟩
        · exact slash ⟨rfl, second⟩
        · exact alike.plain (star ▸ by decide)
  | a :: b :: x =>
    simp only [List.length_cons, List.cons_append] at crosses read ⊢
    by_cases double : a = '/' ∧ b = '/'
    · obtain ⟨rfl, rfl⟩ := double
      rw [comment_line] at read
      cases read
      have other : (q ≠ '\n' : Bool) → (p ≠ '\n' : Bool) := by
        simp only [decide_eq_true_eq]
        exact fun more ended => more (alike.line ended)
      have longer := run_crossing (f := (· ≠ '\n')) (u := x) (v := v) (w := w) other (by omega)
      exact ⟨_, comment_line _, by simp only; omega⟩
    · by_cases block : a = '/' ∧ b = '*'
      · obtain ⟨rfl, rfl⟩ := block
        exact comment_block_crossing covert read crosses
      · rw [comment_ne] at read
        · cases read
        · rintro ⟨first, second | second⟩
          · exact double ⟨first, second⟩
          · exact block ⟨first, second⟩

theorem word_alike (alike : Alike p q) (filled : u ≠ []) (read : word (u ++ q :: v) = some m)
    (crosses : u.length < m) : ∃ k, word (u ++ p :: w) = some k ∧ u.length < k := by
  obtain ⟨c, x, rfl⟩ := List.exists_cons_of_ne_nil filled
  rw [List.cons_append] at read ⊢
  rcases name_or_plain c (x ++ q :: v) with ⟨d, more, rfl, same, starts⟩ | plain
  · rw [same, word_name d more starts] at read
    cases read
    match x, same with
    | [], same => cases same; exact absurd alike.plain (by decide)
    | [_], same =>
      cases same
      refine ⟨_, word_name p w (alike.start starts), ?_⟩
      simp
    | _ :: _ :: x, same =>
      simp only [List.cons_append, List.cons.injEq] at same
      obtain ⟨rfl, rfl, rfl⟩ := same
      simp only [List.length_cons] at crosses
      have longer := run_crossing (u := x) (v := v) (w := w) alike.word (by omega)
      refine ⟨_, word_name _ (x ++ p :: w) starts, ?_⟩
      simp only [List.length_cons]
      omega
  · rw [word_plain plain] at read
    split at read
    · rename_i starts
      cases read
      have longer := run_crossing (w := w) alike.word (Nat.lt_of_succ_lt_succ crosses)
      -- a hash mark would have stopped the word
      have none : ∀ d more, c = 'r' → x ++ p :: w = '#' :: d :: more → startsWord d = false := by
        intro d more _ same
        rw [same, run, List.takeWhile_cons_of_neg (by decide)] at longer
        cases longer
      rw [word_plain none, if_pos starts]
      exact ⟨_, rfl, Nat.succ_lt_succ longer⟩
    · cases read

theorem lifetime_alike (alike : Alike p q) (filled : u ≠ []) (read : lifetime (u ++ q :: v) = some m)
    (crosses : u.length < m) : ∃ k, lifetime (u ++ p :: w) = some k ∧ u.length < k := by
  unfold lifetime at read
  split at read
  · rename_i c rest same
    split at read
    · rename_i starts
      cases read
      match u, same with
      | [], same => exact absurd rfl filled
      | [_], same =>
        cases same
        refine ⟨_, by rw [List.singleton_append, lifetime, if_pos (alike.start starts)], ?_⟩
        simp
      | _ :: _ :: x, same =>
        simp only [List.cons_append, List.cons.injEq] at same
        obtain ⟨rfl, rfl, rfl⟩ := same
        simp only [List.length_cons] at crosses
        have longer := run_crossing (u := x) (v := v) (w := w) alike.word (by omega)
        refine ⟨_, by rw [List.cons_append, List.cons_append, lifetime, if_pos starts], ?_⟩
        simp only [List.length_cons]
        omega
    · cases read
  · cases read

theorem mark_alike (alike : Alike p q) (filled : u ≠ []) {r : Class × Nat}
    (read : mark (u ++ q :: v) = some r) : r.2 ≤ u.length := by
  match u with
  | [] => exact absurd rfl filled
  | [a] =>
    have single : Kind.pairs.lookup (a, q) = none := by
      refine List.lookup_eq_none_iff.mpr fun pair listed => ?_
      have ends : ∀ pair ∈ Kind.pairs, pair.1.2 ∈ ['&', ':', '.', '>'] := by decide
      rw [bne_iff_ne]
      intro same
      have own := ends pair listed
      rw [← same] at own
      exact alike.single own
    simp only [mark, List.singleton_append, single, Option.map_none, Option.none_or] at read
    obtain ⟨k, _, rfl⟩ := Option.map_eq_some_iff.mp read
    exact Nat.le_refl _
  | a :: b :: x =>
    have most := mark_le read
    simp only [List.length_cons]
    omega

end

theorem startsWord_of_word {c : Char} {cs : List Char} {n : Nat} (named : word (c :: cs) = some n) :
    startsWord c := by
  rcases name_or_plain c cs with ⟨_, _, rfl, _⟩ | plain
  · rfl
  · rw [word_plain plain] at named
    split at named
    · assumption
    · cases named

-- The quote that a literal begins with is among its characters.
theorem quote_of_literal {cs : List Char} {n : Nat}
    (read : rawString cs = some n ∨ charLiteral cs = some n ∨ stringLiteral cs = some n) :
    ∃ c ∈ cs.take n, c ∈ ['"', '\x27'] := by
  have begins (front : List Char) (c : Char) {rest : List Char} {k : Nat} (listed : c ∈ front)
      (quote : c ∈ ['"', '\x27']) (long : front.length ≤ k) :
      ∃ d ∈ (front ++ rest).take k, d ∈ ['"', '\x27'] := by
    obtain ⟨more, rfl⟩ := Nat.exists_eq_add_of_le long
    rw [List.take_length_add_append]
    exact ⟨c, List.mem_append_left _ listed, quote⟩
  rcases read with raw | char | string
  · obtain ⟨front, stop, y, m, listed, rfl, _, rfl⟩ := rawString_some raw
    have quoted : ∀ pair ∈ raws, '"' ∈ pair.1 := by decide
    exact begins front '"' (quoted _ listed) (.head _) (Nat.le_add_right _ _)
  · unfold charLiteral at char
    split at char
    · obtain ⟨k, _, rfl⟩ := Option.map_eq_some_iff.mp char
      exact begins ['b', '\x27'] '\x27' (by decide) (by decide) (Nat.le_add_left _ _)
    · obtain ⟨k, _, rfl⟩ := Option.map_eq_some_iff.mp char
      exact begins ['\x27'] '\x27' (by decide) (by decide) (Nat.le_add_left _ _)
    · cases char
  · unfold stringLiteral at string
    split at string
    · obtain ⟨k, _, rfl⟩ := Option.map_eq_some_iff.mp string
      exact begins ['b', '"'] '"' (by decide) (by decide) (Nat.le_add_left _ _)
    · obtain ⟨k, _, rfl⟩ := Option.map_eq_some_iff.mp string
      exact begins ['"'] '"' (by decide) (by decide) (Nat.le_add_left _ _)
    · cases string

-- Only a literal is preferred to a word.
theorem lexeme_of_word {cs : List Char} {n : Nat} {r : Class × Nat} (named : word cs = some n)
    (here : lexeme cs = some r) : r.2 = n ∨ ∃ c ∈ cs.take r.2, c ∈ ['"', '\x27'] := by
  obtain ⟨c, rest, rfl⟩ : ∃ c rest, cs = c :: rest := by
    cases cs with
    | nil => cases named
    | cons c rest => exact ⟨c, rest, rfl⟩
  have starts := startsWord_of_word named
  have classed {f : List Char → Option Nat} {own : Class}
      (read : (f (c :: rest)).map (own, ·) = some r) : f (c :: rest) = some r.2 := by
    obtain ⟨n, inner, rfl⟩ := Option.map_eq_some_iff.mp read
    exact inner
  unfold lexeme at here
  simp only [Option.or_eq_some_iff] at here
  rcases here with raw | ⟨_, char | ⟨_, string | ⟨_, blank | ⟨_, slash | ⟨_, own | ⟨none, _⟩⟩⟩⟩⟩⟩
  · exact .inr (quote_of_literal (.inl (classed raw)))
  · exact .inr (quote_of_literal (.inr (.inl (classed char))))
  · exact .inr (quote_of_literal (.inr (.inr (classed string))))
  · have gap := classed blank
    simp only [Lexeme.gap, Option.ite_none_right_eq_some] at gap
    exact absurd gap.1 (not_gapChar_of_starts starts)
  · exfalso
    obtain ⟨_, same⟩ := comment_slash slash
    cases same
    cases starts
  · rw [named] at own
    cases own
    exact .inl rfl
  · rw [named] at none
    cases none

-- Only a character is preferred to a lifetime.
theorem lexeme_of_lifetime {cs : List Char} {n : Nat} {r : Class × Nat}
    (named : lifetime cs = some n) (here : lexeme cs = some r) :
    r.2 = n ∨ r.2 = 3 ∧ ∃ c, ['\x27', c, '\x27'] <+: cs := by
  unfold lifetime at named
  split at named
  · rename_i c rest
    split at named
    · rename_i starts
      cases named
      have first : lexeme ('\x27' :: c :: rest) = ((charLiteral ('\x27' :: c :: rest)).map
          (Class.token .char, ·)).or (some (.token .lifetime, run continuesWord rest + 2)) := by
        rw [lexeme, lifetime, if_pos starts]
        rfl
      rw [first, Option.or_eq_some_iff] at here
      rcases here with char | ⟨_, own⟩
      · obtain ⟨k, read, rfl⟩ := Option.map_eq_some_iff.mp char
        have inner : (charBody (c :: rest)).map (· + 1) = some k := read
        obtain ⟨m, body, rfl⟩ := Option.map_eq_some_iff.mp inner
        have plain : c ≠ '\\' := by
          rintro rfl
          cases starts
        obtain ⟨rfl, later, rfl⟩ := charBody_plain plain body
        exact .inr ⟨rfl, c, later, rfl⟩
      · cases own
        exact .inl rfl
    · cases named
  · cases named

theorem lexeme_of_gap {cs : List Char} {n : Nat} (read : gap cs = some n) :
    lexeme cs = some (.gap, n) := by
  cases cs with
  | nil => cases read
  | cons c rest =>
    obtain ⟨blank, size⟩ := Option.ite_none_right_eq_some.mp read
    rw [lexeme_gap blank, ← Option.some.inj size]

theorem lexeme_of_comment {cs : List Char} {r : Class × Nat} (read : comment cs = some r) :
    lexeme cs = some r := by
  obtain ⟨rest, rfl⟩ := comment_slash read
  exact lexeme_comment read

theorem digit_of_number {c : Char} {cs : List Char} {n : Nat} (read : number (c :: cs) = some n) :
    c.isDigit := by
  obtain ⟨digits, inner, _⟩ := Option.map_eq_some_iff.mp read
  rcases Option.or_eq_some_iff.mp inner with based | ⟨_, plain⟩
  · obtain ⟨_, _, same, _⟩ := radix_some based
    cases same
    rfl
  · exact (Option.ite_none_right_eq_some.mp plain).1

theorem number_of_digit {c : Char} (digit : c.isDigit) (cs : List Char) :
    ∃ n, number (c :: cs) = some n := by
  have plain : ∃ n, decimal (c :: cs) = some n := ⟨_, by rw [decimal, if_pos digit]⟩
  obtain ⟨n, read⟩ := plain
  rw [number, read]
  cases radix (c :: cs) with
  | none => exact ⟨_, rfl⟩
  | some m => exact ⟨_, rfl⟩

theorem not_start_of_digit {c : Char} (digit : c.isDigit) : ¬startsWord c := by
  intro starts
  simp only [Char.isDigit, Bool.and_eq_true, decide_eq_true_eq, UInt32.le_iff_toNat_le] at digit
  simp only [startsWord, Bool.or_eq_true, isAlpha_iff, beq_iff_eq] at starts
  have most : c.val.toNat ≤ 57 := digit.2
  rcases starts with (upper | lower) | rfl
  · have least : 65 ≤ c.val.toNat := UInt32.le_iff_toNat_le.mp upper.1
    omega
  · have least : 97 ≤ c.val.toNat := UInt32.le_iff_toNat_le.mp lower.1
    omega
  · exact absurd most (by decide)

-- What begins with a digit is a number.
theorem lexeme_of_number {cs : List Char} {n : Nat} (read : number cs = some n) :
    lexeme cs = some (.token .number, n) := by
  cases here : lexeme cs with
  | none => simp [lexeme, read] at here
  | some r => ?_
  refine congrArg some ?_
  obtain ⟨c, rest, rfl⟩ : ∃ c rest, cs = c :: rest := by
    cases cs with
    | nil => cases read
    | cons c rest => exact ⟨c, rest, rfl⟩
  have digit := digit_of_number read
  have literal {m : Nat} (read : rawString (c :: rest) = some m ∨ charLiteral (c :: rest) = some m ∨
      stringLiteral (c :: rest) = some m) : False := by
    obtain ⟨_, _, same, opener⟩ := literal_opener read
    obtain ⟨rfl, _⟩ := List.cons.inj same
    have other : openers.all (!·.isDigit) := by decide
    have never := List.all_eq_true.mp other _ opener
    rw [digit] at never
    cases never
  unfold lexeme at here
  simp only [Option.or_eq_some_iff] at here
  rcases here with raw | ⟨_, char | ⟨_, string | ⟨_, blank | ⟨_, slash | ⟨_, named | ⟨_, own | ⟨none, _⟩⟩⟩⟩⟩⟩⟩
  · obtain ⟨_, inner, _⟩ := Option.map_eq_some_iff.mp raw
    exact (literal (.inl inner)).elim
  · obtain ⟨_, inner, _⟩ := Option.map_eq_some_iff.mp char
    exact (literal (.inr (.inl inner))).elim
  · obtain ⟨_, inner, _⟩ := Option.map_eq_some_iff.mp string
    exact (literal (.inr (.inr inner))).elim
  · exfalso
    obtain ⟨_, inner, _⟩ := Option.map_eq_some_iff.mp blank
    have only : c = ' ' ∨ c = '\t' ∨ c = '\x0c' ∨ c = '\r' ∨ c = '\n' := by
      simpa [isGapChar, or_assoc] using (Option.ite_none_right_eq_some.mp inner).1
    rcases only with rfl | rfl | rfl | rfl | rfl <;> cases digit
  · exfalso
    obtain ⟨_, same⟩ := comment_slash slash
    obtain ⟨rfl, _⟩ := List.cons.inj same
    cases digit
  · exfalso
    obtain ⟨_, inner, _⟩ := Option.map_eq_some_iff.mp named
    exact not_start_of_digit digit (startsWord_of_word inner)
  · rw [read] at own
    cases own
    rfl
  · rw [read] at none
    cases none

theorem comment_class {cs : List Char} {r : Class × Nat} (read : comment cs = some r) :
    r.1 ∈ [.gap, .token .docLine, .token .docBlock] := by
  unfold comment at read
  split at read
  · split at read <;> (cases read; dsimp only; decide)
  · split at read <;> obtain ⟨m, _, rfl⟩ := Option.map_eq_some_iff.mp read <;> dsimp only <;> decide
  · cases read

theorem mark_class {cs : List Char} {r : Class × Nat} (read : mark cs = some r) :
    ∃ kind ∈ Kind.pairs.map Prod.snd ++ Kind.singles.map Prod.snd, r.1 = .token kind := by
  have listed {α : Type} [BEq α] [LawfulBEq α] {a : α} {table : List (α × Kind)} {m : Nat}
      (read : (table.lookup a).map (Class.token ·, m) = some r) :
      ∃ kind ∈ table.map Prod.snd, r.1 = .token kind := by
    obtain ⟨kind, found, rfl⟩ := Option.map_eq_some_iff.mp read
    obtain ⟨before, after, rfl, _⟩ := List.lookup_eq_some_iff.mp found
    exact ⟨kind, by simp, rfl⟩
  unfold mark at read
  dsimp only at read
  rcases Option.or_eq_some_iff.mp read with pair | ⟨_, single⟩
  · split at pair
    · obtain ⟨kind, known, same⟩ := listed pair
      exact ⟨kind, List.mem_append_left _ known, same⟩
    · cases pair
  · split at single
    · obtain ⟨kind, known, same⟩ := listed single
      exact ⟨kind, List.mem_append_right _ known, same⟩
    · cases single

theorem ofWord_class (text : String) : Kind.ofWord text ∈ .ident :: Kind.reserved.map Prod.snd := by
  rw [Kind.ofWord]
  cases found : Kind.reserved.lookup text with
  | none => exact .head _
  | some kind =>
    obtain ⟨before, after, whole, _⟩ := List.lookup_eq_some_iff.mp found
    refine List.mem_cons_of_mem _ ?_
    rw [whole]
    simp

-- What a lexeme was read as.
inductive Reads (cs : List Char) (n : Nat) : Class → Prop where
  | raw : rawString cs = some n → Reads cs n (.token .rawString)
  | char : charLiteral cs = some n → Reads cs n (.token .char)
  | string : stringLiteral cs = some n → Reads cs n (.token .string)
  | gap : Lexeme.gap cs = some n → Reads cs n .gap
  | comment {found : Class} : Lexeme.comment cs = some (found, n) → Reads cs n found
  | word {kind : Kind} : Lexeme.word cs = some n → kind = .ofWord (String.ofList (cs.take n)) →
      Reads cs n (.token kind)
  | number : Lexeme.number cs = some n → Reads cs n (.token .number)
  | lifetime : Lexeme.lifetime cs = some n → Reads cs n (.token .lifetime)
  | mark {found : Class} : Lexeme.mark cs = some (found, n) → Reads cs n found

theorem lexeme_reads {cs : List Char} {found : Class} {n : Nat} (here : lexeme cs = some (found, n)) :
    Reads cs n found := by
  have classed {f : List Char → Option Nat} {own : Class} (read : (f cs).map (own, ·) = some (found, n)) :
      own = found ∧ f cs = some n := by
    obtain ⟨m, inner, same⟩ := Option.map_eq_some_iff.mp read
    cases same
    exact ⟨rfl, inner⟩
  unfold lexeme at here
  simp only [Option.or_eq_some_iff] at here
  rcases here with a | ⟨_, a | ⟨_, a | ⟨_, a | ⟨_, a | ⟨_, a | ⟨_, a | ⟨_, a | ⟨_, a⟩⟩⟩⟩⟩⟩⟩⟩
  · obtain ⟨rfl, read⟩ := classed a
    exact .raw read
  · obtain ⟨rfl, read⟩ := classed a
    exact .char read
  · obtain ⟨rfl, read⟩ := classed a
    exact .string read
  · obtain ⟨rfl, read⟩ := classed a
    exact .gap read
  · exact .comment a
  · obtain ⟨m, read, same⟩ := Option.map_eq_some_iff.mp a
    cases same
    exact .word read rfl
  · obtain ⟨rfl, read⟩ := classed a
    exact .number read
  · obtain ⟨rfl, read⟩ := classed a
    exact .lifetime read
  · exact .mark a

theorem number_of_lexeme {cs : List Char} {n : Nat} (found : lexeme cs = some (.token .number, n)) :
    number cs = some n := by
  cases lexeme_reads found with
  | number read => exact read
  | comment read => exact absurd (comment_class read) (by simp)
  | word _ same => exact absurd (same ▸ ofWord_class _) (by decide)
  | mark read =>
    obtain ⟨kind, known, same⟩ := mark_class read
    cases same
    exact absurd known (by decide)

-- A number stays if it does not reach further than before.
theorem number_stays {u v w : List Char} {n : Nat} (here : lexeme (u ++ w) = some (.token .number, n))
    (fits : n ≤ u.length) (within : ∀ m, number (u ++ v) = some m → m ≤ u.length) :
    lexeme (u ++ v) = some (.token .number, n) := by
  have alone := cuttable_number.kept (number_of_lexeme here) fits
  cases read : number (u ++ v) with
  | none =>
    rw [cuttable_number.lost read] at alone
    cases alone
  | some m =>
    rw [cuttable_number.kept read (within m read)] at alone
    cases alone
    exact lexeme_of_number read

-- The length of the type behind a number.
def suffixLength (cs : List Char) : Nat :=
  match suffixes.find? (·.isPrefixOf cs) with
  | some ending => ending.length
  | none => 0

theorem number_some {cs : List Char} {n : Nat} (read : number cs = some n) :
    ∃ digits, (radix cs).or (decimal cs) = some digits ∧ n = digits + suffixLength (cs.drop digits) := by
  obtain ⟨digits, inner, same⟩ := Option.map_eq_some_iff.mp read
  refine ⟨digits, inner, same.symm.trans ?_⟩
  rw [suffixLength]
  cases suffixes.find? (·.isPrefixOf (cs.drop digits)) <;> rfl

theorem suffixLength_other {c : Char} (other : c ∉ ['i', 'u', 'f']) (cs : List Char) :
    suffixLength (c :: cs) = 0 := by
  have none : suffixes.find? (·.isPrefixOf (c :: cs)) = none := by
    refine List.find?_eq_none.mpr fun ending listed here => other ?_
    have begins : ∀ e ∈ suffixes, ∃ d ∈ ['i', 'u', 'f'], e.head? = some d := by simp [suffixes]
    obtain ⟨d, letter, first⟩ := begins ending listed
    obtain ⟨rest, rfl⟩ := List.head?_eq_some_iff.mp first
    obtain ⟨_, same⟩ := List.isPrefixOf_iff_prefix.mp here
    cases same
    exact letter
  rw [suffixLength, none]

section

variable {u v : List Char} {q : Char}

-- A character that words go on with and that belongs to no type behind a number.
theorem suffixLength_within (letter : q ∈ ['_', 'A']) : suffixLength (u ++ q :: v) ≤ u.length := by
  unfold suffixLength
  split
  · rename_i ending found
    by_contra long
    have here := List.find?_some found
    obtain ⟨more, same⟩ := mem_of_crossing (List.isPrefixOf_iff_prefix.mp here) (Nat.not_le.mp long)
    have apart : ∀ e ∈ suffixes, '_' ∉ e ∧ 'A' ∉ e := by decide
    obtain ⟨one, two⟩ := apart ending (List.mem_of_find?_eq_some found)
    have listed : q ∈ ending := same ▸ List.mem_append_right _ (.head _)
    rcases List.mem_pair.mp letter with rfl | rfl
    · exact one listed
    · exact two listed
  · exact Nat.zero_le _

theorem run_full {f : Char → Bool} (crosses : u.length < run f (u ++ v)) : run f u = u.length := by
  rw [run_cut f u v]
  omega

theorem radix_crossing (letter : q ∈ ['_', 'A']) (filled : u ≠ []) {n : Nat}
    (read : radix (u ++ q :: v) = some n) (crosses : u.length < n) :
    radix u = some u.length ∨ ∃ mark ∈ ['x', 'o', 'b'], u = ['0', mark] := by
  obtain ⟨mark, rest, same, digits, rfl⟩ := radix_some read
  have known : mark ∈ ['x', 'o', 'b'] := by
    by_contra other
    simp only [List.mem_cons, List.not_mem_nil, or_false, not_or] at other
    refine digits ?_
    unfold radixDigits
    rw [if_neg other.1, if_neg other.2.1, if_neg other.2.2]
  match u, same with
  | [], _ => exact absurd rfl filled
  | [_], same =>
    cases same
    exact absurd known (by rcases List.mem_pair.mp letter with rfl | rfl <;> decide)
  | _ :: b :: x, same =>
    simp only [List.cons_append, List.cons.injEq] at same
    obtain ⟨rfl, rfl, rfl⟩ := same
    cases x with
    | nil => exact .inr ⟨_, known, rfl⟩
    | cons d x =>
      have cut := radixDigits_cut b (d :: x) (q :: v)
      simp only [List.length_cons] at crosses cut
      rw [radix_zero, if_neg (by omega)]
      exact .inl (congrArg some (by simp only [List.length_cons]; omega))

theorem fraction_crossing (letter : q ∈ ['_', 'A']) (crosses : u.length < fraction (u ++ q :: v)) :
    fraction u = u.length := by
  match u with
  | [] =>
    rcases List.mem_pair.mp letter with rfl | rfl <;> cases crosses
  | [c] =>
    by_cases point : c = '.'
    · subst point
      rcases List.mem_pair.mp letter with rfl | rfl <;> cases crosses
    · simp [fraction, point] at crosses
  | c :: d :: x =>
    by_cases point : c = '.'
    · subst point
      simp only [List.cons_append, fraction, List.length_cons] at crosses ⊢
      split at crosses
      · rename_i digit
        rw [if_pos digit, run_full (v := q :: v) (by omega)]
      · cases crosses
    · simp [fraction, point] at crosses

-- The beginning of an exponent that has no digit yet.
inductive Dangling (q : Char) : List Char → Prop where
  | letter {mark : Char} : mark ∈ ['e', 'E'] → Dangling q [mark]
  | sign {mark sign : Char} : q = '_' → mark ∈ ['e', 'E'] → sign ∈ ['+', '-'] → Dangling q [mark, sign]

theorem Dangling.no_suffix (dangling : Dangling q u) : suffixLength u = 0 := by
  cases dangling with
  | letter known | sign _ known _ =>
    rw [suffixLength_other]
    rcases List.mem_pair.mp known with rfl | rfl <;> decide

theorem exponent_crossing (letter : q ∈ ['_', 'A']) (crosses : u.length < exponent (u ++ q :: v)) :
    exponent u = u.length ∨ exponent u = 0 ∧ Dangling q u := by
  match u with
  | [] =>
    rw [List.nil_append, exponent_cons] at crosses
    rcases List.mem_pair.mp letter with rfl | rfl <;> cases crosses
  | mark :: z =>
    rw [List.cons_append, exponent_cons] at crosses
    split at crosses
    · rename_i known
      have listed : mark ∈ ['e', 'E'] := by
        simpa using known
      cases z with
      | nil => exact .inr ⟨by rw [exponent_cons, if_pos known]; rfl, .letter listed⟩
      | cons c z =>
        have long : signLength (c :: z ++ q :: v) = signLength (c :: z) := rfl
        rw [long] at crosses
        rw [exponent_cons, if_pos known]
        by_cases signed : c ∈ ['+', '-']
        · have one : signLength (c :: z) = 1 := by
            rcases List.mem_pair.mp signed with rfl | rfl <;> rfl
          rw [one, List.cons_append, List.drop_one, List.tail_cons] at crosses
          rw [one, List.drop_one, List.tail_cons]
          cases z with
          | nil =>
            right
            refine ⟨rfl, .sign ?_ listed signed⟩
            rcases List.mem_pair.mp letter with rfl | rfl
            · rfl
            · cases crosses
          | cons d z =>
            left
            simp only [List.length_cons] at crosses
            split at crosses
            · cases crosses
            · have full := run_full (f := isDecimal) (u := d :: z) (v := q :: v) (by simp only [List.length_cons]; omega)
              rw [full, if_neg (by simp)]
              rfl
        · left
          have none : signLength (c :: z) = 0 := by
            simp only [List.mem_cons, List.not_mem_nil, or_false, not_or] at signed
            simp [signLength, signed]
          rw [none, List.drop_zero] at crosses ⊢
          simp only [List.length_cons] at crosses
          split at crosses
          · cases crosses
          · have full := run_full (f := isDecimal) (u := c :: z) (v := q :: v) (by simp only [List.length_cons]; omega)
            rw [full, if_neg (by simp)]
            rfl
    · cases crosses

theorem decimal_crossing (letter : q ∈ ['_', 'A']) {n m : Nat} (alone : decimal u = some n)
    (read : decimal (u ++ q :: v) = some m) (crosses : u.length < m) :
    n = u.length ∨ Dangling q (u.drop n) := by
  cases u with
  | nil => cases alone
  | cons c x =>
    rw [decimal, Option.ite_none_right_eq_some, Option.some.injEq] at alone
    rw [List.cons_append, decimal, Option.ite_none_right_eq_some, Option.some.injEq] at read
    obtain ⟨_, rfl⟩ := alone
    obtain ⟨_, rfl⟩ := read
    rw [← List.cons_append] at crosses
    -- the parts are read one behind the other, and the first that reaches further ends with `u`
    by_cases far : (c :: x).length < run isDecimal (x ++ q :: v) + 1
    · left
      have full := run_full (f := isDecimal) (Nat.lt_of_succ_lt_succ far)
      rw [full, ← List.length_cons (a := c), List.drop_length]
      simp [fraction, exponent]
    have fits := Nat.not_lt.mp far
    have whole : run isDecimal x = run isDecimal (x ++ q :: v) := run_of_le (Nat.le_of_succ_le_succ fits)
    rw [← whole] at crosses fits
    generalize run isDecimal x + 1 = wide at crosses fits ⊢
    rw [List.drop_append_of_le_length fits] at crosses
    by_cases point : ((c :: x).drop wide).length < fraction ((c :: x).drop wide ++ q :: v)
    · left
      rw [fraction_crossing letter point, List.length_drop, Nat.add_sub_cancel' fits, List.drop_length]
      simp [exponent]
    have fitsAlso := Nat.not_lt.mp point
    have same := fraction_cut fitsAlso
    rw [← same] at crosses fitsAlso
    rw [List.length_drop] at fitsAlso
    generalize wider : wide + fraction ((c :: x).drop wide) = reached at crosses ⊢
    have within : reached ≤ (c :: x).length := by omega
    rw [List.drop_append_of_le_length within] at crosses
    have power : ((c :: x).drop reached).length < exponent ((c :: x).drop reached ++ q :: v) := by
      rw [List.length_drop]
      omega
    rcases exponent_crossing letter power with full | ⟨none, dangling⟩
    · left
      rw [full, List.length_drop]
      omega
    · right
      rw [none]
      exact dangling

-- A number that reaches into another continuation filled the whole front before, or an exponent was begun
-- behind it, or a base announced.
theorem number_crossing (letter : q ∈ ['_', 'A']) (filled : u ≠ []) {n m : Nat}
    (alone : number u = some n) (read : number (u ++ q :: v) = some m) (crosses : u.length < m) :
    n = u.length ∨ (∃ mark ∈ ['x', 'o', 'b'], u.drop n = [mark]) ∨ Dangling q (u.drop n) := by
  obtain ⟨d, own, rfl⟩ := number_some alone
  obtain ⟨e, inner, rfl⟩ := number_some read
  have least : e > u.length := by
    by_contra short
    rw [List.drop_append_of_le_length (Nat.not_lt.mp short)] at crosses
    have within := suffixLength_within (u := u.drop e) (v := v) letter
    rw [List.length_drop] at within
    omega
  have most := cuttable_number.within alone
  -- it is enough to know how far the digits reach
  suffices reach : d = u.length ∨ (∃ mark ∈ ['x', 'o', 'b'], u.drop d = [mark]) ∨ Dangling q (u.drop d) by
    rcases reach with whole | ⟨mark, known, rest⟩ | dangling
    · left
      simp only [id] at most
      omega
    · have none : suffixLength (u.drop d) = 0 := by
        rw [rest, suffixLength_other]
        simp only [List.mem_cons, List.not_mem_nil, or_false] at known
        rcases known with rfl | rfl | rfl <;> decide
      rw [none, Nat.add_zero]
      exact .inr (.inl ⟨mark, known, rest⟩)
    · rw [dangling.no_suffix, Nat.add_zero]
      exact .inr (.inr dangling)
  rcases Option.or_eq_some_iff.mp inner with based | ⟨noBase, plain⟩
  · rcases radix_crossing letter filled based least with whole | ⟨mark, known, rfl⟩
    · rw [whole] at own
      cases own
      exact .inl rfl
    · right; left
      refine ⟨mark, known, ?_⟩
      simp only [List.mem_cons, List.not_mem_nil, or_false] at known
      rcases known with rfl | rfl | rfl <;> (cases own; rfl)
  · rw [cuttable_radix.lost noBase, Option.none_or] at own
    rcases decimal_crossing letter own plain least with whole | dangling
    · exact .inl whole
    · exact .inr (.inr dangling)

end

section

variable {u v w : List Char} {p q : Char} {found : Class} {n : Nat}

-- `next` says that a lexeme follows inside `u`.
theorem lexeme_alike (alike : Alike p q) (covert : Covert (p :: w) (q :: v)) (filled : u ≠ [])
    (here : lexeme (u ++ p :: w) = some (found, n)) (fits : n ≤ u.length)
    (next : n < u.length → lexeme (u.drop n) ≠ none) (other : found ≠ .token .number) :
    lexeme (u ++ q :: v) = some (found, n) := by
  have alone : lexeme u = some (found, n) := cuttable_lexeme.kept here fits
  suffices within : ∀ r, lexeme (u ++ q :: v) = some r → r.2 ≤ u.length by
    cases result : lexeme (u ++ q :: v) with
    | none =>
      rw [cuttable_lexeme.lost result] at alone
      cases alone
    | some r => rw [← alone, cuttable_lexeme.kept result (within r result)]
  intro r result
  by_contra long
  have crosses := Nat.not_le.mp long
  have fixed {s : Class × Nat} (read : lexeme (u ++ p :: w) = some s) (far : u.length < s.2) : False := by
    rw [here] at read
    cases read
    exact absurd fits (Nat.not_le.mpr far)
  rcases lexeme_cases result with raw | char | string | gap | comment | named | number | lifetime | mark
  · obtain ⟨k, read, far⟩ := rawString_crossing covert alike.plain raw crosses
    exact fixed (lexeme_raw read) far
  · exact long (charLiteral_within alike.plain alone next char)
  · exact long (stringLiteral_within alike.plain alone next string)
  · obtain ⟨k, read, far⟩ := gap_alike (w := w) alike filled gap crosses
    exact fixed (lexeme_of_gap read) far
  · obtain ⟨s, read, far⟩ := comment_alike alike covert filled comment crosses
    exact fixed (lexeme_of_comment read) far
  · obtain ⟨k, read, far⟩ := word_alike (w := w) alike filled named crosses
    rcases lexeme_of_word read here with same | ⟨c, listed, quote⟩
    · dsimp only at same
      omega
    · -- a quote inside `u` would have ended the word
      rw [List.take_append_of_le_length fits] at listed
      obtain ⟨more, longer⟩ := Nat.exists_eq_add_of_lt crosses
      have letters := word_chars named
      rw [longer, Nat.add_assoc, List.take_length_add_append] at letters
      have letter := letters c (List.mem_append_left _ (List.mem_of_mem_take listed))
      rcases List.mem_pair.mp quote with rfl | rfl <;> revert letter <;> decide
  · obtain ⟨c, x, rfl⟩ := List.exists_cons_of_ne_nil filled
    obtain ⟨k, read⟩ := number_of_digit (digit_of_number number) (x ++ p :: w)
    rw [List.cons_append, lexeme_of_number read] at here
    exact other (congrArg Prod.fst (Option.some.inj here)).symm
  · obtain ⟨k, read, far⟩ := lifetime_alike (w := w) alike filled lifetime crosses
    rcases lexeme_of_lifetime read here with same | ⟨three, c, quoted⟩
    · dsimp only at same
      omega
    · dsimp only at three
      rw [three] at fits
      obtain ⟨x, rfl⟩ := List.prefix_of_prefix_length_le quoted ⟨_, rfl⟩ fits
      have starts : startsWord c := by
        by_contra stops
        simp [Lexeme.lifetime, stops] at read
      simp only [List.cons_append, Lexeme.lifetime, if_pos starts, Option.some.injEq] at lifetime
      rw [run, List.takeWhile_cons_of_neg (by decide)] at lifetime
      simp only [List.length_nil, List.length_cons, List.length_append] at lifetime crosses
      omega
  · exact long (mark_alike alike filled mark)

end

end Deasync.Lexeme
