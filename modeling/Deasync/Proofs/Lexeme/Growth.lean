import Deasync.Proofs.Lexeme.Cut

namespace Deasync.Lexeme

def quietChars : List Char := [',', ' ', ')', ']', '>', ';', ':', '<', '(']

def Quiet (cs : List Char) : Prop := ∀ c ∈ cs.head?, c ∈ quietChars

-- What ends raw strings and block comments.
def closers : List (List Char) := [['"'], ['"', '#'], ['"', '#', '#'], ['*', '/']]

-- Nothing is closed in `new` that `old` leaves open.
def Shy (old new : List Char) : Prop :=
  ∀ stop ∈ closers, through stop old = none → through stop new = none

-- And nothing is, whatever stands in front of both.
def Covert (old new : List Char) : Prop := ∀ front, Shy (front ++ old) (front ++ new)

theorem through_suffix {stop y : List Char} (x : List Char) (failed : through stop (x ++ y) = none) :
    through stop y = none := by
  induction x with
  | nil => exact failed
  | cons c x ih =>
    rw [List.cons_append, through] at failed
    split at failed
    · cases failed
    · exact ih (Option.map_eq_none_iff.mp failed)

theorem through_append {stop x : List Char} (filled : stop ≠ []) {n : Nat}
    (found : through stop x = some n) (y : List Char) : through stop (x ++ y) = some n := by
  have least := through_ge found
  have most := (cuttable_through filled).within found
  induction x generalizing n with
  | nil => cases found
  | cons c x ih =>
    have same := isPrefixOf_append (v := y) (Nat.le_trans least most)
    rw [through] at found
    rw [List.cons_append, through, ← List.cons_append, same]
    split at found
    · rename_i here
      rw [if_pos here]
      exact found
    · rename_i later
      obtain ⟨m, inner, rfl⟩ := Option.map_eq_some_iff.mp found
      rw [if_neg later, ih inner (through_ge inner) ((cuttable_through filled).within inner)]
      rfl

-- What is in front at the place where a text is continued belongs to a longer front.
theorem mem_of_crossing {u v front : List Char} {q : Char} (inside : front <+: u ++ q :: v)
    (long : u.length < front.length) : ∃ more, front = u ++ q :: more := by
  obtain ⟨back, same⟩ := inside
  have begins : u <+: front :=
    List.prefix_of_prefix_length_le ⟨q :: v, rfl⟩ ⟨back, same⟩ (Nat.le_of_lt long)
  obtain ⟨more, rfl⟩ := begins
  cases more with
  | nil => simp at long
  | cons c more =>
    simp only [List.append_assoc, List.append_cancel_left_eq, List.cons_append, List.cons.injEq] at same
    obtain ⟨rfl, _⟩ := same
    exact ⟨more, rfl⟩

theorem closer_cases {stop : List Char} (listed : stop ∈ closers) :
    stop ≠ [] ∧ ∀ c ∈ stop.tail, c ∉ quietChars := by
  simp only [closers, List.mem_cons, List.not_mem_nil, or_false] at listed
  rcases listed with rfl | rfl | rfl | rfl <;> simp [quietChars]

theorem through_quiet {stop x v : List Char} (listed : stop ∈ closers) (quiet : Quiet v)
    (first : through stop x = none) (second : through stop v = none) :
    through stop (x ++ v) = none := by
  induction x with
  | nil => exact second
  | cons c x ih =>
    rw [through] at first
    split at first
    · cases first
    · rename_i absent
      rw [List.cons_append, through, ih (Option.map_eq_none_iff.mp first), if_neg]
      · rfl
      · intro here
        rw [List.isPrefixOf_iff_prefix] at here absent
        by_cases short : stop.length ≤ (c :: x).length
        · exact absent (List.prefix_of_prefix_length_le here ⟨v, rfl⟩ short)
        · cases v with
          | nil =>
            rw [List.append_nil] at here
            exact absent here
          | cons q v =>
            obtain ⟨more, rfl⟩ := mem_of_crossing (u := c :: x) here (by omega)
            exact (closer_cases listed).2 q (by simp) (quiet q rfl)

-- Nothing ends among characters that no ending begins with.
theorem through_behind {stop chars : List Char} (listed : stop ∈ closers)
    (plain : ∀ c ∈ chars, c ∉ ['"', '*']) (cs : List Char) :
    through stop (chars ++ cs) = (through stop cs).map (· + chars.length) := by
  induction chars with
  | nil => simp
  | cons c chars ih =>
    have own := plain c (.head _)
    rw [List.cons_append, through, ih fun d later => plain d (.tail _ later), if_neg]
    · rw [Option.map_map]
      rfl
    · intro here
      obtain ⟨more, same⟩ := List.isPrefixOf_iff_prefix.mp here
      simp only [closers, List.mem_cons, List.not_mem_nil, or_false] at listed
      rcases listed with rfl | rfl | rfl | rfl <;>
        (obtain ⟨rfl, _⟩ := List.cons.inj same; simp at own)

theorem through_plain {stop chars cs : List Char} (listed : stop ∈ closers)
    (plain : ∀ c ∈ chars, c ∉ ['"', '*']) (unclosed : through stop cs = none) :
    through stop (chars ++ cs) = none := by
  rw [through_behind listed plain, unclosed, Option.map_none]

theorem Shy.covert {old new : List Char} (shy : Shy old new) (quiet : Quiet new) : Covert old new := by
  intro front stop listed unclosed
  have filled := (closer_cases listed).1
  exact through_quiet listed quiet ((cuttable_through filled).lost unclosed)
    (shy stop listed (through_suffix front unclosed))

-- What is closed behind `y` in the new text is closed behind `y` in the old one.
theorem Covert.crossing {old new y stop : List Char} (covert : Covert old new)
    (listed : stop ∈ closers) {m : Nat} (found : through stop (y ++ new) = some m)
    (crosses : y.length < m) : ∃ k, through stop (y ++ old) = some k ∧ y.length < k := by
  have filled := (closer_cases listed).1
  cases other : through stop (y ++ old) with
  | none =>
    rw [covert y stop listed other] at found
    cases found
  | some k =>
    refine ⟨k, rfl, ?_⟩
    by_contra short
    have inside := (cuttable_through filled).kept other (Nat.not_lt.mp short)
    rw [through_append filled inside] at found
    cases found
    exact short crosses

def raws : List (List Char × List Char) :=
  [(['r', '"'], ['"']), (['r', '#', '"'], ['"', '#']), (['r', '#', '#', '"'], ['"', '#', '#']),
   (['b', 'r', '"'], ['"']), (['b', 'r', '#', '"'], ['"', '#']),
   (['b', 'r', '#', '#', '"'], ['"', '#', '#'])]

theorem rawString_some {cs : List Char} {n : Nat} (found : rawString cs = some n) :
    ∃ front stop y m, (front, stop) ∈ raws ∧ cs = front ++ y ∧ through stop y = some m ∧
      n = front.length + m := by
  unfold rawString at found
  split at found <;> (try cases found)
  all_goals
    obtain ⟨k, inner, rfl⟩ := Option.map_eq_some_iff.mp found
    unfold rawBody at inner
    split at inner <;> (try cases inner)
    all_goals obtain ⟨m, closed, rfl⟩ := Option.map_eq_some_iff.mp inner
  · exact ⟨['b', 'r', '"'], ['"'], _, m, by decide, rfl, closed, by simp; omega⟩
  · exact ⟨['b', 'r', '#', '"'], ['"', '#'], _, m, by decide, rfl, closed, by simp; omega⟩
  · exact ⟨['b', 'r', '#', '#', '"'], ['"', '#', '#'], _, m, by decide, rfl, closed, by simp; omega⟩
  · exact ⟨['r', '"'], ['"'], _, m, by decide, rfl, closed, by simp; omega⟩
  · exact ⟨['r', '#', '"'], ['"', '#'], _, m, by decide, rfl, closed, by simp; omega⟩
  · exact ⟨['r', '#', '#', '"'], ['"', '#', '#'], _, m, by decide, rfl, closed, by simp; omega⟩

theorem rawString_of_through {front stop y : List Char} {m : Nat} (listed : (front, stop) ∈ raws)
    (closed : through stop y = some m) : rawString (front ++ y) = some (front.length + m) := by
  simp only [raws, List.mem_cons, Prod.mk.injEq, List.not_mem_nil, or_false] at listed
  rcases listed with ⟨rfl, rfl⟩ | ⟨rfl, rfl⟩ | ⟨rfl, rfl⟩ | ⟨rfl, rfl⟩ | ⟨rfl, rfl⟩ | ⟨rfl, rfl⟩ <;>
    simp [rawString, rawBody, closed] <;> omega

-- What literals and block comments are opened with.
def openers : List Char := ['b', 'r', '#', '"', '\x27', '*']

theorem Quiet.not_opener {q : Char} {v : List Char} (quiet : Quiet (q :: v)) : q ∉ openers := by
  have apart : ∀ c ∈ quietChars, c ∉ openers := by simp [quietChars, openers]
  exact apart q (quiet q rfl)

theorem raw_opener {front stop : List Char} (listed : (front, stop) ∈ raws) :
    stop ∈ closers ∧ ∀ c ∈ front, c ∈ openers := by
  simp only [raws, List.mem_cons, Prod.mk.injEq, List.not_mem_nil, or_false] at listed
  rcases listed with ⟨rfl, rfl⟩ | ⟨rfl, rfl⟩ | ⟨rfl, rfl⟩ | ⟨rfl, rfl⟩ | ⟨rfl, rfl⟩ | ⟨rfl, rfl⟩ <;>
    simp [closers, openers]

theorem rawString_crossing {old u v : List Char} {q : Char} (covert : Covert old (q :: v))
    (plain : q ∉ openers) {n : Nat} (found : rawString (u ++ q :: v) = some n)
    (crosses : u.length < n) : ∃ k, rawString (u ++ old) = some k ∧ u.length < k := by
  obtain ⟨front, stop, y, m, listed, same, closed, rfl⟩ := rawString_some found
  obtain ⟨closer, opens⟩ := raw_opener listed
  have short : front.length ≤ u.length := by
    by_contra long
    obtain ⟨more, rfl⟩ := mem_of_crossing ⟨y, same.symm⟩ (Nat.not_le.mp long)
    exact plain (opens q (by simp))
  obtain ⟨x, rfl⟩ := List.prefix_of_prefix_length_le ⟨y, same.symm⟩ ⟨q :: v, rfl⟩ short
  rw [List.append_assoc, List.append_cancel_left_eq] at same
  subst same
  rw [List.length_append] at crosses
  obtain ⟨k, other, far⟩ := covert.crossing closer closed (by omega)
  refine ⟨front.length + k, ?_, by rw [List.length_append]; omega⟩
  rw [List.append_assoc]
  exact rawString_of_through listed other

-- A block comment takes its opening and what leads through the first closing.
theorem comment_block_size (cs : List Char) :
    (comment ('/' :: '*' :: cs)).map Prod.snd = (through ['*', '/'] cs).map (· + 2) := by
  simp only [comment]
  split
  · rw [Option.map_map]; rfl
  · rw [Option.map_map]; rfl
  · rename_i body _ slash
    have apart : ['*', '/'].isPrefixOf ('*' :: body) = false := by
      rw [Bool.eq_false_iff, Ne, List.isPrefixOf_iff_prefix]
      rintro ⟨rest, same⟩
      exact slash rest (by simpa using same.symm)
    rw [through, apart, Option.map_map]
    simp only [Bool.false_eq_true, if_false, Option.map_map]
    rfl
  · rw [Option.map_map]; rfl

theorem comment_block_crossing {old new u : List Char} (covert : Covert old new) {r : Class × Nat}
    (found : comment ('/' :: '*' :: u ++ new) = some r) (crosses : u.length + 2 < r.2) :
    ∃ s, comment ('/' :: '*' :: u ++ old) = some s ∧ u.length + 2 < s.2 := by
  have size := comment_block_size (u ++ new)
  rw [← List.cons_append, ← List.cons_append, found, Option.map_some] at size
  obtain ⟨m, closed, same⟩ := Option.map_eq_some_iff.mp size.symm
  obtain ⟨k, other, far⟩ := covert.crossing (by decide) closed (by omega)
  have length := comment_block_size (u ++ old)
  rw [other, Option.map_some] at length
  obtain ⟨s, read, long⟩ := Option.map_eq_some_iff.mp length
  exact ⟨s, read, by omega⟩

theorem stringBody_append {x : List Char} {n : Nat} (found : stringBody x = some n) (y : List Char) :
    stringBody (x ++ y) = some n := by
  fun_induction stringBody x generalizing n with
  | case1 => cases found
  | case2 rest => exact found
  | case3 => cases found
  | case4 c rest ih =>
    obtain ⟨m, inner, rfl⟩ := Option.map_eq_some_iff.mp found
    rw [List.cons_append, List.cons_append, stringBody, ih inner]
    rfl
  | case5 c rest quote single pair ih =>
    obtain ⟨m, inner, rfl⟩ := Option.map_eq_some_iff.mp found
    have escape : c ≠ '\\' := plain_of_not_escape single pair
    rw [List.cons_append, stringBody, ih inner]
    · rfl
    · exact quote
    · exact fun same => absurd same escape
    · exact fun _ _ same => absurd same escape

-- The digits of an escape in braces, with what closes it.
def escapeDigits (rest : List Char) : Option Nat :=
  if 1 ≤ run isHex rest && run isHex rest ≤ 6 && ['\x7d', '\x27'].isPrefixOf (rest.drop (run isHex rest))
  then some (run isHex rest + 4) else none

theorem escapeDigits_append {x : List Char} {n : Nat} (found : escapeDigits x = some n)
    (y : List Char) : escapeDigits (x ++ y) = some n := by
  unfold escapeDigits at found ⊢
  simp only [Option.ite_none_right_eq_some, Option.some.injEq] at found
  obtain ⟨holds, rfl⟩ := found
  have closed := holds
  simp only [Bool.and_eq_true] at closed
  have length := (List.isPrefixOf_iff_prefix.mp closed.2).length_le
  have digits : run isHex (x ++ y) = run isHex x := run_of_lt (by
    simp only [List.length_cons, List.length_nil, List.length_drop] at length
    omega)
  rw [digits, List.drop_append_of_le_length (run_le isHex x), isPrefixOf_append length, if_pos holds]

theorem escapeBody_append {x : List Char} {n : Nat} (found : escapeBody x = some n) (y : List Char) :
    escapeBody (x ++ y) = some n := by
  unfold escapeBody at found
  split at found
  · simpa only [List.cons_append, escapeBody] using found
  · rename_i a b rest other
    rw [List.cons_append, List.cons_append, List.cons_append, List.cons_append, escapeBody]
    · exact found
    · exact other
  · rename_i rest other
    have grown := escapeDigits_append found y
    rw [List.cons_append, List.cons_append, escapeBody]
    exact grown
  · cases found

theorem charBody_plain {c : Char} {cs : List Char} {n : Nat} (plain : c ≠ '\\')
    (found : charBody (c :: cs) = some n) : n = 2 ∧ ∃ rest, cs = '\x27' :: rest := by
  unfold charBody at found
  split at found
  · rename_i same
    cases same
    exact absurd rfl plain
  · rename_i d rest _ same
    cases same
    split at found
    · cases found
    · cases found
      exact ⟨rfl, rest, rfl⟩
  · cases found

theorem charBody_crossing {y v : List Char} {q : Char} (plain : q ∉ openers) {n : Nat}
    (found : charBody (y ++ q :: v) = some n) (crosses : y.length < n) :
    lexeme ('\x27' :: y) = none := by
  cases y with
  | nil => rfl
  | cons c y =>
    by_cases escape : c = '\\'
    · subst escape
      rw [List.cons_append, charBody] at found
      obtain ⟨m, inner, rfl⟩ := Option.map_eq_some_iff.mp found
      cases alone : escapeBody y with
      | none =>
        have none : charLiteral ('\x27' :: '\\' :: y) = none := by
          simp [charLiteral, charBody, alone]
        unfold lexeme
        rw [none]
        rfl
      | some k =>
        rw [escapeBody_append alone] at inner
        cases inner
        have short := cuttable_escapeBody.within alone
        simp only [id, List.length_cons] at short crosses
        omega
    · obtain ⟨rfl, rest, same⟩ := charBody_plain escape found
      cases y with
      | nil =>
        cases same
        exact absurd plain (by decide)
      | cons d y =>
        simp only [List.length_cons] at crosses
        omega

theorem continuesWord_of_starts {c : Char} (starts : startsWord c) : continuesWord c := by
  simp only [startsWord, continuesWord, Char.isAlphanum, Bool.or_eq_true] at starts ⊢
  rcases starts with letter | underscore
  · exact .inl (.inl letter)
  · exact .inr underscore

theorem continuesWord_of_digit {c : Char} (digit : c.isDigit) : continuesWord c := by
  simp [continuesWord, Char.isAlphanum, digit]

theorem isAlpha_iff {c : Char} : c.isAlpha ↔ ('A' ≤ c ∧ c ≤ 'Z') ∨ ('a' ≤ c ∧ c ≤ 'z') := by
  have upper : c.isUpper = decide ('A' ≤ c ∧ c ≤ 'Z') := rfl
  have lower : c.isLower = (decide ('a' ≤ c) && decide (c ≤ 'z')) := rfl
  have alpha : c.isAlpha = (c.isUpper || c.isLower) := rfl
  simp [alpha, upper, lower]

theorem continuesWord_of_hex {c : Char} (hex : isHex c) : continuesWord c := by
  simp only [isHex, Bool.or_eq_true, Bool.and_eq_true, decide_eq_true_eq] at hex
  have letter (range : ('A' ≤ c ∧ c ≤ 'Z') ∨ ('a' ≤ c ∧ c ≤ 'z')) : continuesWord c := by
    simp [continuesWord, Char.isAlphanum, isAlpha_iff.mpr range]
  rcases hex with (digit | ⟨least, most⟩) | ⟨least, most⟩
  · exact continuesWord_of_digit digit
  · exact letter (.inr ⟨least, Char.le_trans most (by decide)⟩)
  · exact letter (.inl ⟨least, Char.le_trans most (by decide)⟩)

-- What words, numbers and lifetimes are made of.
def isSolid (c : Char) : Bool := continuesWord c || c ∈ ['#', '\x27', '.', '+', '-']

theorem isSolid_of_continues {c : Char} (continues : continuesWord c) : isSolid c := by
  rw [isSolid, continues, Bool.true_or]

def Solid (cs : List Char) : Prop := ∀ c ∈ cs, isSolid c

theorem Solid.cons {c : Char} {cs : List Char} (first : isSolid c) (rest : Solid cs) :
    Solid (c :: cs) := List.forall_mem_cons.mpr ⟨first, rest⟩

theorem of_mem_run {p : Char → Bool} {c : Char} {cs : List Char} (listed : c ∈ cs.take (run p cs)) : p c := by
  rw [run, ← List.prefix_iff_eq_take.mp (List.takeWhile_prefix p)] at listed
  exact List.all_eq_true.mp List.all_takeWhile c listed

theorem solid_word_run (cs : List Char) : Solid (cs.take (run continuesWord cs)) :=
  fun _ listed => isSolid_of_continues (of_mem_run listed)

theorem solid_start {c : Char} (starts : startsWord c) : isSolid c :=
  isSolid_of_continues (continuesWord_of_starts starts)

-- What numbers are made of.
def isNumeric (c : Char) : Bool := isHex c || c ∈ ['_', 'x', 'o', 'i', 'u', 's', 'z', '.', '+', '-']

theorem isSolid_of_numeric {c : Char} (numeric : isNumeric c) : isSolid c := by
  rcases Bool.or_eq_true_iff.mp numeric with hex | listed
  · exact isSolid_of_continues (continuesWord_of_hex hex)
  · have every : ['_', 'x', 'o', 'i', 'u', 's', 'z', '.', '+', '-'].all isSolid := by decide
    exact List.all_eq_true.mp every c (of_decide_eq_true listed)

theorem isNumeric_of_digit {c : Char} (digit : c.isDigit) : isNumeric c := by
  simp [isNumeric, isHex, digit]

theorem isNumeric_of_decimal {c : Char} (decimal : isDecimal c) : isNumeric c := by
  rcases Bool.or_eq_true_iff.mp decimal with digit | underscore
  · exact isNumeric_of_digit digit
  · obtain rfl := of_decide_eq_true underscore
    rfl

def Numeric (cs : List Char) : Prop := ∀ c ∈ cs, isNumeric c

theorem Numeric.cons {c : Char} {cs : List Char} (first : isNumeric c) (rest : Numeric cs) :
    Numeric (c :: cs) := List.forall_mem_cons.mpr ⟨first, rest⟩

theorem Numeric.append {x y : List Char} (first : Numeric x) (second : Numeric y) : Numeric (x ++ y) :=
  List.forall_mem_append.mpr ⟨first, second⟩

theorem numeric_nil : Numeric [] := List.forall_mem_nil _

theorem numeric_decimals (cs : List Char) : Numeric (cs.take (run isDecimal cs)) :=
  fun _ listed => isNumeric_of_decimal (of_mem_run listed)

theorem numeric_fraction (cs : List Char) : Numeric (cs.take (fraction cs)) := by
  unfold fraction
  split
  · split
    · rename_i digit
      exact .cons rfl (.cons (isNumeric_of_digit digit) (numeric_decimals _))
    · exact numeric_nil
  · exact numeric_nil

theorem numeric_sign (cs : List Char) : Numeric (cs.take (signLength cs)) := by
  unfold signLength
  split
  · split
    · rename_i signed
      simp only [Bool.or_eq_true, decide_eq_true_eq] at signed
      rcases signed with rfl | rfl <;> exact .cons rfl numeric_nil
    · exact numeric_nil
  · exact numeric_nil

theorem numeric_exponent (cs : List Char) : Numeric (cs.take (exponent cs)) := by
  cases cs with
  | nil => exact numeric_nil
  | cons first rest =>
    rw [exponent_cons]
    split
    · rename_i letter
      split
      · exact numeric_nil
      · rw [List.take_succ_cons, Nat.add_comm, List.take_add]
        refine .cons ?_ ((numeric_sign rest).append (numeric_decimals _))
        simp only [Bool.or_eq_true, decide_eq_true_eq] at letter
        rcases letter with rfl | rfl <;> rfl
    · exact numeric_nil

theorem numeric_decimal {cs : List Char} {n : Nat} (found : decimal cs = some n) :
    Numeric (cs.take n) := by
  cases cs with
  | nil => cases found
  | cons first rest =>
    simp only [decimal, Option.ite_none_right_eq_some, Option.some.injEq] at found
    obtain ⟨digit, rfl⟩ := found
    rw [List.take_add, List.take_add, List.take_succ_cons]
    exact .append (.append (.cons (isNumeric_of_digit digit) (numeric_decimals rest)) (numeric_fraction _))
      (numeric_exponent _)

theorem numeric_radixDigits (mark : Char) (cs : List Char) :
    Numeric (cs.take (radixDigits mark cs)) := by
  have underscore {p : Char → Bool} (digits : ∀ c, p c → isNumeric c) :
      Numeric (cs.take (run (fun c => p c || c == '_') cs)) := by
    intro c listed
    rcases Bool.or_eq_true_iff.mp (of_mem_run listed) with own | underscore
    · exact digits c own
    · obtain rfl := beq_iff_eq.mp underscore
      rfl
  unfold radixDigits
  split
  · exact underscore fun _ hex => Bool.or_eq_true_iff.mpr (.inl hex)
  · split
    · refine underscore fun c octal => isNumeric_of_digit ?_
      simp only [Bool.and_eq_true, decide_eq_true_eq] at octal
      simp only [Char.isDigit, Bool.and_eq_true, decide_eq_true_eq]
      exact ⟨octal.1, Char.le_trans octal.2 (by decide)⟩
    · split
      · refine underscore fun c binary => ?_
        simp only [Bool.or_eq_true, beq_iff_eq] at binary
        rcases binary with rfl | rfl <;> rfl
      · exact numeric_nil

theorem numeric_radix {cs : List Char} {n : Nat} (found : radix cs = some n) : Numeric (cs.take n) := by
  obtain ⟨letter, rest, rfl, digits, rfl⟩ := radix_some found
  rw [List.take_succ_cons, List.take_succ_cons]
  refine .cons rfl (.cons ?_ (numeric_radixDigits letter rest))
  by_contra other
  refine digits ?_
  unfold radixDigits
  rw [if_neg, if_neg, if_neg] <;> (rintro rfl; exact other rfl)

theorem numeric_number {cs : List Char} {n : Nat} (found : number cs = some n) :
    Numeric (cs.take n) := by
  unfold number at found
  obtain ⟨digits, read, rfl⟩ := Option.map_eq_some_iff.mp found
  have front : Numeric (cs.take digits) := by
    rcases Option.or_eq_some_iff.mp read with one | ⟨_, two⟩
    · exact numeric_radix one
    · exact numeric_decimal two
  split
  · rename_i ending isEnding
    have standing := List.find?_some isEnding
    rw [List.take_add]
    refine front.append ?_
    rw [← List.prefix_iff_eq_take.mp (List.isPrefixOf_iff_prefix.mp standing)]
    have every : suffixes.all (·.all isNumeric) := by decide +kernel
    have own := List.all_eq_true.mp every ending (List.mem_of_find?_eq_some isEnding)
    exact fun c listed => List.all_eq_true.mp own c listed
  · exact front

theorem solid_number {cs : List Char} {n : Nat} (found : number cs = some n) : Solid (cs.take n) :=
  fun c listed => isSolid_of_numeric (numeric_number found c listed)

theorem word_chars {cs : List Char} {n : Nat} (found : word cs = some n) :
    ∀ c ∈ cs.take n, continuesWord c ∨ c = '#' := by
  have letters (rest : List Char) : ∀ c ∈ rest.take (run continuesWord rest), continuesWord c ∨ c = '#' :=
    fun _ listed => .inl (of_mem_run listed)
  unfold word at found
  split at found
  · split at found
    · rename_i starts
      cases found
      exact List.forall_mem_cons.mpr ⟨.inl rfl, List.forall_mem_cons.mpr ⟨.inr rfl,
        List.forall_mem_cons.mpr ⟨.inl (continuesWord_of_starts starts), letters _⟩⟩⟩
    · cases found
      exact List.forall_mem_singleton.mpr (.inl rfl)
  · split at found
    · rename_i starts
      cases found
      exact List.forall_mem_cons.mpr ⟨.inl (continuesWord_of_starts starts), letters _⟩
    · cases found
  · cases found

theorem solid_word {cs : List Char} {n : Nat} (found : word cs = some n) : Solid (cs.take n) := by
  intro c listed
  rcases word_chars found c listed with continues | rfl
  · exact isSolid_of_continues continues
  · decide

theorem solid_lifetime {cs : List Char} {n : Nat} (found : lifetime cs = some n) :
    Solid (cs.take n) := by
  unfold lifetime at found
  split at found
  · split at found
    · rename_i starts
      cases found
      exact .cons (by decide) (.cons (solid_start starts) (solid_word_run _))
    · cases found
  · cases found

-- So they do not cross into a continuation that begins otherwise.
theorem Solid.within {u v : List Char} {q : Char} {n : Nat} (other : ¬isSolid q)
    (solid : Solid ((u ++ q :: v).take n)) : n ≤ u.length := by
  by_contra long
  refine other (solid q ?_)
  obtain ⟨more, rfl⟩ := Nat.exists_eq_add_of_lt (Nat.not_le.mp long)
  rw [Nat.add_assoc, List.take_length_add_append, List.take_succ_cons]
  simp

theorem Quiet.not_solid {q : Char} {v : List Char} (quiet : Quiet (q :: v)) : ¬isSolid q := by
  have apart : quietChars.all (!isSolid ·) := by decide
  simpa using List.all_eq_true.mp apart q (quiet q rfl)

theorem lexeme_raw {cs : List Char} {n : Nat} (found : rawString cs = some n) :
    lexeme cs = some (.token .rawString, n) := by
  rw [lexeme, found]
  rfl

theorem lexeme_gap {c : Char} {cs : List Char} (blank : isGapChar c) :
    lexeme (c :: cs) = some (.gap, run isGapChar cs + 1) := by
  have only : c = ' ' ∨ c = '\t' ∨ c = '\x0c' ∨ c = '\r' ∨ c = '\n' := by
    simpa [isGapChar, or_assoc] using blank
  rcases only with rfl | rfl | rfl | rfl | rfl <;> rfl

theorem lexeme_comment {cs : List Char} {r : Class × Nat} (found : comment ('/' :: cs) = some r) :
    lexeme ('/' :: cs) = some r := by
  rw [lexeme, found]
  rfl

-- A letter in front of a quote that begins no literal is a word of its own.
theorem comment_slash {cs : List Char} {r : Class × Nat} (read : comment cs = some r) :
    ∃ rest, cs = '/' :: rest := by
  unfold comment at read
  split at read
  · exact ⟨_, rfl⟩
  · exact ⟨_, rfl⟩
  · cases read

theorem literal_opener {cs : List Char} {n : Nat}
    (read : rawString cs = some n ∨ charLiteral cs = some n ∨ stringLiteral cs = some n) :
    ∃ c rest, cs = c :: rest ∧ c ∈ openers := by
  rcases read with raw | char | string
  · unfold rawString at raw
    split at raw
    · exact ⟨_, _, rfl, by decide⟩
    · exact ⟨_, _, rfl, by decide⟩
    · cases raw
  · unfold charLiteral at char
    split at char
    · exact ⟨_, _, rfl, by decide⟩
    · exact ⟨_, _, rfl, by decide⟩
    · cases char
  · unfold stringLiteral at string
    split at string
    · exact ⟨_, _, rfl, by decide⟩
    · exact ⟨_, _, rfl, by decide⟩
    · cases string

theorem not_gapChar_of_starts {c : Char} (starts : startsWord c) : ¬isGapChar c := by
  intro blank
  have only : c = ' ' ∨ c = '\t' ∨ c = '\x0c' ∨ c = '\r' ∨ c = '\n' := by
    simpa [isGapChar, or_assoc] using blank
  rcases only with rfl | rfl | rfl | rfl | rfl <;> cases starts

-- A word that no literal begins with, up to where it ends.
theorem lexeme_whole_word {c : Char} {word rest : List Char} (starts : startsWord c) (plain : c ∉ openers)
    (letters : ∀ d ∈ word, continuesWord d) (ends : ∀ q ∈ rest.head?, ¬continuesWord q) :
    lexeme (c :: word ++ rest) =
      some (.token (.ofWord (String.ofList (c :: word))), (c :: word).length) := by
  have read : Lexeme.word (c :: (word ++ rest)) = some (word.length + 1) := by
    rw [word_plain fun _ _ letter _ => absurd (letter ▸ plain) (by decide), if_pos starts,
      run_of_ends letters ends]
  have literal {n : Nat} (read : rawString (c :: (word ++ rest)) = some n ∨
      charLiteral (c :: (word ++ rest)) = some n ∨ stringLiteral (c :: (word ++ rest)) = some n) :
      False := by
    obtain ⟨d, more, same, opener⟩ := literal_opener read
    cases same
    exact plain opener
  have noComment : comment (c :: (word ++ rest)) = none := by
    refine Option.eq_none_iff_forall_ne_some.mpr fun r slash => ?_
    obtain ⟨_, same⟩ := comment_slash slash
    obtain ⟨rfl, _⟩ := List.cons.inj same
    cases starts
  rw [List.cons_append, lexeme,
    Option.eq_none_iff_forall_ne_some.mpr fun n raw => literal (.inl raw),
    Option.eq_none_iff_forall_ne_some.mpr fun n char => literal (.inr (.inl char)),
    Option.eq_none_iff_forall_ne_some.mpr fun n string => literal (.inr (.inr string)),
    show gap (c :: (word ++ rest)) = none from if_neg (not_gapChar_of_starts starts), noComment, read,
    Option.map_some, List.take_succ_cons, List.take_left]
  rfl

theorem lexeme_letter_char {cs : List Char} (fails : lexeme ('\x27' :: cs) = none) :
    lexeme ('b' :: '\x27' :: cs) = some (.token (.ofWord "b"), 1) := by
  cases body : charBody cs with
  | none =>
    have literal : charLiteral ('b' :: '\x27' :: cs) = none := by simp [charLiteral, body]
    rw [lexeme, literal]
    rfl
  | some n =>
    have literal : charLiteral ('\x27' :: cs) = some (n + 1) := by simp [charLiteral, body]
    rw [lexeme, literal] at fails
    cases fails

theorem lexeme_letter_string {cs : List Char} (unclosed : stringBody cs = none) :
    lexeme ('b' :: '"' :: cs) = some (.token (.ofWord "b"), 1) := by
  have literal : stringLiteral ('b' :: '"' :: cs) = none := by simp [stringLiteral, unclosed]
  rw [lexeme, literal]
  rfl

theorem lexeme_quote {cs : List Char} (unclosed : stringBody cs = none) : lexeme ('"' :: cs) = none := by
  have literal : stringLiteral ('"' :: cs) = none := by simp [stringLiteral, unclosed]
  rw [lexeme, literal]
  cases cs <;> rfl

-- A lexeme that can stand last in front of a quiet character.
def Class.endsBefore (found : Class) (q : Char) : Bool :=
  found ∉ [.gap, .token .docLine] && !(q = ':' && found = .token .colon) &&
    !(q = '>' && found ∈ [.token .otherPunct, .token .equal])

section

variable {old u v : List Char} {q : Char} {found : Class} {n m : Nat}
variable (plain : q ∉ openers) (alone : lexeme u = some (found, n))
variable (next : n < u.length → lexeme (u.drop n) ≠ none)

include plain alone next in
theorem charLiteral_within (read : charLiteral (u ++ q :: v) = some m) : m ≤ u.length := by
  by_contra long
  unfold charLiteral at read
  split at read
  · rename_i rest same
    obtain ⟨k, body, rfl⟩ := Option.map_eq_some_iff.mp read
    match u, same with
    | [], same => cases same; exact absurd plain (by decide)
    | [a], same => cases same; exact absurd plain (by decide)
    | a :: b :: y, same =>
      cases same
      have unclosed := charBody_crossing plain body (by simp only [List.length_cons] at long; omega)
      rw [lexeme_letter_char unclosed] at alone
      cases alone
      exact next (by simp) unclosed
  · rename_i rest same
    obtain ⟨k, body, rfl⟩ := Option.map_eq_some_iff.mp read
    cases u with
    | nil => cases same; exact absurd plain (by decide)
    | cons a y =>
      cases same
      rw [charBody_crossing plain body (by simp only [List.length_cons] at long; omega)] at alone
      cases alone
  · cases read

theorem stringBody_crossing {y v : List Char} (read : stringBody (y ++ v) = some m)
    (crosses : y.length < m) : stringBody y = none := by
  cases inside : stringBody y with
  | none => rfl
  | some k =>
    rw [stringBody_append inside] at read
    cases read
    exact absurd (cuttable_stringBody.within inside) (Nat.not_le.mpr crosses)

include plain alone next in
theorem stringLiteral_within (read : stringLiteral (u ++ q :: v) = some m) : m ≤ u.length := by
  by_contra long
  unfold stringLiteral at read
  split at read
  · rename_i rest same
    obtain ⟨k, body, rfl⟩ := Option.map_eq_some_iff.mp read
    match u, same with
    | [], same => cases same; exact absurd plain (by decide)
    | [a], same => cases same; exact absurd plain (by decide)
    | a :: b :: y, same =>
      cases same
      have unclosed := stringBody_crossing body (by simp only [List.length_cons] at long; omega)
      rw [lexeme_letter_string unclosed] at alone
      cases alone
      exact next (by simp) (lexeme_quote unclosed)
  · rename_i rest same
    obtain ⟨k, body, rfl⟩ := Option.map_eq_some_iff.mp read
    cases u with
    | nil => cases same; exact absurd plain (by decide)
    | cons a y =>
      cases same
      have unclosed := stringBody_crossing body (by simp only [List.length_cons] at long; omega)
      rw [lexeme_quote unclosed] at alone
      cases alone
  · cases read

theorem gap_crossing (read : gap (u ++ q :: v) = some m) (filled : u ≠ []) (crosses : u.length < m) :
    lexeme u = some (.gap, u.length) := by
  obtain ⟨c, x, rfl⟩ := List.exists_cons_of_ne_nil filled
  simp only [List.cons_append, gap, Option.ite_none_right_eq_some, Option.some.injEq] at read
  obtain ⟨blank, rfl⟩ := read
  have cut := run_cut isGapChar x (q :: v)
  rw [List.length_cons] at crosses ⊢
  rw [lexeme_gap blank, show run isGapChar x = x.length by omega]

theorem comment_line_crossing {r : Class × Nat} (read : comment ('/' :: '/' :: u ++ q :: v) = some r)
    (crosses : u.length + 2 < r.2) :
    lexeme ('/' :: '/' :: u) = some (lineClass u, u.length + 2) := by
  rw [List.cons_append, List.cons_append, comment_line] at read
  cases read
  have cut := run_cut (· ≠ '\n') u (q :: v)
  apply lexeme_comment
  rw [comment_line, show run (· ≠ '\n') u = u.length by omega]

theorem lineClass_cases (cs : List Char) : lineClass cs ∈ [.gap, .token .docLine] := by
  unfold lineClass
  split <;> decide

-- A comment that crosses is one that reaches the end of `u`, or a block that is open in both texts.
theorem comment_crossing (covert : Covert old (q :: v)) (quiet : Quiet (q :: v)) {r : Class × Nat}
    (read : comment (u ++ q :: v) = some r) (filled : u ≠ []) (crosses : u.length < r.2) :
    (∃ found ∈ [.gap, .token .docLine], lexeme u = some (found, u.length)) ∨
      ∃ s, lexeme (u ++ old) = some s ∧ u.length < s.2 := by
  obtain ⟨a, x, rfl⟩ := List.exists_cons_of_ne_nil filled
  cases x with
  | nil =>
    exfalso
    rw [List.cons_append, List.nil_append] at read
    unfold comment at read
    split at read
    · rename_i same
      cases same
      exact absurd (quiet '/' rfl) (by decide)
    · rename_i same
      cases same
      exact absurd (quiet '*' rfl) (by decide)
    · cases read
  | cons b x =>
    simp only [List.length_cons] at crosses ⊢
    by_cases line : a = '/' ∧ b = '/'
    · obtain ⟨rfl, rfl⟩ := line
      exact .inl ⟨lineClass x, lineClass_cases x, comment_line_crossing read crosses⟩
    · by_cases block : a = '/' ∧ b = '*'
      · obtain ⟨rfl, rfl⟩ := block
        obtain ⟨s, other, far⟩ := comment_block_crossing covert read crosses
        exact .inr ⟨s, lexeme_comment other, far⟩
      · exfalso
        unfold comment at read
        split at read
        · rename_i same
          cases same
          exact line ⟨rfl, rfl⟩
        · rename_i same
          cases same
          exact block ⟨rfl, rfl⟩
        · cases read

theorem mark_le {cs : List Char} {r : Class × Nat} (read : mark cs = some r) : r.2 ≤ 2 := by
  unfold mark at read
  dsimp only at read
  rcases Option.or_eq_some_iff.mp read with pair | ⟨_, single⟩
  · split at pair
    · obtain ⟨_, _, rfl⟩ := Option.map_eq_some_iff.mp pair; exact Nat.le_refl _
    · cases pair
  · split at single
    · obtain ⟨_, _, rfl⟩ := Option.map_eq_some_iff.mp single; exact Nat.le_succ _
    · cases single

-- The pairs that end with a quiet character.
theorem pair_quiet {a : Char} {k : Kind} (listed : q ∈ quietChars)
    (pair : Kind.pairs.lookup (a, q) = some k) :
    (a, q) = (':', ':') ∨ (a, q) = ('-', '>') ∨ (a, q) = ('=', '>') := by
  obtain ⟨before, after, same, _⟩ := List.lookup_eq_some_iff.mp pair
  have found : ((a, q), k) ∈ Kind.pairs := by
    rw [same]
    simp
  simp only [Kind.pairs, List.mem_cons, Prod.mk.injEq, List.not_mem_nil, or_false] at found
  rcases found with ⟨⟨rfl, rfl⟩, _⟩ | ⟨⟨rfl, rfl⟩, _⟩ | ⟨⟨rfl, rfl⟩, _⟩ | ⟨⟨rfl, rfl⟩, _⟩ |
    ⟨⟨rfl, rfl⟩, _⟩
  · exact absurd listed (by decide)
  · exact .inl rfl
  · exact absurd listed (by decide)
  · exact .inr (.inl rfl)
  · exact .inr (.inr rfl)

theorem mark_crossing (quiet : Quiet (q :: v)) {r : Class × Nat} (read : mark (u ++ q :: v) = some r)
    (filled : u ≠ []) (crosses : u.length < r.2) :
    ∃ found, lexeme u = some (found, u.length) ∧ found.endsBefore q = false := by
  match u, filled with
  | [a], _ =>
    simp only [mark, List.cons_append, List.nil_append] at read
    cases pair : Kind.pairs.lookup (a, q) with
    | none =>
      rw [pair, Option.map_none, Option.none_or] at read
      obtain ⟨k, _, rfl⟩ := Option.map_eq_some_iff.mp read
      simp at crosses
    | some k =>
      rcases pair_quiet (quiet q rfl) pair with same | same | same <;> cases same
      · exact ⟨.token .colon, rfl, rfl⟩
      · exact ⟨.token .otherPunct, rfl, rfl⟩
      · exact ⟨.token .equal, rfl, rfl⟩
  | a :: b :: x, _ =>
    have most := mark_le read
    simp only [List.length_cons] at crosses
    omega

end

theorem lexeme_cases {cs : List Char} {r : Class × Nat} (found : lexeme cs = some r) :
    rawString cs = some r.2 ∨ charLiteral cs = some r.2 ∨ stringLiteral cs = some r.2 ∨
      gap cs = some r.2 ∨ comment cs = some r ∨ word cs = some r.2 ∨ number cs = some r.2 ∨
      lifetime cs = some r.2 ∨ mark cs = some r := by
  have classed {f : List Char → Option Nat} {own : Class}
      (read : (f cs).map (own, ·) = some r) : f cs = some r.2 := by
    obtain ⟨n, inner, rfl⟩ := Option.map_eq_some_iff.mp read
    exact inner
  unfold lexeme at found
  simp only [Option.or_eq_some_iff] at found
  rcases found with a | ⟨_, a | ⟨_, a | ⟨_, a | ⟨_, a | ⟨_, a | ⟨_, a | ⟨_, a | ⟨_, a⟩⟩⟩⟩⟩⟩⟩⟩
  · exact .inl (classed a)
  · exact .inr (.inl (classed a))
  · exact .inr (.inr (.inl (classed a)))
  · exact .inr (.inr (.inr (.inl (classed a))))
  · exact .inr (.inr (.inr (.inr (.inl a))))
  · obtain ⟨n, read, rfl⟩ := Option.map_eq_some_iff.mp a
    exact .inr (.inr (.inr (.inr (.inr (.inl read)))))
  · exact .inr (.inr (.inr (.inr (.inr (.inr (.inl (classed a)))))))
  · exact .inr (.inr (.inr (.inr (.inr (.inr (.inr (.inl (classed a))))))))
  · exact .inr (.inr (.inr (.inr (.inr (.inr (.inr (.inr a)))))))

-- `next` says that a lexeme follows inside `u`, `last` that otherwise the lexeme may stand last.
theorem lexeme_grown {old u v : List Char} {q : Char} {found : Class} {n : Nat} (filled : u ≠ [])
    (shy : Shy old (q :: v)) (quiet : Quiet (q :: v)) (here : lexeme (u ++ old) = some (found, n))
    (fits : n ≤ u.length) (next : n < u.length → lexeme (u.drop n) ≠ none)
    (last : n = u.length → found.endsBefore q) : lexeme (u ++ q :: v) = some (found, n) := by
  have alone : lexeme u = some (found, n) := cuttable_lexeme.kept here fits
  -- a lexeme of the new text that ends inside `u` is the lexeme of `u`; none crosses
  suffices within : ∀ r, lexeme (u ++ q :: v) = some r → r.2 ≤ u.length by
    cases other : lexeme (u ++ q :: v) with
    | none =>
      rw [cuttable_lexeme.lost other] at alone
      cases alone
    | some r => rw [← alone, cuttable_lexeme.kept other (within r other)]
  intro r other
  by_contra long
  have crosses := Nat.not_le.mp long
  have stuck {own : Class} (read : lexeme u = some (own, u.length))
      (stops : own.endsBefore q = false) : False := by
    rw [alone] at read
    cases read
    rw [last rfl] at stops
    cases stops
  have fixed {s : Class × Nat} (read : lexeme (u ++ old) = some s) (far : u.length < s.2) : False := by
    rw [here] at read
    cases read
    exact absurd fits (Nat.not_le.mpr far)
  rcases lexeme_cases other with raw | char | string | gap | comment | word | number | lifetime | mark
  · obtain ⟨k, read, far⟩ := rawString_crossing (shy.covert quiet) quiet.not_opener raw crosses
    exact fixed (lexeme_raw read) far
  · exact long (charLiteral_within quiet.not_opener alone next char)
  · exact long (stringLiteral_within quiet.not_opener alone next string)
  · exact stuck (gap_crossing gap filled crosses) rfl
  · rcases comment_crossing (shy.covert quiet) quiet comment filled crosses with ⟨own, listed, read⟩ | ⟨s, read, far⟩
    · rcases List.mem_pair.mp listed with rfl | rfl <;> exact stuck read rfl
    · exact fixed read far
  · exact long ((solid_word word).within quiet.not_solid)
  · exact long ((solid_number number).within quiet.not_solid)
  · exact long ((solid_lifetime lifetime).within quiet.not_solid)
  · obtain ⟨own, read, stops⟩ := mark_crossing quiet mark filled crosses
    exact stuck read stops

end Deasync.Lexeme
