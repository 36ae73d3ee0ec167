import Deasync.Proofs.Lexeme.Literal

namespace Deasync.Lexeme

theorem cuttable_gap : Cuttable id gap where
  kept := by
    intro u v n found fits
    cases u with
    | nil =>
      unfold gap at found
      split at found
      · split at found
        · cases found
          simp only [id, List.length_nil] at fits
          omega
        · cases found
      · cases found
    | cons c u =>
      simp only [List.cons_append, gap, Option.ite_none_right_eq_some, Option.some.injEq] at found ⊢
      obtain ⟨blank, rfl⟩ := found
      simp only [id, List.length_cons] at fits
      exact ⟨blank, by rw [run_of_le (v := v) (by omega)]⟩
  lost := by
    intro u v failed
    cases u with
    | nil => rfl
    | cons c u =>
      simp only [List.cons_append, gap, ite_eq_right_iff, reduceCtorEq, imp_false] at failed ⊢
      exact failed
  within := by
    intro cs n found
    unfold gap at found
    split at found
    · split at found
      · cases found
        exact Nat.succ_le_succ (run_le _ _)
      · cases found
    · cases found

-- The end of a block comment, from the second character behind its opening on.
def blockEnd (a b : Char) (cs : List Char) : Option (Class × Nat) :=
  if a = '*' ∧ ¬(b = '*' ∨ b = '/') then
    (through ['*', '/'] (b :: cs)).map (.token .docBlock, · + 3)
  else (through ['*', '/'] (a :: b :: cs)).map (.gap, · + 2)

theorem comment_block (a b : Char) (cs : List Char) :
    comment ('/' :: '*' :: a :: b :: cs) = blockEnd a b cs := by
  simp only [comment, blockEnd]
  split
  · simp_all
  · simp_all
  · rename_i body stars slash same
    simp only [List.cons.injEq] at same
    obtain ⟨rfl, rfl⟩ := same
    rw [if_pos ⟨rfl, by rintro (rfl | rfl); exacts [stars _ rfl, slash _ rfl]⟩]
  · simp_all

theorem comment_short {cs : List Char} (short : cs.length < 2) :
    comment ('/' :: '*' :: cs) = none := by
  match cs, short with
  | [], _ => rfl
  | [c], _ =>
    by_cases star : c = '*'
    · subst star; rfl
    · simp [comment, through, star]

theorem blockEnd_kept {a b : Char} {u v : List Char} {r : Class × Nat}
    (found : blockEnd a b (u ++ v) = some r) (fits : r.2 ≤ u.length + 4) :
    blockEnd a b u = some r := by
  unfold blockEnd at found ⊢
  split at found
  · rename_i doc
    obtain ⟨n, inner, rfl⟩ := Option.map_eq_some_iff.mp found
    rw [if_pos doc, (cuttable_through (by simp)).kept (u := b :: u) inner
      (by simp only [id, List.length_cons] at fits ⊢; omega)]
    rfl
  · rename_i plain
    obtain ⟨n, inner, rfl⟩ := Option.map_eq_some_iff.mp found
    rw [if_neg plain, (cuttable_through (by simp)).kept (u := a :: b :: u) inner
      (by simp only [id, List.length_cons] at fits ⊢; omega)]
    rfl

theorem blockEnd_lost {a b : Char} {u v : List Char} (failed : blockEnd a b (u ++ v) = none) :
    blockEnd a b u = none := by
  unfold blockEnd at failed ⊢
  split at failed
  · rename_i doc
    rw [if_pos doc, (cuttable_through (by simp)).lost (u := b :: u)
      (Option.map_eq_none_iff.mp failed)]
    rfl
  · rename_i plain
    rw [if_neg plain, (cuttable_through (by simp)).lost (u := a :: b :: u)
      (Option.map_eq_none_iff.mp failed)]
    rfl

-- The class of a line comment, by what stands behind its two slashes.
def lineClass : List Char → Class
  | '/' :: '/' :: _ => .gap
  | '/' :: _ => .token .docLine
  | _ => .gap

theorem comment_line (cs : List Char) :
    comment ('/' :: '/' :: cs) = some (lineClass cs, run (· ≠ '\n') cs + 2) := by
  simp only [comment]
  split
  · rfl
  · rename_i rest single
    rw [lineClass]
    exact single
  · rename_i double single
    rw [lineClass]
    · exact double
    · exact single

theorem lineClass_cut {u v : List Char} (fits : run (· ≠ '\n') (u ++ v) ≤ u.length) :
    lineClass u = lineClass (u ++ v) := by
  -- a slash behind the cut would belong to the line
  have stops : ∀ rest, v = '/' :: rest → u = [] ∨ u = ['/'] → False := by
    rintro rest rfl (rfl | rfl) <;> simp [run] at fits
  rcases u with _ | ⟨c, _ | ⟨d, u⟩⟩
  · cases v with
    | nil => rfl
    | cons c rest =>
      have other : c ≠ '/' := fun slash => stops rest (by rw [slash]) (.inl rfl)
      simp [lineClass, other]
  · by_cases slash : c = '/'
    · subst slash
      cases v with
      | nil => rfl
      | cons d rest =>
        have other : d ≠ '/' := fun slash => stops rest (by rw [slash]) (.inr rfl)
        simp [lineClass, other]
    · simp [lineClass, slash]
  · by_cases slash : c = '/'
    · subst slash
      by_cases more : d = '/'
      · subst more; rfl
      · simp [lineClass, more]
    · simp [lineClass, slash]

theorem comment_ne {a b : Char} {cs : List Char} (other : ¬(a = '/' ∧ (b = '/' ∨ b = '*'))) :
    comment (a :: b :: cs) = none := by
  unfold comment
  split <;> simp_all

theorem comment_size {cs : List Char} {r : Class × Nat} (found : comment cs = some r) : 2 ≤ r.2 := by
  unfold comment at found
  split at found
  · dsimp only at found
    split at found <;> (cases found; exact Nat.le_add_left _ _)
  · split at found <;>
      (obtain ⟨n, _, rfl⟩ := Option.map_eq_some_iff.mp found; simp only; omega)
  · cases found

theorem block_size {cs : List Char} {r : Class × Nat} (found : comment ('/' :: '*' :: cs) = some r) :
    4 ≤ r.2 := by
  simp only [comment] at found
  split at found <;>
    (obtain ⟨n, inner, rfl⟩ := Option.map_eq_some_iff.mp found
     have least := through_ge inner
     simp only [List.length_cons, List.length_nil] at least ⊢
     omega)

theorem cuttable_comment : Cuttable Prod.snd comment where
  kept := by
    intro u v r found fits
    have size := comment_size found
    match u with
    | [] => simp only [List.length_nil] at fits; omega
    | [c] => simp only [List.length_cons, List.length_nil] at fits; omega
    | a :: b :: u =>
      simp only [List.cons_append, List.length_cons] at found fits
      by_cases line : a = '/' ∧ b = '/'
      · obtain ⟨rfl, rfl⟩ := line
        rw [comment_line, Option.some.injEq] at found ⊢
        subst found
        have short : run (· ≠ '\n') (u ++ v) ≤ u.length := by simp only at fits; omega
        rw [lineClass_cut short, run_of_le short]
      · by_cases block : a = '/' ∧ b = '*'
        · obtain ⟨rfl, rfl⟩ := block
          have least := block_size found
          match u with
          | [] => simp only [List.length_nil] at fits; omega
          | [c] => simp only [List.length_cons, List.length_nil] at fits; omega
          | c :: d :: u =>
            rw [List.cons_append, List.cons_append, comment_block] at found
            rw [comment_block]
            exact blockEnd_kept found fits
        · rw [comment_ne (by rintro ⟨one, two | two⟩; exacts [line ⟨one, two⟩, block ⟨one, two⟩])]
            at found
          cases found
  lost := by
    intro u v failed
    match u with
    | [] => rfl
    | [c] => simp [comment]
    | a :: b :: u =>
      simp only [List.cons_append] at failed
      by_cases line : a = '/' ∧ b = '/'
      · obtain ⟨rfl, rfl⟩ := line
        rw [comment_line] at failed
        cases failed
      · by_cases block : a = '/' ∧ b = '*'
        · obtain ⟨rfl, rfl⟩ := block
          match u with
          | [] => rfl
          | [c] => exact comment_short (by simp)
          | c :: d :: u =>
            rw [List.cons_append, List.cons_append, comment_block] at failed
            rw [comment_block]
            exact blockEnd_lost failed
        · exact comment_ne
            (by rintro ⟨one, two | two⟩; exacts [line ⟨one, two⟩, block ⟨one, two⟩])
  within := by
    intro cs r found
    have ends {rest : List Char} {n : Nat} (closed : through ['*', '/'] rest = some n) :=
      (cuttable_through (by simp)).within closed
    unfold comment at found
    split at found
    · rename_i rest
      have short := run_le (· ≠ '\n') rest
      dsimp only at found
      split at found <;> (cases found; simp only [List.length_cons] at short ⊢; omega)
    · split at found <;>
        (obtain ⟨n, inner, rfl⟩ := Option.map_eq_some_iff.mp found
         have short := ends inner
         simp only [id, List.length_cons] at short ⊢
         omega)
    · cases found

theorem word_name (c : Char) (cs : List Char) (starts : startsWord c = true) :
    word ('r' :: '#' :: c :: cs) = some (run continuesWord cs + 3) := by
  simp [word, starts]

theorem word_plain {c : Char} {cs : List Char}
    (other : ∀ d more, c = 'r' → cs = '#' :: d :: more → startsWord d = false) :
    word (c :: cs) = if startsWord c then some (run continuesWord cs + 1) else none := by
  unfold word
  split
  · rename_i d more same
    simp only [List.cons.injEq] at same
    obtain ⟨rfl, rfl⟩ := same
    rw [other d more rfl rfl]
    rfl
  · rename_i head tail same
    simp only [List.cons.injEq] at same
    obtain ⟨rfl, rfl⟩ := same
    rfl
  · rename_i none
    cases none

theorem name_or_plain (c : Char) (cs : List Char) :
    (∃ d more, c = 'r' ∧ cs = '#' :: d :: more ∧ startsWord d = true) ∨
      ∀ d more, c = 'r' → cs = '#' :: d :: more → startsWord d = false := by
  by_cases name : ∃ d more, c = 'r' ∧ cs = '#' :: d :: more ∧ startsWord d = true
  · exact .inl name
  · refine .inr fun d more letter same => ?_
    rw [Bool.eq_false_iff]
    exact fun starts => name ⟨d, more, letter, same, starts⟩

theorem cuttable_word : Cuttable id word where
  kept := by
    intro u v n found fits
    cases u with
    | nil =>
      have positive : 0 < n := by
        unfold word at found
        split at found
        · split at found <;> (cases found; exact Nat.succ_pos _)
        · split at found
          · cases found; exact Nat.succ_pos _
          · cases found
        · cases found
      exact absurd positive (Nat.not_lt.mpr fits)
    | cons c u =>
      rw [List.cons_append] at found
      rcases name_or_plain c (u ++ v) with ⟨d, more, rfl, same, starts⟩ | plain
      · rw [same, word_name d more starts, Option.some.injEq] at found
        subst found
        simp only [id, List.length_cons] at fits
        match u, same with
        | [], _ => simp only [List.length_nil] at fits; omega
        | [a], _ => simp only [List.length_cons, List.length_nil] at fits; omega
        | a :: b :: u, same =>
          simp only [List.cons_append, List.cons.injEq] at same
          obtain ⟨rfl, rfl, rfl⟩ := same
          simp only [List.length_cons] at fits
          rw [word_name b u starts, run_of_le (v := v) (by omega)]
      · rw [word_plain plain] at found
        split at found
        · rename_i starts
          cases found
          simp only [id, List.length_cons] at fits
          rw [word_plain fun d more letter same => plain d (more ++ v) letter (by rw [same]; rfl),
            if_pos starts, run_of_le (v := v) (by omega)]
        · cases found
  lost := by
    intro u v failed
    cases u with
    | nil => rfl
    | cons c u =>
      rw [List.cons_append] at failed
      rcases name_or_plain c (u ++ v) with ⟨d, more, rfl, same, starts⟩ | plain
      · rw [same, word_name d more starts] at failed
        cases failed
      · rw [word_plain plain] at failed
        split at failed
        · cases failed
        · rename_i stops
          rw [word_plain fun d more letter same => plain d (more ++ v) letter (by rw [same]; rfl),
            if_neg stops]
  within := by
    intro cs n found
    unfold word at found
    split at found
    · split at found
      · cases found
        exact Nat.add_le_add_right (run_le _ _) 3
      · cases found
        exact Nat.le_add_left _ _
    · split at found
      · cases found
        exact Nat.succ_le_succ (run_le _ _)
      · cases found
    · cases found

theorem cuttable_lifetime : Cuttable id lifetime where
  kept := by
    intro u v n found fits
    unfold lifetime at found
    split at found
    · rename_i c rest same
      simp only [Option.ite_none_right_eq_some, Option.some.injEq] at found
      obtain ⟨starts, rfl⟩ := found
      match u, same with
      | [], same => simp only [id, List.length_nil] at fits; omega
      | [a], same => simp only [id, List.length_cons, List.length_nil] at fits; omega
      | a :: b :: u, same =>
        simp only [List.cons_append, List.cons.injEq] at same
        obtain ⟨rfl, rfl, rfl⟩ := same
        simp only [id, List.length_cons] at fits
        simp only [lifetime, starts, if_true, run_of_le (p := continuesWord) (u := u) (v := v) (by omega)]
    · cases found
  lost := by
    refine lost_of_grown fun {u v n} found => ?_
    unfold lifetime at found
    split at found
    · rename_i cs c rest
      simp only [Option.ite_none_right_eq_some, Option.some.injEq] at found
      simp only [List.cons_append, lifetime, found.1, if_true]
      exact Option.some_ne_none _
    · cases found
  within := by
    intro cs n found
    unfold lifetime at found
    split at found
    · split at found
      · cases found
        exact Nat.add_le_add_right (run_le _ _) 2
      · cases found
    · cases found

-- How many digits of the base that `mark` announces stand in front.
def radixDigits (mark : Char) (cs : List Char) : Nat :=
  if mark = 'x' then run (fun c => isHex c || c == '_') cs
  else if mark = 'o' then run (fun c => (decide ('0' ≤ c) && decide (c ≤ '7')) || c == '_') cs
  else if mark = 'b' then run (fun c => c == '0' || c == '1' || c == '_') cs
  else 0

theorem radix_zero (mark : Char) (cs : List Char) : radix ('0' :: mark :: cs) =
    if radixDigits mark cs = 0 then none else some (radixDigits mark cs + 2) := rfl

theorem radixDigits_cut (mark : Char) (u v : List Char) :
    radixDigits mark u = min (radixDigits mark (u ++ v)) u.length := by
  unfold radixDigits
  split
  · exact run_cut _ u v
  · split
    · exact run_cut _ u v
    · split
      · exact run_cut _ u v
      · exact (Nat.zero_min _).symm

theorem radix_some {cs : List Char} {n : Nat} (found : radix cs = some n) :
    ∃ mark rest, cs = '0' :: mark :: rest ∧ radixDigits mark rest ≠ 0 ∧
      n = radixDigits mark rest + 2 := by
  unfold radix at found
  split at found
  · rename_i mark rest
    change (if radixDigits mark rest = 0 then none else some (radixDigits mark rest + 2)) = some n
      at found
    split at found
    · cases found
    · rename_i digits
      cases found
      exact ⟨mark, rest, rfl, digits, rfl⟩
  · cases found

theorem cuttable_radix : Cuttable id radix where
  kept := by
    intro u v n found fits
    obtain ⟨mark, rest, same, digits, rfl⟩ := radix_some found
    simp only [id] at fits
    match u, same with
    | [], _ => simp only [List.length_nil] at fits; omega
    | [a], _ => simp only [List.length_cons, List.length_nil] at fits; omega
    | a :: b :: u, same =>
      simp only [List.cons_append, List.cons.injEq] at same
      obtain ⟨rfl, rfl, rfl⟩ := same
      simp only [List.length_cons] at fits
      have cut := radixDigits_cut b u v
      have equal : radixDigits b u = radixDigits b (u ++ v) := by omega
      rw [radix_zero, equal, if_neg digits]
  lost := by
    refine lost_of_grown fun {u v n} found => ?_
    obtain ⟨mark, rest, rfl, digits, rfl⟩ := radix_some found
    have cut := radixDigits_cut mark rest v
    rw [List.cons_append, List.cons_append, radix_zero, if_neg (by omega)]
    exact Option.some_ne_none _
  within := by
    intro cs n found
    obtain ⟨mark, rest, rfl, _, rfl⟩ := radix_some found
    have cut := radixDigits_cut mark rest []
    rw [List.append_nil] at cut
    simp only [id, List.length_cons]
    omega

theorem fraction_cut {x v : List Char} (fits : fraction (x ++ v) ≤ x.length) :
    fraction x = fraction (x ++ v) := by
  match x with
  | [] => simp only [List.length_nil, Nat.le_zero] at fits; rw [fits]; rfl
  | [c] =>
    have none : fraction [c] = 0 := by unfold fraction; split <;> simp_all
    rw [none]
    unfold fraction at fits ⊢
    split
    · split
      · simp_all
      · rfl
    · rfl
  | c :: d :: x =>
    by_cases point : c = '.'
    · subst point
      simp only [List.cons_append, fraction] at fits ⊢
      split
      · rename_i digit
        rw [if_pos digit, List.length_cons, List.length_cons] at fits
        rw [run_of_le (v := v) (by omega)]
      · rfl
    · simp [fraction, point]

theorem fraction_le (cs : List Char) : fraction cs ≤ cs.length := by
  unfold fraction
  split
  · split
    · exact Nat.add_le_add_right (run_le _ _) 2
    · exact Nat.zero_le _
  · exact Nat.zero_le _

-- The length of the sign in front of an exponent.
def signLength : List Char → Nat
  | c :: _ => if c = '+' || c = '-' then 1 else 0
  | [] => 0

theorem exponent_cons (mark : Char) (cs : List Char) : exponent (mark :: cs) =
    if mark = 'e' || mark = 'E' then
      if run isDecimal (cs.drop (signLength cs)) = 0 then 0
      else run isDecimal (cs.drop (signLength cs)) + signLength cs + 1
    else 0 := by
  cases cs <;> rfl

theorem signLength_le (cs : List Char) : signLength cs ≤ cs.length := by
  unfold signLength
  split
  · split <;> simp
  · exact Nat.le_refl _

theorem exponent_le (cs : List Char) : exponent cs ≤ cs.length := by
  cases cs with
  | nil => exact Nat.le_refl _
  | cons mark rest =>
    have sign := signLength_le rest
    have digits := run_le isDecimal (rest.drop (signLength rest))
    rw [List.length_drop] at digits
    rw [exponent_cons, List.length_cons]
    split
    · split <;> omega
    · omega

theorem exponent_cut {x v : List Char} (fits : exponent (x ++ v) ≤ x.length) :
    exponent x = exponent (x ++ v) := by
  match x with
  | [] => simp only [List.length_nil, Nat.le_zero] at fits; rw [fits]; rfl
  | [mark] =>
    rw [List.cons_append, List.nil_append, exponent_cons] at fits ⊢
    rw [exponent_cons]
    split
    · rename_i letter
      rw [if_pos letter, List.length_singleton] at fits
      split at fits
      · rename_i none; rw [if_pos none]; rfl
      · omega
    · rfl
  | mark :: c :: rest =>
    have long : exponent (mark :: c :: rest ++ v) = _ := exponent_cons mark (c :: rest ++ v)
    have sign : signLength (c :: rest ++ v) = signLength (c :: rest) := rfl
    rw [sign, List.drop_append_of_le_length (signLength_le _)] at long
    rw [long] at fits ⊢
    rw [exponent_cons]
    have cut := run_cut isDecimal ((c :: rest).drop (signLength (c :: rest))) v
    rw [List.length_drop] at cut
    split
    · rename_i letter
      rw [if_pos letter, List.length_cons] at fits
      split at fits
      · rename_i none
        rw [if_pos (by omega), if_pos none]
      · rename_i digits
        have equal : run isDecimal ((c :: rest).drop (signLength (c :: rest))) =
            run isDecimal ((c :: rest).drop (signLength (c :: rest)) ++ v) := by omega
        rw [equal]
    · rfl

theorem cuttable_decimal : Cuttable id decimal where
  kept := by
    intro u v n found fits
    cases u with
    | nil =>
      unfold decimal at found
      split at found
      · split at found
        · cases found
          simp only [id, List.length_nil] at fits
          omega
        · cases found
      · cases found
    | cons c u =>
      simp only [List.cons_append, decimal, Option.ite_none_right_eq_some, Option.some.injEq] at found ⊢
      obtain ⟨digit, rfl⟩ := found
      simp only [id, ← List.cons_append] at fits ⊢
      -- the parts are read one behind the other, each as far as inside the cut
      generalize whole : run isDecimal (u ++ v) + 1 = wide at fits ⊢
      have wideFits : wide ≤ (c :: u).length := by omega
      rw [List.drop_append_of_le_length wideFits] at fits ⊢
      generalize point : wide + fraction ((c :: u).drop wide ++ v) = wider at fits ⊢
      have widerFits : wider ≤ (c :: u).length := by omega
      rw [List.drop_append_of_le_length widerFits] at fits ⊢
      have same : run isDecimal u + 1 = wide := by
        rw [← whole, run_of_le (v := v) (by simp only [List.length_cons] at wideFits; omega)]
      have sameFraction : wide + fraction ((c :: u).drop wide) = wider := by
        rw [← point, fraction_cut (v := v) (by rw [List.length_drop]; omega)]
      refine ⟨digit, ?_⟩
      rw [same, sameFraction, exponent_cut (v := v) (by rw [List.length_drop]; omega)]
  lost := by
    intro u v failed
    cases u with
    | nil => rfl
    | cons c u =>
      simp only [List.cons_append, decimal, ite_eq_right_iff, reduceCtorEq, imp_false] at failed ⊢
      exact failed
  within := by
    intro cs n found
    unfold decimal at found
    split at found
    · rename_i cs c rest
      split at found
      · cases found
        have whole := run_le isDecimal rest
        have point := fraction_le ((c :: rest).drop (run isDecimal rest + 1))
        have power := exponent_le ((c :: rest).drop
          (run isDecimal rest + 1 + fraction ((c :: rest).drop (run isDecimal rest + 1))))
        simp only [id, List.length_drop, List.length_cons] at point power ⊢
        omega
      · cases found
    · cases found

theorem cuttable_number : Cuttable id number where
  kept := by
    intro u v n found fits
    unfold number at found ⊢
    obtain ⟨digits, read, rfl⟩ := Option.map_eq_some_iff.mp found
    have digitsFit : digits ≤ u.length := by
      simp only [id] at fits
      split at fits <;> omega
    rw [(cuttable_radix.or cuttable_decimal).kept read digitsFit, Option.map_some,
      Option.some.injEq]
    rw [List.drop_append_of_le_length digitsFit] at fits ⊢
    rw [find_cut]
    intro ending isEnding
    simp only [isEnding, id] at fits
    rw [List.length_drop]
    omega
  lost := by
    intro u v failed
    unfold number at failed ⊢
    rw [Option.map_eq_none_iff] at failed ⊢
    exact (cuttable_radix.or cuttable_decimal).lost failed
  within := by
    intro cs n found
    unfold number at found
    obtain ⟨digits, read, rfl⟩ := Option.map_eq_some_iff.mp found
    have short := (cuttable_radix.or cuttable_decimal).within read
    simp only [id] at short ⊢
    split
    · rename_i ending isEnding
      have standing := List.find?_some isEnding
      have length := (List.isPrefixOf_iff_prefix.mp standing).length_le
      rw [List.length_drop] at length
      omega
    · exact short

theorem mark_size {cs : List Char} {r : Class × Nat} (found : mark cs = some r) : 0 < r.2 := by
  unfold mark at found
  dsimp only at found
  rw [Option.or_eq_some_iff] at found
  rcases found with pair | ⟨_, single⟩
  · split at pair
    · obtain ⟨_, _, rfl⟩ := Option.map_eq_some_iff.mp pair; exact Nat.succ_pos _
    · cases pair
  · split at single
    · obtain ⟨_, _, rfl⟩ := Option.map_eq_some_iff.mp single; exact Nat.succ_pos _
    · cases single

theorem cuttable_mark : Cuttable Prod.snd mark where
  kept := by
    intro u v r found fits
    match u, v with
    | [], v => exact absurd (mark_size found) (Nat.not_lt.mpr fits)
    | [c], [] => exact found
    | [c], d :: v =>
      simp only [mark, List.cons_append, List.nil_append] at found ⊢
      cases pair : Kind.pairs.lookup (c, d) with
      | none => rwa [pair] at found
      | some kind =>
        rw [pair] at found
        cases found
        simp only [List.length_singleton] at fits
        omega
    | c :: d :: u, v => exact found
  lost := by
    intro u v failed
    match u, v with
    | [], _ => rfl
    | [c], [] => exact failed
    | [c], d :: v =>
      simp only [mark, List.cons_append, List.nil_append, Option.or_eq_none_iff] at failed ⊢
      exact ⟨trivial, failed.2⟩
    | c :: d :: u, v => exact failed
  within := by
    intro cs r found
    unfold mark at found
    dsimp only at found
    rcases Option.or_eq_some_iff.mp found with pair | ⟨_, single⟩
    · split at pair
      · obtain ⟨_, _, rfl⟩ := Option.map_eq_some_iff.mp pair; exact Nat.le_add_left _ _
      · cases pair
    · split at single
      · obtain ⟨_, _, rfl⟩ := Option.map_eq_some_iff.mp single; exact Nat.le_add_left _ _
      · cases single

theorem cuttable_wordClass : Cuttable Prod.snd fun cs =>
    (word cs).map fun n => (Class.token (.ofWord (String.ofList (cs.take n))), n) where
  kept := by
    intro u v r found fits
    obtain ⟨n, read, rfl⟩ := Option.map_eq_some_iff.mp found
    rw [cuttable_word.kept read fits, Option.map_some, List.take_append_of_le_length fits]
  lost := by
    intro u v failed
    rw [Option.map_eq_none_iff] at failed ⊢
    exact cuttable_word.lost failed
  within := by
    intro cs r found
    obtain ⟨n, read, rfl⟩ := Option.map_eq_some_iff.mp found
    exact cuttable_word.within read

theorem Cuttable.classed {f : List Char → Option Nat} (cut : Cuttable id f) (found : Class) :
    Cuttable Prod.snd fun cs => (f cs).map (found, ·) :=
  cut.map fun _ => rfl

theorem cuttable_lexeme : Cuttable Prod.snd lexeme :=
  (cuttable_rawString.classed _).or <| (cuttable_charLiteral.classed _).or <|
  (cuttable_stringLiteral.classed _).or <| (cuttable_gap.classed _).or <|
  cuttable_comment.or <| cuttable_wordClass.or <|
  (cuttable_number.classed _).or <| (cuttable_lifetime.classed _).or cuttable_mark

end Deasync.Lexeme
