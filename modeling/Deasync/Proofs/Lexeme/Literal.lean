import Deasync.Token.Lexeme
import Mathlib.Data.List.Infix

namespace Deasync.Lexeme

-- `size` says how many characters a result takes. `kept`: what is found inside `u` is found when the
-- text ends with `u`. `lost`: cutting a text does not make anything appear. `within`: no result takes
-- more characters than there are.
structure Cuttable {α : Type} (size : α → Nat) (f : List Char → Option α) : Prop where
  kept : ∀ {u v : List Char} {a : α}, f (u ++ v) = some a → size a ≤ u.length → f u = some a
  lost : ∀ {u v : List Char}, f (u ++ v) = none → f u = none
  within : ∀ {cs : List Char} {a : α}, f cs = some a → size a ≤ cs.length

namespace Cuttable

variable {α β : Type} {size : α → Nat} {f g : List Char → Option α}

theorem or (first : Cuttable size f) (second : Cuttable size g) :
    Cuttable size fun cs => (f cs).or (g cs) where
  kept := by
    intro u v a found fits
    cases tried : f (u ++ v) with
    | some b =>
      rw [tried] at found
      cases found
      rw [first.kept tried fits, Option.some_or]
    | none =>
      rw [tried, Option.none_or] at found
      rw [first.lost tried, Option.none_or, second.kept found fits]
  lost := by
    intro u v failed
    rw [Option.or_eq_none_iff] at failed ⊢
    exact ⟨first.lost failed.1, second.lost failed.2⟩
  within := by
    intro cs a found
    rcases Option.or_eq_some_iff.mp found with one | ⟨_, two⟩
    · exact first.within one
    · exact second.within two

theorem map {wide : β → Nat} {change : α → β} (cut : Cuttable size f)
    (same : ∀ a, wide (change a) = size a) : Cuttable wide fun cs => (f cs).map change where
  kept := by
    intro u v b found fits
    obtain ⟨a, inner, rfl⟩ := Option.map_eq_some_iff.mp found
    rw [cut.kept inner (same a ▸ fits)]
    rfl
  lost := by
    intro u v failed
    rw [Option.map_eq_none_iff] at failed ⊢
    exact cut.lost failed
  within := by
    intro cs b found
    obtain ⟨a, inner, rfl⟩ := Option.map_eq_some_iff.mp found
    rw [same]
    exact cut.within inner

end Cuttable

theorem run_cut (p : Char → Bool) (u v : List Char) : run p u = min (run p (u ++ v)) u.length := by
  induction u with
  | nil => simp [run]
  | cons c u ih =>
    by_cases holds : p c
    · simp only [run, List.cons_append, List.takeWhile_cons_of_pos holds, List.length_cons] at ih ⊢
      omega
    · simp [run, holds]

theorem run_le (p : Char → Bool) (cs : List Char) : run p cs ≤ cs.length :=
  List.Sublist.length_le (List.takeWhile_sublist p)

theorem run_of_le {p : Char → Bool} {u v : List Char} (fits : run p (u ++ v) ≤ u.length) :
    run p u = run p (u ++ v) := by
  rw [run_cut p u v]
  omega

theorem run_of_lt {p : Char → Bool} {u v : List Char} (short : run p u < u.length) :
    run p (u ++ v) = run p u := by
  have cut := run_cut p u v
  omega

theorem run_cons_of_pos {f : Char → Bool} {c : Char} {cs : List Char} (holds : f c) :
    run f (c :: cs) = run f cs + 1 := by
  rw [run, List.takeWhile_cons_of_pos holds, List.length_cons, run]

theorem run_all (cs : List Char) : run (fun _ => true) cs = cs.length := by
  induction cs with
  | nil => rfl
  | cons c rest ih => rw [run_cons_of_pos rfl, ih, List.length_cons]

theorem run_succ {f : Char → Bool} {cs : List Char} {n : Nat} (long : n + 1 ≤ run f cs) :
    ∃ c rest, cs = c :: rest ∧ f c ∧ n ≤ run f rest := by
  cases cs with
  | nil => exact absurd long (Nat.not_succ_le_zero n)
  | cons c rest =>
    by_cases holds : f c
    · rw [run_cons_of_pos holds] at long
      exact ⟨c, rest, rfl, holds, Nat.le_of_succ_le_succ long⟩
    · rw [run, List.takeWhile_cons_of_neg holds] at long
      exact absurd long (Nat.not_succ_le_zero n)

theorem run_le_of_drop {f : Char → Bool} {c : Char} {cs rest : List Char} {n : Nat}
    (behind : cs.drop n = c :: rest) (fails : ¬f c) : run f cs ≤ n := by
  induction n generalizing cs with
  | zero =>
    rw [List.drop_zero] at behind
    rw [behind, run, List.takeWhile_cons_of_neg fails]
    exact Nat.le_refl 0
  | succ n ih =>
    cases cs with
    | nil => exact Nat.zero_le _
    | cons d cs =>
      by_cases holds : f d
      · rw [run_cons_of_pos holds]
        exact Nat.succ_le_succ (ih behind)
      · rw [run, List.takeWhile_cons_of_neg holds]
        exact Nat.zero_le _

theorem run_eq_length {f : Char → Bool} {x rest : List Char} (full : run f (x ++ rest) = x.length) :
    (∀ c ∈ x, f c) ∧ ∀ q ∈ rest.head?, ¬f q := by
  have cut := run_cut f x rest
  have prefix_all : ∀ c ∈ x.takeWhile f, f c := List.all_eq_true.mp List.all_takeWhile
  have whole : x.takeWhile f = x :=
    (List.takeWhile_prefix f).eq_of_length (show run f x = x.length by omega)
  rw [whole] at prefix_all
  refine ⟨prefix_all, fun q first holds => ?_⟩
  obtain ⟨more, rfl⟩ := List.head?_eq_some_iff.mp first
  rw [run, List.takeWhile_append_of_pos prefix_all, List.takeWhile_cons_of_pos holds,
    List.length_append, List.length_cons] at full
  omega

theorem run_of_ends {f : Char → Bool} {x rest : List Char} (all : ∀ c ∈ x, f c)
    (ends : ∀ q ∈ rest.head?, ¬f q) : run f (x ++ rest) = x.length := by
  rw [run, List.takeWhile_append_of_pos all]
  cases rest with
  | nil => simp
  | cons q rest => rw [List.takeWhile_cons_of_neg (ends q rfl), List.append_nil]

theorem isPrefixOf_append {e x v : List Char} (fits : e.length ≤ x.length) :
    e.isPrefixOf (x ++ v) = e.isPrefixOf x := by
  rw [Bool.eq_iff_iff, List.isPrefixOf_iff_prefix, List.isPrefixOf_iff_prefix]
  exact ⟨fun long => List.prefix_of_prefix_length_le long (List.prefix_append x v) fits,
    fun short => short.trans (List.prefix_append x v)⟩

theorem isPrefixOf_longer {e x v : List Char} (absent : e.isPrefixOf (x ++ v) = false) :
    e.isPrefixOf x = false := by
  rw [Bool.eq_false_iff, Ne, List.isPrefixOf_iff_prefix] at absent ⊢
  exact fun short => absent (short.trans (List.prefix_append x v))

theorem through_ge {stop cs : List Char} {n : Nat} (found : through stop cs = some n) :
    stop.length ≤ n := by
  induction cs generalizing n with
  | nil => cases found
  | cons c cs ih =>
    unfold through at found
    split at found
    · cases found
      exact Nat.le_refl _
    · obtain ⟨m, inner, rfl⟩ := Option.map_eq_some_iff.mp found
      exact Nat.le_succ_of_le (ih inner)

theorem cuttable_through {stop : List Char} (filled : stop ≠ []) : Cuttable id (through stop) where
  kept := by
    intro u v n found fits
    induction u generalizing n with
    | nil =>
      have least := Nat.lt_of_lt_of_le (List.length_pos_iff.mpr filled) (through_ge found)
      exact absurd least (Nat.not_lt.mpr fits)
    | cons c u ih =>
      rw [List.cons_append, through] at found
      rw [through]
      split at found
      · rename_i here
        cases found
        rw [← List.cons_append, isPrefixOf_append fits] at here
        rw [if_pos here]
      · rename_i later
        obtain ⟨m, inner, rfl⟩ := Option.map_eq_some_iff.mp found
        have absent := isPrefixOf_longer (x := c :: u) (Bool.eq_false_iff.mpr later)
        rw [absent, ih inner (Nat.le_of_succ_le_succ fits)]
        rfl
  lost := by
    intro u v failed
    induction u with
    | nil => rfl
    | cons c u ih =>
      rw [List.cons_append, through] at failed
      rw [through]
      split at failed
      · cases failed
      · rename_i later
        have absent := isPrefixOf_longer (x := c :: u) (Bool.eq_false_iff.mpr later)
        rw [absent, ih (Option.map_eq_none_iff.mp failed)]
        rfl
  within := by
    intro cs n found
    induction cs generalizing n with
    | nil => cases found
    | cons c cs ih =>
      unfold through at found
      split at found
      · rename_i here
        cases found
        exact (List.isPrefixOf_iff_prefix.mp here).length_le
      · obtain ⟨m, inner, rfl⟩ := Option.map_eq_some_iff.mp found
        exact Nat.succ_le_succ (ih inner)

theorem find_cut {endings : List (List Char)} {x v : List Char}
    (fits : ∀ e, endings.find? (·.isPrefixOf (x ++ v)) = some e → e.length ≤ x.length) :
    endings.find? (·.isPrefixOf x) = endings.find? (·.isPrefixOf (x ++ v)) := by
  induction endings with
  | nil => rfl
  | cons e rest ih =>
    simp only [List.find?_cons] at fits ⊢
    cases here : e.isPrefixOf (x ++ v) with
    | true =>
      simp only [here] at fits
      rw [isPrefixOf_append (fits e rfl)] at here
      simp only [here]
    | false =>
      simp only [here] at fits
      simp only [isPrefixOf_longer here]
      exact ih fits

-- A recogniser behind a fixed mark.
def after (mark : List Char) (f : List Char → Option Nat) (cs : List Char) : Option Nat :=
  if mark.isPrefixOf cs then (f (cs.drop mark.length)).map (· + mark.length) else none

theorem Cuttable.after {mark : List Char} {f : List Char → Option Nat} (cut : Cuttable id f) :
    Cuttable id (after mark f) where
  kept := by
    intro u v n found fits
    unfold Lexeme.after at found ⊢
    split at found
    · rename_i marked
      obtain ⟨m, inner, rfl⟩ := Option.map_eq_some_iff.mp found
      have long : mark.length ≤ u.length := Nat.le_trans (Nat.le_add_left _ m) fits
      rw [isPrefixOf_append long] at marked
      rw [List.drop_append_of_le_length long] at inner
      rw [if_pos marked, cut.kept inner (by simp only [id, List.length_drop] at fits ⊢; omega)]
      rfl
    · cases found
  lost := by
    intro u v failed
    unfold Lexeme.after at failed ⊢
    split
    · rename_i marked
      have long := (List.isPrefixOf_iff_prefix.mp marked).length_le
      rw [if_pos (isPrefixOf_append long ▸ marked), List.drop_append_of_le_length long] at failed
      rw [cut.lost (Option.map_eq_none_iff.mp failed)]
      rfl
    · rfl
  within := by
    intro cs n found
    unfold Lexeme.after at found
    split at found
    · rename_i marked
      obtain ⟨m, inner, rfl⟩ := Option.map_eq_some_iff.mp found
      have long := (List.isPrefixOf_iff_prefix.mp marked).length_le
      have short := cut.within inner
      simp only [id, List.length_drop] at short ⊢
      omega
    · cases found

theorem after_of_ne {mark : List Char} {f : List Char → Option Nat} {cs : List Char}
    (other : ∀ rest, cs = mark ++ rest → False) : after mark f cs = none := by
  unfold after
  split
  · rename_i marked
    obtain ⟨rest, same⟩ := List.isPrefixOf_iff_prefix.mp marked
    exact (other rest same.symm).elim
  · rfl

theorem rawBody_eq : rawBody = fun cs => ((after ['"'] (through ['"']) cs).or
    ((after ['#', '"'] (through ['"', '#']) cs).or
      (after ['#', '#', '"'] (through ['"', '#', '#']) cs))) := by
  funext cs
  unfold rawBody
  split
  · simp [after, List.isPrefixOf]
  · simp [after, List.isPrefixOf]
  · simp [after, List.isPrefixOf]
  · rename_i one two three
    rw [after_of_ne one, after_of_ne two, after_of_ne three]
    rfl

theorem rawString_eq :
    rawString = fun cs => (after ['b', 'r'] rawBody cs).or (after ['r'] rawBody cs) := by
  funext cs
  unfold rawString
  split
  · simp [after, List.isPrefixOf]
  · simp [after, List.isPrefixOf]
  · rename_i one two
    rw [after_of_ne one, after_of_ne two]
    rfl

theorem charLiteral_eq : charLiteral = fun cs =>
    (after ['b', '\x27'] charBody cs).or (after ['\x27'] charBody cs) := by
  funext cs
  unfold charLiteral
  split
  · simp [after, List.isPrefixOf]
  · simp [after, List.isPrefixOf]
  · rename_i one two
    rw [after_of_ne one, after_of_ne two]
    rfl

theorem stringLiteral_eq : stringLiteral = fun cs =>
    (after ['b', '"'] stringBody cs).or (after ['"'] stringBody cs) := by
  funext cs
  unfold stringLiteral
  split
  · simp [after, List.isPrefixOf]
  · simp [after, List.isPrefixOf]
  · rename_i one two
    rw [after_of_ne one, after_of_ne two]
    rfl

-- What is found in a text that grows is found, too, when the text has grown.
theorem lost_of_grown {f : List Char → Option Nat}
    (grown : ∀ {u v : List Char} {n : Nat}, f u = some n → f (u ++ v) ≠ none) {u v : List Char}
    (failed : f (u ++ v) = none) : f u = none := by
  cases found : f u with
  | none => rfl
  | some n => exact absurd failed (grown found)

theorem cuttable_escapeBody : Cuttable id escapeBody where
  kept := by
    intro u v n found fits
    unfold escapeBody at found
    split at found
    · rename_i c rest same
      split at found
      · cases found
      · cases found
        match u, same with
        | a :: b :: u, same => simp_all [escapeBody]
    · rename_i a b rest other same
      split at found
      · cases found
        match u, same with
        | a :: b :: c :: d :: u, same => simp_all [escapeBody]
      · cases found
    · rename_i rest other same
      simp only [Option.ite_none_right_eq_some, Option.some.injEq] at found
      obtain ⟨holds, rfl⟩ := found
      match u, same with
      | a :: b :: u, same =>
        simp only [List.cons_append, List.cons.injEq] at same
        obtain ⟨rfl, rfl, rfl⟩ := same
        simp only [id, List.length_cons] at fits
        have digits : run isHex u = run isHex (u ++ v) := run_of_le (by omega)
        rw [← digits] at holds fits ⊢
        rw [List.drop_append_of_le_length (by omega),
          isPrefixOf_append (by simp only [List.length_cons, List.length_nil, List.length_drop]; omega)]
          at holds
        simp [escapeBody, holds]
    · cases found
  lost := by
    refine lost_of_grown fun {u v n} found => ?_
    unfold escapeBody at found
    split at found
    · rename_i c rest
      split at found
      · cases found
      · simp_all [escapeBody]
    · rename_i a b rest other
      split at found
      · simp_all [escapeBody]
      · cases found
    · rename_i cs rest
      simp only [Option.ite_none_right_eq_some, Option.some.injEq] at found
      obtain ⟨holds, rfl⟩ := found
      simp only [Bool.and_eq_true, decide_eq_true_eq] at holds
      obtain ⟨⟨least, most⟩, closed⟩ := holds
      have length := (List.isPrefixOf_iff_prefix.mp closed).length_le
      have digits : run isHex (rest ++ v) = run isHex rest := run_of_lt (by
        simp only [List.length_cons, List.length_nil, List.length_drop] at length
        omega)
      have grown : ['\x7d', '\x27'].isPrefixOf ((rest ++ v).drop (run isHex rest)) = true := by
        rw [List.drop_append_of_le_length (run_le isHex rest), isPrefixOf_append length]
        exact closed
      simp only [List.cons_append, escapeBody, digits]
      rw [if_pos (by simp only [least, most, grown, decide_true, Bool.and_self])]
      exact Option.some_ne_none _
    · cases found
  within := by
    intro cs n found
    unfold escapeBody at found
    split at found
    · split at found
      · cases found
      · cases found
        exact Nat.le_add_left _ _
    · split at found
      · cases found
        exact Nat.le_add_left _ _
      · cases found
    · rename_i rest other
      simp only [Option.ite_none_right_eq_some, Option.some.injEq, Bool.and_eq_true] at found
      obtain ⟨⟨_, closed⟩, rfl⟩ := found
      have length := (List.isPrefixOf_iff_prefix.mp closed).length_le
      simp only [id, List.length_cons, List.length_nil, List.length_drop] at length ⊢
      omega
    · cases found

theorem cuttable_charBody : Cuttable id charBody where
  kept := by
    intro u v n found fits
    unfold charBody at found
    split at found
    · rename_i rest same
      obtain ⟨m, inner, rfl⟩ := Option.map_eq_some_iff.mp found
      match u, same with
      | a :: u, same =>
        simp only [List.cons_append, List.cons.injEq] at same
        obtain ⟨rfl, rfl⟩ := same
        simp only [charBody, cuttable_escapeBody.kept inner (Nat.le_of_succ_le_succ fits), Option.map_some]
    · rename_i c rest other same
      split at found
      · cases found
      · cases found
        match u, same with
        | a :: b :: u, same => simp_all [charBody]
    · cases found
  lost := by
    refine lost_of_grown fun {u v n} found => ?_
    unfold charBody at found
    split at found
    · rename_i rest
      obtain ⟨m, inner, rfl⟩ := Option.map_eq_some_iff.mp found
      intro failed
      have inside := cuttable_escapeBody.lost (Option.map_eq_none_iff.mp failed)
      rw [inner] at inside
      cases inside
    · rename_i c rest other
      split at found
      · cases found
      · simp_all [charBody]
    · cases found
  within := by
    intro cs n found
    unfold charBody at found
    split at found
    · obtain ⟨m, inner, rfl⟩ := Option.map_eq_some_iff.mp found
      exact Nat.succ_le_succ (cuttable_escapeBody.within inner)
    · split at found
      · cases found
      · cases found
        exact Nat.le_add_left _ _
    · cases found

theorem stringBody_pos {cs : List Char} {n : Nat} (found : stringBody cs = some n) : 0 < n := by
  unfold stringBody at found
  split at found
  · cases found
  · cases found; exact Nat.one_pos
  · cases found
  · obtain ⟨m, _, rfl⟩ := Option.map_eq_some_iff.mp found; exact Nat.succ_pos _
  · obtain ⟨m, _, rfl⟩ := Option.map_eq_some_iff.mp found; exact Nat.succ_pos _

theorem plain_of_not_escape {c : Char} {rest : List Char} (single : c = '\\' → rest = [] → False)
    (pair : ∀ d more, c = '\\' → rest = d :: more → False) : c ≠ '\\' := by
  intro escape
  cases rest with
  | nil => exact single escape rfl
  | cons d more => exact pair d more escape rfl

theorem cuttable_stringBody : Cuttable id stringBody where
  kept := by
    intro u v n found fits
    fun_induction stringBody u generalizing n with
    | case1 => exact absurd (stringBody_pos found) (Nat.not_lt.mpr fits)
    | case2 rest => simpa [stringBody] using found
    | case3 =>
      match v with
      | [] => exact found
      | c :: v =>
        -- the backslash takes the next character with it, which is cut off
        obtain ⟨m, inner, rfl⟩ := Option.map_eq_some_iff.mp found
        simp only [id, List.length_cons, List.length_nil] at fits
        omega
    | case4 c rest ih =>
      obtain ⟨m, inner, rfl⟩ := Option.map_eq_some_iff.mp found
      rw [ih inner (by simp only [id, List.length_cons] at fits ⊢; omega)]
      rfl
    | case5 c rest quote single pair ih =>
      have plain := plain_of_not_escape single pair
      rw [List.cons_append, stringBody] at found
      · obtain ⟨m, inner, rfl⟩ := Option.map_eq_some_iff.mp found
        rw [ih inner (by simp only [id, List.length_cons] at fits ⊢; omega)]
        rfl
      · exact quote
      · exact fun escape _ => plain escape
      · exact fun _ _ escape _ => plain escape
  lost := by
    intro u v failed
    fun_induction stringBody u with
    | case1 => rfl
    | case2 rest => cases failed
    | case3 => rfl
    | case4 c rest ih => rw [ih (Option.map_eq_none_iff.mp failed)]; rfl
    | case5 c rest quote single pair ih =>
      have plain := plain_of_not_escape single pair
      rw [List.cons_append, stringBody] at failed
      · rw [ih (Option.map_eq_none_iff.mp failed)]; rfl
      · exact quote
      · exact fun escape _ => plain escape
      · exact fun _ _ escape _ => plain escape
  within := by
    intro cs n found
    fun_induction stringBody cs generalizing n with
    | case1 => cases found
    | case2 rest =>
      cases found
      exact Nat.le_add_left _ _
    | case3 => cases found
    | case4 c rest ih =>
      obtain ⟨m, inner, rfl⟩ := Option.map_eq_some_iff.mp found
      exact Nat.add_le_add_right (ih inner) 2
    | case5 c rest quote single pair ih =>
      obtain ⟨m, inner, rfl⟩ := Option.map_eq_some_iff.mp found
      exact Nat.succ_le_succ (ih inner)

theorem cuttable_rawBody : Cuttable id rawBody := by
  rw [rawBody_eq]
  exact .or (.after (cuttable_through (by simp)))
    (.or (.after (cuttable_through (by simp))) (.after (cuttable_through (by simp))))

theorem cuttable_rawString : Cuttable id rawString := by
  rw [rawString_eq]
  exact .or (.after cuttable_rawBody) (.after cuttable_rawBody)

theorem cuttable_charLiteral : Cuttable id charLiteral := by
  rw [charLiteral_eq]
  exact .or (.after cuttable_charBody) (.after cuttable_charBody)

theorem cuttable_stringLiteral : Cuttable id stringLiteral := by
  rw [stringLiteral_eq]
  exact .or (.after cuttable_stringBody) (.after cuttable_stringBody)

end Deasync.Lexeme
