import Deasync.Proofs.Tiling

namespace Deasync

namespace Position

def Before (p q : Position) : Prop := p.line < q.line ∨ p.line = q.line ∧ p.column < q.column

-- A position of a part of a text in the text itself, when the part begins at `base`. Only the first line of the
-- part shares its line with what stands in front.
def beyond (base p : Position) : Position :=
  ⟨base.line + (p.line - 1), if p.line = 1 then base.column + (p.column - 1) else p.column⟩

theorem Before.trans {p q r : Position} (first : p.Before q) (second : q.Before r) : p.Before r := by
  unfold Before at *
  omega

theorem Before.irrefl (p : Position) : ¬p.Before p := by
  unfold Before
  omega

theorem before_after (p : Position) (c : Char) : p.Before (p.after c) := by
  unfold after
  split
  · exact .inl (Nat.lt_succ_self _)
  · exact .inr ⟨rfl, Nat.lt_succ_self _⟩

theorem before_foldl (p : Position) {read : List Char} (filled : read ≠ []) :
    p.Before (read.foldl after p) := by
  induction read generalizing p with
  | nil => exact absurd rfl filled
  | cons c rest ih =>
    rw [List.foldl_cons]
    cases rest with
    | nil => exact before_after p c
    | cons d rest => exact (before_after p c).trans (ih _ (List.cons_ne_nil _ _))

theorem behind_pos (before : List Char) : 0 < (behind before).line ∧ 0 < (behind before).column :=
  ⟨Nat.succ_pos _, Nat.succ_pos _⟩

theorem beyond_after {base p : Position} (line : 0 < p.line) (column : 0 < p.column) (c : Char) :
    (base.beyond p).after c = base.beyond (p.after c) := by
  unfold after beyond
  split
  · simp only [mk.injEq, Nat.add_sub_cancel]
    rw [if_neg (by omega)]
    omega
  · split
    · simp only [mk.injEq, true_and]
      omega
    · rfl

-- Counting over two stretches is counting over the second from where the first ends.
theorem behind_append (before read : List Char) :
    behind (before ++ read) = (behind before).beyond (behind read) := by
  induction read using List.reverseRecOn with
  | nil => simp [behind, beyond]
  | append_singleton read c ih =>
    obtain ⟨line, column⟩ := behind_pos read
    rw [← List.append_assoc, behind_concat, behind_concat, ih, beyond_after line column]

variable {source : String} {a b : Nat}

theorem locate_natCast (source : String) (a : Nat) :
    locate source a = behind (source.toList.take a) := by
  rw [locate, Int.toNat_natCast]

theorem locate_before (less : a < b) (within : b ≤ source.length) :
    (locate source a).Before (locate source b) := by
  obtain ⟨n, rfl⟩ := Nat.exists_eq_add_of_lt less
  rw [← String.length_toList] at within
  have filled : (source.toList.drop a).take (n + 1) ≠ [] := by
    rw [ne_eq, List.take_eq_nil_iff, List.drop_eq_nil_iff]
    omega
  rw [locate_natCast, locate_natCast, Nat.add_assoc, List.take_add, ← foldl_after]
  exact before_foldl _ filled

theorem locate_inj (first : a ≤ source.length) (second : b ≤ source.length)
    (same : locate source a = locate source b) : a = b := by
  rcases Nat.lt_trichotomy a b with less | equal | more
  · exact absurd (same ▸ locate_before less second) (Before.irrefl _)
  · exact equal
  · exact absurd (same ▸ locate_before more first) (Before.irrefl _)

theorem locate_before_iff (first : a ≤ source.length) (second : b ≤ source.length) :
    (locate source a).Before (locate source b) ↔ a < b := by
  constructor
  · intro before
    rcases Nat.lt_trichotomy a b with less | rfl | more
    · exact less
    · exact absurd before (Before.irrefl _)
    · exact absurd (before.trans (locate_before more first)) (Before.irrefl _)
  · intro less
    exact locate_before less second

-- Where the line of an offset begins: at the start of the text or behind a line feed.
def LineStart (source : String) (start : Nat) : Prop :=
  start = 0 ∨ ∃ front, start = front + 1 ∧ source.toList[front]? = some '\n'

theorem behind_column (before : List Char) : ∃ front line, before = front ++ line ∧ '\n' ∉ line ∧
    (front = [] ∨ front.getLast? = some '\n') ∧ (behind before).column = line.length + 1 := by
  induction before using List.reverseRecOn with
  | nil => exact ⟨[], [], rfl, by simp, .inl rfl, rfl⟩
  | append_singleton before c ih =>
    obtain ⟨front, line, rfl, plain, start, column⟩ := ih
    rw [behind_concat, after]
    split
    · rename_i feed
      exact ⟨front ++ line ++ [c], [], by simp, by simp, .inr (by simp [feed]), rfl⟩
    · rename_i other
      exact ⟨front, line ++ [c], by simp, by simp [plain, Ne.symm other], start, by simp [column]⟩

theorem locate_line (source : String) (a : Nat) :
    (locate source a).line = (source.toList.take a).count '\n' + 1 := by
  rw [locate_natCast, behind]

theorem locate_column (within : a ≤ source.length) : ∃ start ≤ a, LineStart source start ∧
    '\n' ∉ source.toList.extract start a ∧ (locate source a).column = a - start + 1 := by
  obtain ⟨front, line, split, plain, begins, column⟩ := behind_column (source.toList.take a)
  have length := congrArg List.length split
  rw [List.length_take, String.length_toList, Nat.min_eq_left within, List.length_append] at length
  have own : source.toList.extract front.length a = line := by
    rw [List.extract_eq_take_drop, ← List.drop_take, split, List.drop_left]
  refine ⟨front.length, by omega, ?_, own ▸ plain, ?_⟩
  · rcases begins with rfl | feed
    · exact .inl rfl
    · obtain ⟨earlier, rfl⟩ := List.getLast?_eq_some_iff.mp feed
      refine .inr ⟨earlier.length, by simp, ?_⟩
      have inside : earlier.length < a := by
        rw [List.length_append, List.length_singleton] at length
        omega
      rw [← List.getElem?_take_of_lt inside, split]
      simp
  · rw [locate_natCast, column]
    omega

end Position

namespace Span

theorem preferred_preferred (given own : Option String) :
    preferred given (preferred given own) = preferred given own := by
  unfold preferred
  cases given with
  | none => rfl
  | some name => dsimp only; split <;> rfl

theorem rebase_twice {s : Span} (known : s.isKnown) (inner outer : String) (a b : Int)
    (near far file : Option String) :
    (s.rebase inner a near).rebase outer b far = s.rebase outer (a + b) file ↔
      preferred far (preferred near s.file) = preferred file s.file := by
  cases s with
  | unknown => cases known
  | known own start stop first last =>
    have offset (x : Int) : b + (a + x) = a + b + x := by omega
    simp only [rebase, between, offset, Span.known.injEq, Span.file, and_true]

end Span

theorem locate_sliceFrom (source : String) (offset a : Nat) :
    Position.locate source (offset + a : Nat) =
      (Position.locate source offset).beyond (.locate (Text.sliceFrom source offset) a) := by
  rw [Position.locate_natCast, Position.locate_natCast, Position.locate_natCast, List.take_add,
    Position.behind_append, Text.toList_sliceFrom]

theorem Span.rebase_between (source : String) (offset a b : Nat) (own file : Option String) :
    (between (Text.sliceFrom source offset) a b own).rebase source offset file =
      .known (preferred file own) (offset + a : Nat) (offset + b : Nat)
        ((Position.locate source offset).beyond (.locate (Text.sliceFrom source offset) a))
        ((Position.locate source offset).beyond (.locate (Text.sliceFrom source offset) b)) := by
  rw [← locate_sliceFrom, ← locate_sliceFrom]
  rfl

-- Positions stand in the order of their offsets and say how many lines begin in front of an offset and how far its
-- own line goes back. Moving a span twice is moving it once by both offsets, and a span of the rest of a text keeps
-- its columns when it is moved to the text, except on the first line.
theorem positions_determine_offsets (source : String) :
    (∀ a b : Nat, a ≤ source.length → b ≤ source.length →
      ((Position.locate source a).Before (.locate source b) ↔ a < b) ∧
        (Position.locate source a = .locate source b → a = b)) ∧
      (∀ a : Nat, a ≤ source.length →
        (Position.locate source a).line = (source.toList.take a).count '\n' + 1 ∧
          ∃ start ≤ a, Position.LineStart source start ∧
            '\n' ∉ source.toList.extract start a ∧
              (Position.locate source a).column = a - start + 1) ∧
      (∀ s : Span, s.isKnown → ∀ (inner outer : String) (a b : Int),
        (∀ near far file : Option String,
          (s.rebase inner a near).rebase outer b far = s.rebase outer (a + b) file ↔
            Span.preferred far (Span.preferred near s.file) = Span.preferred file s.file) ∧
          ∀ file : Option String,
            (s.rebase inner a file).rebase outer b file = s.rebase outer (a + b) file) ∧
      ∀ (offset a b : Nat) (own file : Option String),
        (Span.between (Text.sliceFrom source offset) a b own).rebase source offset file =
          .known (Span.preferred file own) (offset + a : Nat) (offset + b : Nat)
            ((Position.locate source offset).beyond (.locate (Text.sliceFrom source offset) a))
            ((Position.locate source offset).beyond (.locate (Text.sliceFrom source offset) b)) := by
  refine ⟨fun a b first second => ⟨Position.locate_before_iff first second,
    Position.locate_inj first second⟩, fun a within => ⟨Position.locate_line source a,
      Position.locate_column within⟩, fun s known inner outer a b => ⟨?_, ?_⟩, ?_⟩
  · intro near far file
    exact Span.rebase_twice known inner outer a b near far file
  · intro file
    exact (Span.rebase_twice known inner outer a b file file file).mpr
      (Span.preferred_preferred file s.file)
  · intro offset a b own file
    exact Span.rebase_between source offset a b own file

end Deasync
