import Deasync.Proofs.Lexeme.Literal

namespace Deasync.Lexeme

-- `absent p` matches no character at all, and only where `p` does not match.
inductive Pattern where
  | text (s : String)
  | one (p : Char → Bool)
  | seq (first second : Pattern)
  | either (first second : Pattern)
  | many (p : Pattern)
  | absent (p : Pattern)

-- What is matched again and again, each time behind the last.
inductive Repeated (R : List Char → Nat → Prop) : List Char → Nat → Prop where
  | none {cs : List Char} : Repeated R cs 0
  | more {cs : List Char} {m n : Nat} : R cs m → Repeated R (cs.drop m) n → Repeated R cs (m + n)

namespace Pattern

def row (parts : List Pattern) : Pattern := parts.foldr seq (text "")

def anyOf (choices : List Pattern) : Pattern := choices.foldr either (one fun _ => false)

def optional (p : Pattern) : Pattern := either p (text "")

def many1 (p : Pattern) : Pattern := seq p (many p)

def upTo : Nat → Pattern → Pattern
  | 0, _ => text ""
  | most + 1, p => optional (seq p (upTo most p))

def oneOf (chars : String) : Pattern := one (chars.toList.contains ·)

def noneOf (chars : String) : Pattern := one (!chars.toList.contains ·)

def anything : Pattern := one fun _ => true

-- A match of the first `n` characters.
def Takes : Pattern → List Char → Nat → Prop
  | text s, cs, n => s.toList <+: cs ∧ n = s.toList.length
  | one p, cs, n => (∃ c rest, cs = c :: rest ∧ p c) ∧ n = 1
  | seq first second, cs, n => ∃ m k, first.Takes cs m ∧ second.Takes (cs.drop m) k ∧ n = m + k
  | either first second, cs, n => first.Takes cs n ∨ second.Takes cs n
  | many p, cs, n => Repeated p.Takes cs n
  | absent p, cs, n => (∀ m, ¬p.Takes cs m) ∧ n = 0

def Longest (p : Pattern) (cs : List Char) (n : Nat) : Prop :=
  p.Takes cs n ∧ ∀ m, p.Takes cs m → m ≤ n

def Shortest (p : Pattern) (cs : List Char) (n : Nat) : Prop :=
  p.Takes cs n ∧ ∀ m, p.Takes cs m → n ≤ m

variable {p q : Pattern} {ps : List Pattern} {f : Char → Bool} {cs : List Char} {m n : Nat}

theorem takes_row_nil : (row []).Takes cs n ↔ n = 0 :=
  ⟨fun taken => taken.2, fun none => ⟨List.nil_prefix, none⟩⟩

theorem takes_row_cons : (row (p :: ps)).Takes cs n ↔
    ∃ m k, p.Takes cs m ∧ (row ps).Takes (cs.drop m) k ∧ n = m + k := Iff.rfl

theorem takes_row_singleton : (row [p]).Takes cs n ↔ p.Takes cs n := by
  simp [takes_row_cons, takes_row_nil]

theorem takes_text_cons {s : String} : (row (text s :: ps)).Takes cs n ↔
    ∃ rest k, cs = s.toList ++ rest ∧ (row ps).Takes rest k ∧ n = s.toList.length + k := by
  rw [takes_row_cons]
  constructor
  · rintro ⟨_, k, ⟨⟨rest, rfl⟩, rfl⟩, later, same⟩
    rw [List.drop_left] at later
    exact ⟨rest, k, rfl, later, same⟩
  · rintro ⟨rest, k, rfl, later, same⟩
    exact ⟨_, k, ⟨List.prefix_append _ _, rfl⟩, by rwa [List.drop_left], same⟩

theorem takes_one_cons : (row (one f :: ps)).Takes cs n ↔
    ∃ c rest k, cs = c :: rest ∧ f c ∧ (row ps).Takes rest k ∧ n = k + 1 := by
  rw [takes_row_cons]
  constructor
  · rintro ⟨_, k, ⟨⟨c, rest, rfl, holds⟩, rfl⟩, later, same⟩
    exact ⟨c, rest, k, rfl, holds, later, same.trans (Nat.add_comm 1 k)⟩
  · rintro ⟨c, rest, k, rfl, holds, later, same⟩
    exact ⟨1, k, ⟨⟨c, rest, rfl, holds⟩, rfl⟩, later, same.trans (Nat.add_comm k 1)⟩

theorem takes_absent_cons : (row (absent p :: ps)).Takes cs n ↔
    (∀ m, ¬p.Takes cs m) ∧ (row ps).Takes cs n := by
  rw [takes_row_cons]
  constructor
  · rintro ⟨_, k, ⟨fails, rfl⟩, later, rfl⟩
    rw [Nat.zero_add]
    exact ⟨fails, later⟩
  · rintro ⟨fails, later⟩
    exact ⟨0, n, ⟨fails, rfl⟩, later, (Nat.zero_add n).symm⟩

theorem takes_optional_cons : (row (optional p :: ps)).Takes cs n ↔
    (row (p :: ps)).Takes cs n ∨ (row ps).Takes cs n := by
  simp only [takes_row_cons, optional, Takes]
  constructor
  · rintro ⟨m, k, here | ⟨_, rfl⟩, later, rfl⟩
    · exact .inl ⟨m, k, here, later, rfl⟩
    · exact .inr (by simpa using later)
  · rintro (⟨m, k, here, later, rfl⟩ | later)
    · exact ⟨m, k, .inl here, later, rfl⟩
    · exact ⟨0, n, .inr ⟨List.nil_prefix, rfl⟩, later, (Nat.zero_add n).symm⟩

theorem takes_optional_none : (optional p).Takes cs 0 := .inr ⟨List.nil_prefix, rfl⟩

theorem takes_anyOf : (anyOf ps).Takes cs n ↔ ∃ p ∈ ps, p.Takes cs n := by
  induction ps with
  | nil => simp [anyOf, Takes]
  | cons p ps ih =>
    simp only [List.mem_cons, exists_eq_or_imp, ← ih]
    exact Iff.rfl

-- One more in front.
theorem takes_many_cons (first : p.Takes cs m) (later : (row (many p :: ps)).Takes (cs.drop m) n) :
    (row (many p :: ps)).Takes cs (m + n) := by
  obtain ⟨j, k, rest, behind, rfl⟩ := later
  refine ⟨m + j, k, .more first rest, ?_, (Nat.add_assoc _ _ _).symm⟩
  rwa [← List.drop_drop]

theorem takes_many_nil (later : (row ps).Takes cs n) : (row (many p :: ps)).Takes cs n :=
  ⟨0, n, .none, later, (Nat.zero_add n).symm⟩

theorem takes_many_one : (many (one f)).Takes cs n ↔ n ≤ run f cs := by
  constructor
  · intro taken
    change Repeated _ _ _ at taken
    induction taken with
    | none => exact Nat.zero_le _
    | more first _ ih =>
      obtain ⟨⟨c, rest, rfl, holds⟩, rfl⟩ := first
      rw [run_cons_of_pos holds, Nat.add_comm]
      exact Nat.succ_le_succ ih
  · intro within
    induction n generalizing cs with
    | zero => exact .none
    | succ n ih =>
      obtain ⟨c, rest, rfl, holds, within⟩ := run_succ within
      rw [Nat.add_comm]
      exact .more ⟨⟨c, rest, rfl, holds⟩, rfl⟩ (ih within)

theorem takes_many1_one : (many1 (one f)).Takes cs n ↔ n ≠ 0 ∧ n ≤ run f cs := by
  constructor
  · rintro ⟨_, k, ⟨⟨c, rest, rfl, holds⟩, rfl⟩, later, rfl⟩
    rw [run_cons_of_pos holds, Nat.add_comm 1 k]
    exact ⟨Nat.succ_ne_zero k, Nat.succ_le_succ (takes_many_one.mp later)⟩
  · rintro ⟨filled, within⟩
    obtain ⟨k, rfl⟩ := Nat.exists_eq_succ_of_ne_zero filled
    obtain ⟨c, rest, rfl, holds, within⟩ := run_succ within
    exact ⟨1, k, ⟨⟨c, rest, rfl, holds⟩, rfl⟩, takes_many_one.mpr within, Nat.add_comm k 1⟩

theorem takes_many_anything : (many anything).Takes cs n ↔ n ≤ cs.length := by
  rw [anything, takes_many_one, run_all]

theorem takes_upTo_one : (upTo m (one f)).Takes cs n ↔ n ≤ m ∧ n ≤ run f cs := by
  induction m generalizing cs n with
  | zero =>
    constructor
    · rintro ⟨_, rfl⟩
      exact ⟨Nat.le_refl _, Nat.zero_le _⟩
    · rintro ⟨none, _⟩
      exact ⟨List.nil_prefix, Nat.le_zero.mp none⟩
  | succ m ih =>
    constructor
    · rintro (⟨_, k, ⟨⟨c, rest, rfl, holds⟩, rfl⟩, later, rfl⟩ | ⟨_, rfl⟩)
      · obtain ⟨most, within⟩ := ih.mp later
        rw [run_cons_of_pos holds, Nat.add_comm 1 k]
        exact ⟨Nat.succ_le_succ most, Nat.succ_le_succ within⟩
      · exact ⟨Nat.zero_le _, Nat.zero_le _⟩
    · rintro ⟨most, within⟩
      cases n with
      | zero => exact .inr ⟨List.nil_prefix, rfl⟩
      | succ n =>
        obtain ⟨c, rest, rfl, holds, within⟩ := run_succ within
        exact .inl ⟨1, n, ⟨⟨c, rest, rfl, holds⟩, rfl⟩,
          ih.mpr ⟨Nat.le_of_succ_le_succ most, within⟩, Nat.add_comm n 1⟩

def nullable : Pattern → Bool
  | text s => s.isEmpty
  | one _ => false
  | seq first second => first.nullable && second.nullable
  | either first second => first.nullable || second.nullable
  | many _ => true
  | absent _ => true

-- The characters that a match begins with.
def leads : Pattern → Char → Bool
  | text s, c => s.toList.head? == some c
  | one p, c => p c
  | seq first second, c => first.leads c || first.nullable && second.leads c
  | either first second, c => first.leads c || second.leads c
  | many p, c => p.leads c
  | absent _, _ => false

theorem Takes.leads (taken : p.Takes cs n) :
    n = 0 ∧ p.nullable ∨ n ≠ 0 ∧ ∃ c ∈ cs.head?, p.leads c := by
  induction p generalizing cs n with
  | text s =>
    obtain ⟨⟨rest, rfl⟩, rfl⟩ := taken
    cases chars : s.toList with
    | nil => exact .inl ⟨rfl, by simpa [nullable] using chars⟩
    | cons c more => exact .inr ⟨Nat.succ_ne_zero _, c, rfl, by simp [Pattern.leads, chars]⟩
  | one f =>
    obtain ⟨⟨c, rest, rfl, holds⟩, rfl⟩ := taken
    exact .inr ⟨Nat.one_ne_zero, c, rfl, holds⟩
  | seq first second ih₁ ih₂ =>
    obtain ⟨m, k, here, later, rfl⟩ := taken
    rcases ih₁ here with ⟨rfl, void⟩ | ⟨filled, c, head, begins⟩
    · rcases ih₂ later with ⟨rfl, also⟩ | ⟨filled, c, head, begins⟩
      · exact .inl ⟨rfl, by rw [nullable, void, also]; rfl⟩
      · exact .inr ⟨by omega, c, head, by simp [Pattern.leads, void, begins]⟩
    · exact .inr ⟨by omega, c, head, by simp [Pattern.leads, begins]⟩
  | either first second ih₁ ih₂ =>
    rcases taken with here | here
    · rcases ih₁ here with ⟨rfl, void⟩ | ⟨filled, c, head, begins⟩
      · exact .inl ⟨rfl, by rw [nullable, void]; rfl⟩
      · exact .inr ⟨filled, c, head, by simp [Pattern.leads, begins]⟩
    · rcases ih₂ here with ⟨rfl, void⟩ | ⟨filled, c, head, begins⟩
      · exact .inl ⟨rfl, by rw [nullable, void, Bool.or_true]⟩
      · exact .inr ⟨filled, c, head, by simp [Pattern.leads, begins]⟩
  | many p ih =>
    change Repeated _ _ _ at taken
    induction taken with
    | none => exact .inl ⟨rfl, rfl⟩
    | more here _ again =>
      rcases ih here with ⟨rfl, _⟩ | ⟨filled, begins⟩
      · rw [Nat.zero_add]
        exact again
      · exact .inr ⟨by omega, begins⟩
  | absent p => exact .inl ⟨taken.2, rfl⟩

-- A pattern that does not match without characters.
theorem Takes.first (taken : p.Takes cs n) (filled : p.nullable = false) :
    n ≠ 0 ∧ ∃ c rest, cs = c :: rest ∧ p.leads c := by
  rcases taken.leads with ⟨_, void⟩ | ⟨some, c, first, begins⟩
  · rw [filled] at void
    cases void
  · obtain ⟨rest, rfl⟩ := List.head?_eq_some_iff.mp first
    exact ⟨some, c, rest, rfl, begins⟩

end Pattern

end Deasync.Lexeme
