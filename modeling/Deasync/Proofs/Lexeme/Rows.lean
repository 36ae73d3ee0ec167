import Deasync.Proofs.Lexeme.Exchange
import Deasync.Proofs.Lexing

namespace Deasync

open Lexeme

-- `y` is `x` with other stretches in the place of some, none of them empty, and nothing in them can
-- close a literal or a comment.
inductive Varied : List Char → List Char → Prop where
  | nil : Varied [] []
  | same {x y : List Char} (c : Char) : Varied x y → Varied (c :: x) (c :: y)
  | other {x y a b : List Char} : b ≠ [] → (∀ c ∈ b, c ∉ ['"', '#', '*', '/']) → Varied x y →
      Varied (a ++ x) (b ++ y)

namespace Varied

variable {x y a b : List Char}

theorem refl (x : List Char) : Varied x x := by
  induction x with
  | nil => exact .nil
  | cons c x ih => exact .same c ih

theorem append (first : Varied a b) (second : Varied x y) : Varied (a ++ x) (b ++ y) := by
  induction first with
  | nil => exact second
  | same c _ ih => exact .same c ih
  | other filled plain _ ih =>
    rw [List.append_assoc, List.append_assoc]
    exact .other filled plain ih

-- A stretch of characters that do not occur in what is new was there before.
theorem prefix_of (varied : Varied x y) {front : List Char} (marks : ∀ c ∈ front, c ∈ ['"', '#', '*', '/'])
    (here : front <+: y) : front <+: x := by
  induction varied generalizing front with
  | nil => exact here
  | same c _ ih =>
    cases front with
    | nil => exact List.nil_prefix
    | cons d front =>
      obtain ⟨rfl, rest⟩ := List.cons_prefix_cons.mp here
      exact List.cons_prefix_cons.mpr ⟨rfl, ih (fun d listed => marks d (.tail _ listed)) rest⟩
  | @other _ _ _ b filled plain _ _ =>
    cases front with
    | nil => exact List.nil_prefix
    | cons d front =>
      obtain ⟨c, b, rfl⟩ := List.exists_cons_of_ne_nil filled
      obtain ⟨rfl, _⟩ := List.cons_prefix_cons.mp here
      exact absurd (marks d (.head _)) (plain d (.head _))

theorem shy (varied : Varied x y) : Shy x y := by
  induction varied with
  | nil => intro stop _ unclosed; exact unclosed
  | @same x y c varied ih =>
    intro stop listed unclosed
    rw [through] at unclosed
    split at unclosed
    · cases unclosed
    · rename_i absent
      rw [through, ih stop listed (Option.map_eq_none_iff.mp unclosed), if_neg]
      · rfl
      · intro here
        rw [List.isPrefixOf_iff_prefix] at here absent
        have marks : ∀ stop ∈ closers, ∀ c ∈ stop, c ∈ ['"', '#', '*', '/'] := by simp [closers]
        exact absent (prefix_of (.same c varied) (marks stop listed) here)
  | other filled plain _ ih =>
    intro stop listed unclosed
    have quiet (c : Char) (listed : c ∉ ['"', '#', '*', '/']) : c ∉ ['"', '*'] := by
      simp only [List.mem_cons, List.not_mem_nil, or_false, not_or] at listed ⊢
      exact ⟨listed.1, listed.2.2.1⟩
    exact through_plain listed (fun c inside => quiet c (plain c inside))
      (ih stop listed (through_suffix _ unclosed))

theorem covert (varied : Varied x y) : Covert x y :=
  fun front => ((refl front).append varied).shy

end Varied

-- What `new` begins with may stand where `old` begins.
def Follows (old new : List Char) : Prop := ∀ q ∈ new.head?, ∃ p ∈ old.head?, q = p ∨ Alike p q

-- A piece that another one can take the place of.
structure Exchangeable (a b : Piece) : Prop where
  varied : Varied a.2 b.2
  heads : ∃ p u q v, a.2 = p :: u ∧ b.2 = q :: v ∧ Alike p q
  kept : ∀ {old new : List Char}, Follows old new → lexeme (a.2 ++ old) = some (a.1, a.2.length) →
    lexeme (b.2 ++ new) = some (b.1, b.2.length)

-- The row `y` is the row `x` with some pieces exchanged as `R` allows; numbers are known to stay.
inductive Exchanged (R : Piece → Piece → Prop) : List Piece → List Piece → Prop where
  | nil : Exchanged R [] []
  | same {a : Piece} {x y : List Piece} :
      (a.1 = .token .number → lexeme (a.2 ++ joined y) = some (a.1, a.2.length)) → Exchanged R x y →
      Exchanged R (a :: x) (a :: y)
  | change {a b : Piece} {x y : List Piece} : R a b → Exchanged R x y → Exchanged R (a :: x) (b :: y)

namespace Exchanged

variable {R : Piece → Piece → Prop} {x y : List Piece}

theorem varied (sound : ∀ a b, R a b → Exchangeable a b) (exchanged : Exchanged R x y) :
    Varied (joined x) (joined y) := by
  induction exchanged with
  | nil => exact .nil
  | same _ _ ih => exact (Varied.refl _).append ih
  | change related _ ih => exact (sound _ _ related).varied.append ih

theorem follows (sound : ∀ a b, R a b → Exchangeable a b) (exchanged : Exchanged R x y)
    (lexed : Lexed [] x) : Follows (joined x) (joined y) := by
  intro q first
  cases exchanged with
  | nil => cases first
  | same _ _ =>
    cases lexed with
    | cons filled _ _ =>
      obtain ⟨c, rest, rfl⟩ := List.exists_cons_of_ne_nil filled
      cases first
      exact ⟨q, rfl, .inl rfl⟩
  | @change a b _ _ related _ =>
    obtain ⟨p, u, d, v, old, new, alike⟩ := (sound a b related).heads
    rw [joined_cons, new] at first
    cases first
    exact ⟨p, by rw [joined_cons, old]; rfl, .inr alike⟩

-- The first piece that is exchanged, if one is.
theorem first (exchanged : Exchanged R x y) :
    x = y ∨ ∃ front a b later rest, x = front ++ a :: later ∧ y = front ++ b :: rest ∧ R a b ∧
      Exchanged R later rest := by
  induction exchanged with
  | nil => exact .inl rfl
  | @same a _ _ _ _ ih =>
    rcases ih with rfl | ⟨front, b, c, later, rest, rfl, rfl, related, others⟩
    · exact .inl rfl
    · exact .inr ⟨a :: front, b, c, later, rest, rfl, rfl, related, others⟩
  | change related others => exact .inr ⟨[], _, _, _, _, rfl, rfl, related, others⟩

end Exchanged

-- Behind a piece the next one begins.
theorem Lexed.next {after : List Char} {front : List Piece} (lexed : Lexed after front) (read : List Char)
    (longer : read.length < (read ++ joined front).length) :
    lexeme ((read ++ joined front).drop read.length) ≠ none := by
  have alone : Lexed [] front := Lexed.cut lexed
  rw [List.drop_left]
  cases alone with
  | nil => simp at longer
  | cons _ next _ =>
    rw [List.append_nil] at next
    rw [joined_cons, next]
    exact Option.some_ne_none _

theorem Exchanged.lexed {R : Piece → Piece → Prop} {x y : List Piece}
    (sound : ∀ a b, R a b → Exchangeable a b) (exchanged : Exchanged R x y) (lexed : Lexed [] x) :
    Lexed [] y := by
  induction exchanged with
  | nil => exact .nil
  | @same a x y number others ih =>
    obtain ⟨found, read⟩ := a
    cases lexed with
    | cons filled here rest =>
      refine .cons filled ?_ (ih rest)
      rw [List.append_nil] at here ⊢
      by_cases own : found = .token .number
      · exact number own
      rcases others.first with rfl | ⟨front, a, b, later, more, rfl, rfl, related, behind⟩
      · exact here
      obtain ⟨p, u, q, v, old, new, alike⟩ := (sound a b related).heads
      have covert : Covert (p :: (u ++ joined later)) (q :: (v ++ joined more)) := by
        have varied := (Exchanged.change related behind).varied sound
        rw [joined_cons, joined_cons, old, new] at varied
        exact varied.covert
      have inside := (lexed_append.mp rest).1
      rw [joined_append, joined_cons, old, ← List.append_assoc] at here
      rw [joined_append, joined_cons, new, ← List.append_assoc]
      refine lexeme_alike alike covert (by simp [filled]) here (by simp) (inside.next read) own
  | @change a b x y related others ih =>
    obtain ⟨found, read⟩ := a
    obtain ⟨found', read'⟩ := b
    cases lexed with
    | cons filled here rest =>
      have change := sound _ _ related
      obtain ⟨p, u, q, v, old, new, alike⟩ := change.heads
      rw [List.append_nil] at here
      refine .cons ?_ ?_ (ih rest)
      · dsimp only at new
        exact new ▸ List.cons_ne_nil _ _
      · rw [List.append_nil]
        exact change.kept (others.follows sound rest) here

end Deasync
