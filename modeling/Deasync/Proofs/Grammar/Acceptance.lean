import Deasync.Proofs.Grammar.Modifiers

namespace Deasync

open Grammar

variable {text : String}

theorem lex_eq_ok_iff_scan {tokens : List Token} :
    lex text = .ok tokens ↔ scan text = ⟨tokens, none⟩ := by
  rw [lex]
  split
  · rename_i found
    simp [found]
  · rename_i found
    simp [found]

theorem mapError_eq_ok_iff {α ε δ : Type} {result : Except ε α} {f : ε → δ} {a : α} :
    result.mapError f = .ok a ↔ result = .ok a := by
  cases result <;> simp [Except.mapError]

theorem bind_eq_ok_iff {α β : Type} {result : Except Fault α} {next : α → Except Fault β} {b : β} :
    result >>= next = .ok b ↔ ∃ a, result = .ok a ∧ next a = .ok b := by
  cases result <;> simp [bind, Except.bind]

theorem Ty.read_eq_ok_iff {ty : Ty} : Ty.read text = .ok ty ↔
    ∃ tokens, lex text = .ok tokens ∧ declarations.read .type text tokens = .ok ty := by
  rw [Ty.read]
  split
  · rename_i tokens found
    refine mapError_eq_ok_iff.trans ⟨?_, ?_⟩
    · intro read
      exact ⟨tokens, lex_eq_ok_iff_scan.mpr found, read⟩
    · rintro ⟨others, lexed, read⟩
      cases found.symm.trans (lex_eq_ok_iff_scan.mp lexed)
      exact read
  · rename_i found
    constructor
    · intro read
      split at read <;> cases read
    · rintro ⟨others, lexed, _⟩
      cases found.symm.trans (lex_eq_ok_iff_scan.mp lexed)

theorem Declaration.read_eq_ok_iff {d : Declaration} : Declaration.read text = .ok d ↔
    ∃ tokens, lex text = .ok tokens ∧ checkTarget text tokens = .ok () ∧
      declarations.read .declaration text tokens = .ok d ∧ d.strayModifier? = none := by
  rw [Declaration.read, bind_eq_ok_iff]
  refine exists_congr fun tokens => and_congr_right fun _ => ?_
  rw [bind_eq_ok_iff]
  constructor
  · rintro ⟨_, checked, rest⟩
    obtain ⟨e, read, last⟩ := bind_eq_ok_iff.mp rest
    refine ⟨checked, ?_⟩
    split at last
    · cases last
    · rename_i stray
      cases last
      exact ⟨mapError_eq_ok_iff.mp read, stray⟩
  · rintro ⟨checked, read, stray⟩
    refine ⟨(), checked, bind_eq_ok_iff.mpr ⟨d, mapError_eq_ok_iff.mpr read, ?_⟩⟩
    rw [stray]

theorem Declaration.strayModifier_eq_none {d : Declaration} : d.strayModifier? = none ↔
    ∀ m ∈ d.methods, ∀ modifier ∈ m.signature.qualifiers.modifier, modifier.word = "default" := by
  simp only [strayModifier?, List.find?_eq_none, List.mem_filterMap, Option.mem_def]
  constructor
  · intro none m listed modifier named
    simpa using none modifier ⟨m, listed, named⟩
  · rintro all modifier ⟨m, listed, named⟩
    simpa using all m listed modifier named

-- The head check is passed by all that the grammar derives.
theorem checkTarget_of_spells {tokens : List Token}
    (spelled : declarations.Spells .declaration (kindsOf tokens)) : checkTarget text tokens = .ok () :=
  checkTarget_of_heading (heading_of_spells spelled) text

theorem reads_exactly_grammar (text : String) :
    ((∃ ty, Ty.read text = .ok ty) ↔
      ∃ tokens, lex text = .ok tokens ∧ ∃ ty, declarations.Derives text .type tokens ty) ∧
    ((∃ d, Declaration.read text = .ok d) ↔
      ∃ tokens, lex text = .ok tokens ∧ (∃ d, declarations.Derives text .declaration tokens d) ∧
        ∀ d : Declaration, declarations.Derives text .declaration tokens d → ∀ m ∈ d.methods,
          ∀ modifier ∈ m.signature.qualifiers.modifier, modifier.word = "default") ∧
    ∀ tokens d, declarations.Derives text .declaration tokens d → checkTarget text tokens = .ok () := by
  refine ⟨⟨?_, ?_⟩, ⟨?_, ?_⟩, ?_⟩
  · rintro ⟨ty, read⟩
    obtain ⟨tokens, lexed, found⟩ := Ty.read_eq_ok_iff.mp read
    exact ⟨tokens, lexed, ty, ((read_eq_ok_iff declarations_ranked).mp found).derives⟩
  · rintro ⟨tokens, lexed, derivable⟩
    obtain ⟨ty, found⟩ := (exists_read_iff declarations_ranked).mpr (spells_iff.mpr derivable)
    exact ⟨ty, Ty.read_eq_ok_iff.mpr ⟨tokens, lexed, found⟩⟩
  · rintro ⟨d, read⟩
    obtain ⟨tokens, lexed, _, found, settled⟩ := Declaration.read_eq_ok_iff.mp read
    have derived := ((read_eq_ok_iff declarations_ranked).mp found).derives
    refine ⟨tokens, lexed, ⟨d, derived⟩, fun e other => ?_⟩
    rw [← Declaration.strayModifier_eq_none, strayModifier_unique other derived]
    exact settled
  · rintro ⟨tokens, lexed, derivable, only⟩
    have spelled := spells_iff.mpr derivable
    obtain ⟨d, found⟩ : ∃ d, declarations.read .declaration text tokens = .ok d :=
      (exists_read_iff declarations_ranked).mpr spelled
    have derived := ((read_eq_ok_iff declarations_ranked).mp found).derives
    exact ⟨d, Declaration.read_eq_ok_iff.mpr ⟨tokens, lexed, checkTarget_of_spells spelled, found,
      Declaration.strayModifier_eq_none.mpr (only d derived)⟩⟩
  · intro tokens d derived
    exact checkTarget_of_spells derived.spells

end Deasync
