import Deasync.Text.Slice

namespace Deasync.Text

-- `after` is `before`, which begins at `position`, with every patch in the place of what it replaces.
inductive Spliced : Nat → List Char → List Patch → List Char → Prop where
  | done {position : Nat} {rest : List Char} : Spliced position rest [] rest
  | patch {position : Nat} {kept removed rest after : List Char} {patch : Patch}
      {later : List Patch} : patch.start = position + kept.length →
      patch.stop = patch.start + removed.length → Spliced patch.stop rest later after →
      Spliced position (kept ++ removed ++ rest) (patch :: later)
        (kept ++ patch.replacement.toList ++ after)

theorem take_drop_drop (cs : List Char) {start stop : Nat} (order : start ≤ stop) :
    (cs.drop start).take (stop - start) ++ cs.drop stop = cs.drop start := by
  have rest : cs.drop stop = (cs.drop start).drop (stop - start) := by
    rw [List.drop_drop, Nat.add_sub_cancel' order]
  rw [rest, List.take_append_drop]

theorem spliced_patchFrom {text : String} {position : Nat} {patches : List Patch}
    (apart : patches.Pairwise fun a b => a.stop ≤ b.start)
    (fits : ∀ patch ∈ patches, position ≤ patch.start ∧ patch.start < patch.stop ∧
      patch.stop ≤ text.length) :
    Spliced position (text.toList.drop position) patches (patchFrom text position patches).toList := by
  induction patches generalizing position with
  | nil =>
    rw [patchFrom, toList_sliceFrom]
    exact .done
  | cons patch later ih =>
    obtain ⟨begins, filled, ends⟩ := fits patch (.head _)
    obtain ⟨front, apart⟩ := List.pairwise_cons.mp apart
    have rest := ih apart fun other listed => ⟨front other listed, (fits other (.tail _ listed)).2⟩
    rw [← take_drop_drop text.toList begins,
      ← take_drop_drop text.toList (Nat.le_of_lt filled), ← List.append_assoc]
    simp only [patchFrom, String.toList_append, toList_slice]
    rw [← String.length_toList] at ends
    refine .patch ?_ ?_ rest
    · rw [List.length_take, List.length_drop]
      omega
    · rw [List.length_take, List.length_drop]
      omega

end Deasync.Text
