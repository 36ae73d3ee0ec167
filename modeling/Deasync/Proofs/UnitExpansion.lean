import Deasync.Expansion.Unit
import Deasync.Proofs.Outlining
import Deasync.Proofs.Splicing
import Mathlib.Data.List.Sort

namespace Deasync

theorem read_heading {text : String} {d : Declaration} (read : Declaration.read text = .ok d) :
    ∃ tokens, lex text = .ok tokens ∧ Heading tokens := by
  unfold Declaration.read at read
  cases lexed : lex text with
  | error fault => rw [lexed] at read; cases read
  | ok tokens =>
    rw [lexed] at read
    cases checked : checkTarget text tokens with
    | error fault =>
      simp only [bind, Except.bind, checked] at read
      cases read
    | ok accepted => exact ⟨tokens, rfl, heading_of_checkTarget checked⟩

theorem expandSite_read {text : String} {carriers : Carriers} {item : OutlineItem}
    {site : AttributeSite} {result : Options × Expanded}
    (succeeded : (expandSite text carriers item site).outcome = .ok result) :
    ∃ d, Declaration.read (Text.slice text site.nextStart item.stop) = .ok d := by
  unfold expandSite at succeeded
  extract_lets span at succeeded
  split at succeeded
  · cases succeeded
  · unfold expandItemText at succeeded
    split at succeeded
    · cases succeeded
    · rename_i d read
      exact ⟨d, read⟩

-- Only what the outline knows as a trait or an impl block is ever expanded.
theorem keyword_of_expanded {text : String} {o : Outline} {item : OutlineItem} {site : AttributeSite}
    {carriers : Carriers} {result : Options × Expanded} (outlined : Outline.ofText text = .ok o)
    (listed : item ∈ o.items) (driven : item.driving? = some site)
    (succeeded : (expandSite text carriers item site).outcome = .ok result) :
    item.keyword = some .contract ∨ item.keyword = some .implementation := by
  obtain ⟨tokens, lexed, level⟩ := ofText_outlined outlined
  obtain ⟨before, own, after, rfl, covers⟩ := level.covered listed
  obtain ⟨lead, hash, rest, next, rfl, _, _, begins, start, head⟩ :=
    covers.sites site (List.mem_of_find?_eq_some driven)
  obtain ⟨last, ends, stop⟩ := covers.ends
  have filled : rest ≠ [] := by rintro rfl; cases begins
  rw [List.getLast?_append_of_ne_nil _ filled] at ends
  obtain ⟨d, read⟩ := expandSite_read succeeded
  obtain ⟨found, again, headed⟩ := read_heading read
  have whole : lex text = .ok (before ++ lead ++ rest ++ after) := by simpa using lexed
  obtain ⟨same, alone, shifted⟩ := lex_slice whole begins ends
  rw [start, stop, alone] at again
  cases again
  exact head (headed.of_kinds (shifted.flip.imp fun _ _ shift => shift.kind.symm))

-- The driving attribute stands inside its item.
theorem driving_within {text : String} {o : Outline} {item : OutlineItem} {site : AttributeSite}
    (outlined : Outline.ofText text = .ok o) (listed : item ∈ o.items)
    (driven : item.driving? = some site) :
    item.start ≤ site.start ∧ site.start < item.stop ∧ item.stop ≤ text.length := by
  obtain ⟨tokens, lexed, level⟩ := ofText_outlined outlined
  have row := lex_inRow lexed
  have bounds := (level.before (Nat.zero_le _) row).1 item listed
  obtain ⟨before, own, after, rfl, covers⟩ := level.covered listed
  obtain ⟨lead, hash, rest, next, rfl, mark, start, behind, _⟩ :=
    covers.sites site (List.mem_of_find?_eq_some driven)
  obtain ⟨first, begins, same⟩ := covers.begins
  obtain ⟨last, ends, stop⟩ := covers.ends
  obtain ⟨upper, _, _, left, _⟩ := row.split (Nat.zero_le _)
  obtain ⟨lower, _, below, _, inside⟩ := left.split (Nat.zero_le _)
  obtain ⟨middle, _, _, front, back⟩ := inside.split below
  have first_le := inside.begins begins (List.mem_append_left _ mark)
  have filled := front.filled hash mark
  have fits := front.to_stop hash mark
  have order := back.from_start next (List.mem_of_head? behind)
  have nonempty := back.filled next (List.mem_of_head? behind)
  rw [List.getLast?_append_of_ne_nil _ (by rintro rfl; cases behind)] at ends
  have last_ge := back.ends behind ends
  omega

-- An item that asks for expansion, its driving attribute, and what came of it.
structure SiteAttempt where
  item : OutlineItem
  site : AttributeSite
  outcome : Except Fault (Options × Expanded)

namespace SiteAttempt

def expanded? (a : SiteAttempt) : Option Expanded :=
  match a.outcome with
  | .ok (_, expanded) => some expanded
  | .error _ => none

def patch? (a : SiteAttempt) : Option Text.Patch :=
  a.expanded?.map fun expanded => ⟨a.site.start, a.item.stop, expanded.text⟩

def diagnostic? (text : String) (file : Option String) (a : SiteAttempt) : Option Diagnostic :=
  match a.outcome with
  | .ok _ => none
  | .error fault => some (fault.diagnose fault.cause.phase (fileSpan text file a.site fault))

end SiteAttempt

def attemptAt (text : String) (carriers : Carriers) (item : OutlineItem) : Option SiteAttempt :=
  item.driving?.map fun site => ⟨item, site, (expandSite text carriers item site).outcome⟩

-- The attempts at a file, by the start of their items.
def Outline.attempts (o : Outline) (text : String) : List SiteAttempt :=
  o.inOrder.filterMap (attemptAt text o.carriers)

theorem Progress.step_attempt {text : String} (file : Option String) {carriers : Carriers}
    {p : Progress} {item : OutlineItem} {a : SiteAttempt}
    (tried : attemptAt text carriers item = some a) (ahead : p.position ≤ item.start) :
    (p.step text file carriers item).patches = p.patches ++ a.patch?.toList ∧
      (p.step text file carriers item).diagnostics =
        p.diagnostics ++ (a.diagnostic? text file).toList ∧
      (p.step text file carriers item).expanded = p.expanded ++ a.expanded?.toList ∧
      (p.step text file carriers item).position =
        if a.expanded?.isSome then item.stop else p.position := by
  obtain ⟨site, driven, rfl⟩ := Option.map_eq_some_iff.mp tried
  unfold Progress.step
  simp only [driven, if_neg (Nat.not_lt.mpr ahead), SiteAttempt.patch?, SiteAttempt.expanded?,
    SiteAttempt.diagnostic?]
  split
  · rename_i fault failed
    simp [failed]
  · rename_i options expanded succeeded
    simp [succeeded]

-- What an item replaces lies in front of another item.
def Clears (text : String) (carriers : Carriers) (x y : OutlineItem) : Prop :=
  ∀ a, attemptAt text carriers x = some a → a.expanded?.isSome → x.stop ≤ y.start

theorem foldl_step {text : String} (file : Option String) {carriers : Carriers}
    {items : List OutlineItem} (clear : items.Pairwise (Clears text carriers)) (p : Progress)
    (asked : ∀ item ∈ items, item.driving?.isSome)
    (ahead : ∀ item ∈ items, p.position ≤ item.start) :
    let q := items.foldl (Progress.step text file carriers) p
    let attempts := items.filterMap (attemptAt text carriers)
    q.patches = p.patches ++ attempts.filterMap SiteAttempt.patch? ∧
      q.diagnostics = p.diagnostics ++ attempts.filterMap (SiteAttempt.diagnostic? text file) ∧
      q.expanded = p.expanded ++ attempts.filterMap SiteAttempt.expanded? := by
  induction items generalizing p with
  | nil => simp
  | cons item items ih =>
    obtain ⟨front, clear⟩ := List.pairwise_cons.mp clear
    obtain ⟨site, driven⟩ := Option.isSome_iff_exists.mp (asked item (.head _))
    obtain ⟨a, tried⟩ : ∃ a, attemptAt text carriers item = some a := by simp [attemptAt, driven]
    obtain ⟨patches, diagnostics, expanded, position⟩ :=
      Progress.step_attempt file tried (ahead item (.head _))
    have later : ∀ other ∈ items, (p.step text file carriers item).position ≤ other.start := by
      intro other listed
      rw [position]
      split
      · rename_i succeeded
        exact front other listed a tried succeeded
      · exact ahead other (.tail _ listed)
    have rest := ih clear _ (fun other listed => asked other (.tail _ listed)) later
    simp only [List.foldl_cons, List.filterMap_cons, tried]
    simp only [rest, patches, diagnostics, expanded, List.append_assoc, List.append_cancel_left_eq]
    refine ⟨?_, ?_, ?_⟩
    · cases a.patch? <;> rfl
    · cases a.diagnostic? text file <;> rfl
    · cases a.expanded? <;> rfl

theorem mem_of_inOrder {o : Outline} {item : OutlineItem} (listed : item ∈ o.inOrder) :
    item ∈ o.items ∧ item.driving?.isSome := by
  unfold Outline.inOrder Outline.annotated at listed
  rw [List.mem_mergeSort, List.mem_filter] at listed
  exact listed

theorem inOrder_pairwise {text : String} {o : Outline} (outlined : Outline.ofText text = .ok o) :
    o.inOrder.Pairwise fun x y =>
      x.start < y.start ∧ (x.stop ≤ y.start ∨ x.keyword = some .submodule) := by
  obtain ⟨tokens, lexed, level⟩ := ofText_outlined outlined
  obtain ⟨bounds, before⟩ := level.before (Nat.zero_le _) (lex_inRow lexed)
  -- sorting keeps what holds of any two items, in whichever order they come
  have either : o.inOrder.Pairwise fun x y => x.Before y ∨ y.Before x := by
    refine ((List.mergeSort_perm _ _).pairwise_iff fun h => h.symm).mpr ?_
    exact (before.imp fun h => Or.inl h).filter _
  have sorted : o.inOrder.Pairwise fun x y => x.start ≤ y.start := by
    refine (List.pairwise_mergeSort ?_ ?_ _).imp fun h => of_decide_eq_true h
    · intro a b c
      simpa using Nat.le_trans
    · intro a b
      simpa using Nat.le_total a.start b.start
  refine (sorted.and either).imp_of_mem fun {x y} one two both => ?_
  have first := bounds x (mem_of_inOrder one).1
  have second := bounds y (mem_of_inOrder two).1
  obtain ⟨least, (apart | ⟨_, inside, _⟩) | (apart | ⟨word, inside, _⟩)⟩ := both
  · exact ⟨by omega, .inl apart⟩
  · omega
  · omega
  · exact ⟨inside, .inr word⟩

theorem inOrder_clears {text : String} {o : Outline} (outlined : Outline.ofText text = .ok o) :
    o.inOrder.Pairwise (Clears text o.carriers) := by
  refine (inOrder_pairwise outlined).imp_of_mem fun {x y} one two order => ?_
  intro a tried succeeded
  obtain ⟨site, driven, rfl⟩ := Option.map_eq_some_iff.mp tried
  rcases order.2 with apart | word
  · exact apart
  · -- a module is never read as a declaration
    obtain ⟨expanded, found⟩ := Option.isSome_iff_exists.mp succeeded
    unfold SiteAttempt.expanded? at found
    split at found
    · rename_i options _ outcome
      have keyword := keyword_of_expanded outlined (mem_of_inOrder one).1 driven outcome
      simp [word] at keyword
    · cases found

theorem mem_attempts {o : Outline} {text : String} {a : SiteAttempt} (listed : a ∈ o.attempts text) :
    a.item ∈ o.inOrder ∧ attemptAt text o.carriers a.item = some a ∧
      a.item.driving? = some a.site := by
  obtain ⟨item, present, tried⟩ := List.mem_filterMap.mp listed
  obtain ⟨site, driven, rfl⟩ := Option.map_eq_some_iff.mp tried
  exact ⟨present, tried, driven⟩

-- The patches of a file: one for each item that succeeded, from its driving attribute to its end.
def Outline.patches (o : Outline) (text : String) : List Text.Patch :=
  (o.attempts text).filterMap SiteAttempt.patch?

theorem patches_within {text : String} {o : Outline} (outlined : Outline.ofText text = .ok o) :
    ∀ patch ∈ o.patches text, patch.start < patch.stop ∧ patch.stop ≤ text.length := by
  intro patch listed
  obtain ⟨a, present, made⟩ := List.mem_filterMap.mp listed
  obtain ⟨e, _, rfl⟩ := Option.map_eq_some_iff.mp made
  obtain ⟨ordered, _, driven⟩ := mem_attempts present
  exact (driving_within outlined (mem_of_inOrder ordered).1 driven).2

theorem expandText_ok {text : String} (file : Option String) {o : Outline}
    (outlined : Outline.ofText text = .ok o) :
    (expandText text file).text = Text.patched text (o.patches text) ∧
      (expandText text file).diagnostics =
        (o.attempts text).filterMap (SiteAttempt.diagnostic? text file) ∧
      (expandText text file).expanded = (o.attempts text).filterMap SiteAttempt.expanded? := by
  obtain ⟨patches, diagnostics, expanded⟩ := foldl_step file (inOrder_clears outlined)
    ⟨0, [], [], [], [.annotated o.inOrder.length]⟩ (fun _ listed => (mem_of_inOrder listed).2)
    fun _ _ => Nat.zero_le _
  unfold expandText
  rw [outlined]
  exact ⟨congrArg (Text.patched text) patches, diagnostics, expanded⟩

-- What an expanded file owes to its outline.
structure UnitExpansion.Faithful (u : UnitExpansion) (text : String) (file : Option String)
    (o : Outline) : Prop where
  attempted : ((o.attempts text).map SiteAttempt.item).Perm o.annotated
  ordered : (o.attempts text).Pairwise fun a b => a.item.start < b.item.start
  expanded : u.expanded = (o.attempts text).filterMap SiteAttempt.expanded?
  diagnosed : u.diagnostics = (o.attempts text).filterMap (SiteAttempt.diagnostic? text file)
  counted : u.expanded.length + u.diagnostics.length = o.annotated.length
  apart : (o.patches text).Pairwise fun a b => a.stop ≤ b.start
  within : ∀ patch ∈ o.patches text, patch.start < patch.stop ∧ patch.stop ≤ text.length
  spliced : Text.Spliced 0 text.toList (o.patches text) u.text.toList

end Deasync
