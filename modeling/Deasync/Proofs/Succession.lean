import Deasync.Proofs.FaultPlaces
import Deasync.Proofs.OutlineContext
import Deasync.Proofs.UnitExpansion

namespace Deasync

section Displacement

variable {offset : Nat} {part text : String}

theorem driving?_displaced (text : String) (offset : Nat) (item : OutlineItem) :
    (item.displaced text offset).driving? =
      item.driving?.map (AttributeSite.displaced text offset) := by
  unfold OutlineItem.driving? OutlineItem.displaced
  rw [List.find?_map]
  rfl

-- Only a fault of the argument points into the file; any other counts from the text of its item.
def Fault.displaced (text : String) (offset : Nat) (fault : Fault) : Fault :=
  if fault.cause.family = .configuration then
    { fault with span := fault.span.rebase text offset none }
  else fault

theorem mapError_displaced {α : Type} {result : Except Fault α} (fails : FailsInner result)
    (text : String) (offset : Nat) : result.mapError (Fault.displaced text offset) = result := by
  cases result with
  | error fault =>
    exact congrArg Except.error (if_neg (fails fault rfl).1)
  | ok a => rfl

theorem expandSite_displaced (at' : Text.At offset part text) (carriers : Carriers)
    {item : OutlineItem} (fits : item.stop ≤ part.length) (site : AttributeSite) :
    (expandSite text carriers (item.displaced text offset) (site.displaced text offset)).outcome =
      (expandSite part carriers item site).outcome.mapError (Fault.displaced text offset) := by
  have own : Text.slice text (offset + site.nextStart) (offset + item.stop) =
      Text.slice part site.nextStart item.stop := at'.slice _ fits
  have same := fun options => mapError_displaced
    (expandItemText_fails options (Text.slice part site.nextStart item.stop) carriers) text offset
  unfold expandSite
  cases found : site.argument with
  | none =>
    simp only [AttributeSite.displaced, OutlineItem.displaced, found, Option.map_none,
      Options.ofArgument, own, same]
  | some argument =>
    simp only [AttributeSite.displaced, OutlineItem.displaced, found, Option.map_some,
      Options.ofArgument, own]
    by_cases blank : (Text.trim argument.text).isEmpty
    · simp only [if_pos blank, same]
    · by_cases word : Text.trim argument.text = "local"
      · simp only [if_neg blank, if_pos word, same]
      · simp only [if_neg blank, if_neg word]
        rfl

-- The same attempt, further on.
def SiteAttempt.displaced (text : String) (offset : Nat) (a : SiteAttempt) : SiteAttempt where
  item := a.item.displaced text offset
  site := a.site.displaced text offset
  outcome := a.outcome.mapError (Fault.displaced text offset)

theorem attemptAt_displaced (at' : Text.At offset part text) (carriers : Carriers)
    {item : OutlineItem} (fits : item.stop ≤ part.length) :
    attemptAt text carriers (item.displaced text offset) =
      (attemptAt part carriers item).map (SiteAttempt.displaced text offset) := by
  unfold attemptAt
  rw [driving?_displaced, Option.map_map, Option.map_map]
  refine Option.map_congr fun site _ => ?_
  simp only [Function.comp_apply, SiteAttempt.displaced, expandSite_displaced at' carriers fits]

def Text.Patch.displaced (offset : Nat) (p : Text.Patch) : Text.Patch :=
  { p with start := offset + p.start, stop := offset + p.stop }

namespace SiteAttempt

theorem expanded?_displaced (text : String) (offset : Nat) (a : SiteAttempt) :
    (a.displaced text offset).expanded? = a.expanded? := by
  unfold expanded? displaced
  cases a.outcome <;> rfl

theorem patch?_displaced (text : String) (offset : Nat) (a : SiteAttempt) :
    (a.displaced text offset).patch? = a.patch?.map (Text.Patch.displaced offset) := by
  unfold patch?
  rw [expanded?_displaced, Option.map_map]
  rfl

end SiteAttempt

def Diagnostic.rebased (text : String) (offset : Nat) (d : Diagnostic) : Diagnostic :=
  { d with span := d.span.rebase text offset none }

theorem Span.rebase_rebase (s : Span) (inner outer : String) (a b : Int) (file : Option String) :
    (s.rebase inner a file).rebase outer b none = s.rebase outer (b + a) file := by
  cases s <;> simp [rebase, between, preferred, Int.add_assoc]

theorem Span.withFile_rebase (s : Span) (text : String) (offset : Int) (file : Option String) :
    (s.rebase text offset none).withFile file = (s.withFile file).rebase text offset none := by
  cases s <;> rfl

theorem fileSpan_displaced (part : String) (file : Option String) (site : AttributeSite)
    (fault : Fault) : fileSpan text file (site.displaced text offset) (fault.displaced text offset) =
      (fileSpan part file site fault).rebase text offset none := by
  unfold fileSpan Fault.displaced
  by_cases family : fault.cause.family = .configuration
  · simp only [family, if_true, Span.withFile_rebase]
  · simp only [if_neg family, Span.rebase_rebase, AttributeSite.displaced, Int.natCast_add]

theorem SiteAttempt.diagnostic?_displaced (file : Option String) (a : SiteAttempt) :
    (a.displaced text offset).diagnostic? text file =
      (a.diagnostic? part file).map (Diagnostic.rebased text offset) := by
  unfold diagnostic? displaced
  cases a.outcome with
  | ok result => rfl
  | error fault =>
    have cause : (fault.displaced text offset).cause = fault.cause := by
      unfold Fault.displaced
      split <;> rfl
    simp only [Except.mapError, Option.map_some, Fault.diagnose, Diagnostic.rebased, cause,
      fileSpan_displaced part]

end Displacement

-- An attribute, and the tokens it was found in.
def AttributeSite.Made (text : String) (site : AttributeSite) (own : List Token) : Prop :=
  ∃ behind hash bracket later group, hash.kind = .hash ∧ bracket.kind = .openSquare ∧
    closing bracket later = .ok group ∧ attributeSite text behind hash group = .ok site ∧
    own = [hash] ++ (group.before ++ [group.closer])

theorem Led.made {text : String} {behind : Option Token} {tokens rest : List Token}
    {sites : List AttributeSite} (led : Led text behind tokens sites rest) :
    ∀ site ∈ sites, ∃ own, own <:+: tokens ∧ site.Made text own := by
  induction led with
  | done => simp
  | doc _ _ ih =>
    intro site listed
    obtain ⟨own, inside, made⟩ := ih site listed
    exact ⟨own, inside.trans (List.suffix_cons _ _).isInfix, made⟩
  | @attributed hash bracket later rest group site sites mark square closed found _ ih =>
    obtain ⟨own, split, same, _⟩ := closing_alone (by rw [square]; rfl) closed
    have tokens : hash :: bracket :: later =
        [hash] ++ (group.before ++ [group.closer]) ++ group.after := by
      rw [split, same]
      rfl
    rw [tokens]
    refine List.forall_mem_cons.mpr ⟨⟨_, (List.prefix_append _ _).isInfix, ?_⟩, fun other listed => ?_⟩
    · exact ⟨behind, hash, bracket, later, group, mark, square, closed, found, rfl⟩
    · obtain ⟨own, inside, made⟩ := ih other listed
      exact ⟨own, inside.trans (List.suffix_append _ _).isInfix, made⟩

theorem Levelled.made {text : String} {behind : Option Token} {tokens : List Token} {o : Outline}
    (level : Levelled text behind tokens o) :
    ∀ item ∈ o.items, ∀ site ∈ item.attributes, ∃ own, own <:+: tokens ∧ site.Made text own := by
  induction level with
  | nothing => exact List.forall_mem_nil _
  | trailing => exact List.forall_mem_nil _
  | inner led found closed _ ih =>
    intro item listed site present
    obtain ⟨own, inside, made⟩ := ih item listed site present
    obtain ⟨front, split, _⟩ := inner_level led found closed
    exact ⟨own, inside.trans ⟨front, [], by rw [split, List.append_nil]⟩, made⟩
  | item led _ _ taken _ _ ih =>
    refine List.forall_mem_cons.mpr ⟨led.made, fun item listed site present => ?_⟩
    obtain ⟨own, inside, made⟩ := ih item listed site present
    exact ⟨own, inside.trans (rest_within led taken).1, made⟩
  | submodule led _ _ taken found _ _ ihInside ihRest =>
    have tails := rest_within led taken
    refine List.forall_mem_append.mpr ⟨List.forall_mem_append.mpr ⟨?_, ?_⟩, ?_⟩
    · intro item listed site present
      obtain ⟨own, inside, made⟩ := ihInside item listed site present
      exact ⟨own, inside.trans (tails.2 _ found), made⟩
    · exact List.forall_mem_singleton.mpr led.made
    · intro item listed site present
      obtain ⟨own, inside, made⟩ := ihRest item listed site present
      exact ⟨own, inside.trans tails.1, made⟩

-- The argument of an attribute is pointed at in the file.
def AttributeSite.Placed (text : String) (site : AttributeSite) : Prop :=
  ∀ argument, site.argument = some argument →
    ∃ start stop : Nat, argument.span = .between text start stop none

theorem AttributeSite.Made.placed {text : String} {site : AttributeSite} {own : List Token}
    (made : site.Made text own) : site.Placed text := by
  obtain ⟨behind, hash, bracket, later, group, _, _, _, found, _⟩ := made
  obtain ⟨argument, read, rfl⟩ := exists_of_map_ok found
  rintro given rfl
  unfold attributeArgument at read
  split at read
  · cases read
  · extract_lets cut at read
    split at read
    · obtain ⟨inner, _, same⟩ := exists_of_map_ok read
      cases same
      exact ⟨_, _, rfl⟩
    · cases read
      exact ⟨_, _, rfl⟩

theorem ofText_levelled {text : String} {tokens : List Token} {o : Outline}
    (lexed : lex text = .ok tokens) (outlined : Outline.ofText text = .ok o) :
    Levelled text none tokens o := by
  unfold Outline.ofText at outlined
  rw [lexed] at outlined
  exact levelled_of_outlineLevel outlined

theorem ofArgument_error {argument : Option String} {span : Span} {fault : Fault}
    (refused : Options.ofArgument argument span = .error fault) :
    argument.isSome ∧ fault.cause.family = .configuration ∧ fault.span = span := by
  cases argument with
  | none => cases refused
  | some text =>
    simp only [Options.ofArgument] at refused
    split at refused
    · cases refused
    · split at refused
      · cases refused
      · cases refused
        exact ⟨rfl, rfl, rfl⟩

theorem fileSpan_between {text : String} {carriers : Carriers} {item : OutlineItem}
    {site : AttributeSite} {fault : Fault} (placed : site.Placed text)
    (failed : (expandSite text carriers item site).outcome = .error fault) (file : Option String) :
    ∃ start stop : Nat, ∃ name, fileSpan text file site fault = .between text start stop name := by
  unfold expandSite at failed
  extract_lets span at failed
  split at failed
  · rename_i other refused
    cases failed
    obtain ⟨given, family, same⟩ := ofArgument_error refused
    rw [Option.isSome_map] at given
    obtain ⟨argument, own⟩ := Option.isSome_iff_exists.mp given
    obtain ⟨start, stop, written⟩ := placed argument own
    refine ⟨start, stop, file, ?_⟩
    simp only [fileSpan, family, same, span, own, written]
    rfl
  · obtain ⟨family, start, stop, first, last, same⟩ := expandItemText_fails _ _ _ _ failed
    refine ⟨site.nextStart + start, site.nextStart + stop, Span.preferred file none, ?_⟩
    simp only [fileSpan, same, Span.rebase, Int.natCast_add]

theorem diagnostics_between {text : String} {o : Outline} (outlined : Outline.ofText text = .ok o)
    (file : Option String) : ∀ d ∈ (expandText text file).diagnostics,
      ∃ start stop : Nat, ∃ name, d.span = .between text start stop name := by
  obtain ⟨tokens, lexed, _⟩ := ofText_outlined outlined
  have made := (ofText_levelled lexed outlined).made
  rw [(expandText_ok file outlined).2.1]
  intro d listed
  obtain ⟨a, attempted, found⟩ := List.mem_filterMap.mp listed
  obtain ⟨item, present, tried⟩ := List.mem_filterMap.mp attempted
  obtain ⟨site, driven, rfl⟩ := Option.map_eq_some_iff.mp tried
  simp only [SiteAttempt.diagnostic?] at found
  split at found
  · cases found
  · rename_i fault failed
    cases found
    obtain ⟨own, _, written⟩ :=
      made item (mem_of_inOrder present).1 site (List.mem_of_find?_eq_some driven)
    exact fileSpan_between written.placed failed file

theorem locate_front (front back : String) {offset : Nat} (within : offset ≤ front.length) :
    Position.locate (front ++ back) offset = Position.locate front offset := by
  unfold Position.locate
  rw [String.toList_append, Int.toNat_natCast, List.take_append_of_le_length]
  rwa [String.length_toList]

-- Lines that end in front of a text are counted as well; its columns stay.
theorem locate_behind (front back : String) (offset : Nat) :
    Position.locate (front ++ "\n" ++ back) (front.length + 1 + offset : Nat) =
      ⟨front.toList.count '\n' + 1 + (Position.locate back offset).line,
        (Position.locate back offset).column⟩ := by
  have chars : (front ++ "\n" ++ back).toList.take (front.length + 1 + offset) =
      (front.toList ++ ['\n']) ++ back.toList.take offset := by
    have long : (front ++ "\n").toList.length = front.length + 1 := by simp [String.length_toList]
    rw [String.toList_append, List.take_append, long, List.take_of_length_le (by rw [long]; omega),
      Nat.add_sub_cancel_left, String.toList_append]
    rfl
  simp only [Position.locate, Int.toNat_natCast, chars, Position.behind, Position.mk.injEq]
  constructor
  · simp only [List.count_append, List.count_singleton_self]
    omega
  · -- the column counts back to the last line feed, which is behind `front` or in front of it
    simp only [List.reverse_append, List.takeWhile_append, List.reverse_singleton,
      List.singleton_append]
    split
    · rename_i all
      simpa using all.symm
    · rfl

theorem drop_behind (front back : String) (position : Nat) :
    (front ++ back).toList.drop (front.length + position) = back.toList.drop position := by
  rw [String.toList_append, ← String.length_toList, ← List.drop_drop, List.drop_left]

theorem drop_front {front : String} (back : String) {position : Nat}
    (starts : position ≤ front.length) :
    (front ++ back).toList.drop position = front.toList.drop position ++ back.toList := by
  rw [String.toList_append, List.drop_append_of_le_length (by rwa [String.length_toList])]

theorem patchFrom_displaced (front back : String) (position : Nat) (patches : List Text.Patch) :
    Text.patchFrom (front ++ back) (front.length + position)
        (patches.map (Text.Patch.displaced front.length)) =
      Text.patchFrom back position patches := by
  induction patches generalizing position with
  | nil => simp only [List.map_nil, Text.patchFrom, Text.sliceFrom, drop_behind]
  | cons p patches ih =>
    simp only [List.map_cons, Text.patchFrom, Text.Patch.displaced, Text.slice, drop_behind,
      Nat.add_sub_add_left]
    rw [← ih]

-- Patches of two texts, one behind the other.
theorem patchFrom_append (front back : String) {position : Nat} {first : List Text.Patch}
    (second : List Text.Patch) (starts : position ≤ front.length)
    (fits : ∀ p ∈ first, p.start ≤ front.length ∧ p.stop ≤ front.length) :
    Text.patchFrom (front ++ back) position
        (first ++ second.map (Text.Patch.displaced front.length)) =
      Text.patchFrom front position first ++ Text.patched back second := by
  induction first generalizing position with
  | nil =>
    cases second with
    | nil =>
      simp only [List.map_nil, List.append_nil, Text.patchFrom, Text.sliceFrom, drop_front back starts,
        String.ofList_append, Text.patched_nil, String.ofList_toList]
    | cons p second =>
      have long : (front.toList.drop position).length = front.length - position := by
        rw [List.length_drop, String.length_toList]
      have kept : Text.slice (front ++ back) position (front.length + p.start) =
          Text.sliceFrom front position ++ Text.slice back 0 p.start := by
        have enough : front.length + p.start - position = front.length - position + p.start := by omega
        simp only [Text.slice, Text.sliceFrom, drop_front back starts, List.take_append, long, enough,
          List.take_of_length_le (Nat.le_of_eq long |>.trans (Nat.le_add_right _ p.start)),
          Nat.add_sub_cancel_left, String.ofList_append, List.drop_zero, Nat.sub_zero]
      simp only [List.nil_append, List.map_cons, Text.patchFrom, Text.patched]
      rw [← patchFrom_displaced front back p.stop second]
      simp only [Text.Patch.displaced, kept, String.append_assoc]
  | cons p first ih =>
    obtain ⟨begins, ends⟩ := fits p (.head _)
    have kept : Text.slice (front ++ back) position p.start = Text.slice front position p.start := by
      rw [Text.slice, Text.slice, drop_front back starts, List.take_append_of_le_length]
      rw [List.length_drop, String.length_toList]
      omega
    rw [List.cons_append, Text.patchFrom, Text.patchFrom, kept,
      ih ends fun other listed => fits other (.tail _ listed), String.append_assoc]
    simp only [String.append_assoc]

theorem annotated_displaced (text : String) (offset : Nat) (o : Outline) :
    (o.displaced text offset).annotated = o.annotated.map (OutlineItem.displaced text offset) := by
  unfold Outline.annotated Outline.displaced
  rw [List.filter_map]
  refine congrArg (List.map _) (List.filter_congr fun item _ => ?_)
  rw [Function.comp_apply, driving?_displaced, Option.isSome_map]

theorem inOrder_perm (o : Outline) : o.inOrder.Perm o.annotated := List.mergeSort_perm _ _

theorem inOrder_bounds {text : String} {o : Outline} (outlined : Outline.ofText text = .ok o) :
    ∀ item ∈ o.inOrder, item.start < item.stop ∧ item.stop ≤ text.length := by
  intro item listed
  obtain ⟨tokens, lexed, level⟩ := ofText_outlined outlined
  exact ((level.before (Nat.zero_le _) (lex_inRow lexed)).1 item (mem_of_inOrder listed).1).2

theorem inOrder_append {s₁ s₂ whole : String} {o₁ o₂ : Outline} {offset : Nat}
    (outlined₁ : Outline.ofText s₁ = .ok o₁) (outlined₂ : Outline.ofText s₂ = .ok o₂)
    (outlined : Outline.ofText whole =
      .ok ((o₁.displaced whole 0).append (o₂.displaced whole offset)))
    (far : s₁.length ≤ offset) :
    ((o₁.displaced whole 0).append (o₂.displaced whole offset)).inOrder =
      o₁.inOrder.map (OutlineItem.displaced whole 0) ++
        o₂.inOrder.map (OutlineItem.displaced whole offset) := by
  have perm : ((o₁.displaced whole 0).append (o₂.displaced whole offset)).inOrder.Perm
      (o₁.inOrder.map (OutlineItem.displaced whole 0) ++
        o₂.inOrder.map (OutlineItem.displaced whole offset)) := by
    refine (inOrder_perm _).trans ?_
    have split : ((o₁.displaced whole 0).append (o₂.displaced whole offset)).annotated =
        (o₁.displaced whole 0).annotated ++ (o₂.displaced whole offset).annotated :=
      List.filter_append ..
    rw [split, annotated_displaced, annotated_displaced]
    exact ((inOrder_perm o₁).map _).symm.append ((inOrder_perm o₂).map _).symm
  have starts : ∀ {text : String} {o : Outline} (n : Nat), Outline.ofText text = .ok o →
      (o.inOrder.map (OutlineItem.displaced whole n)).Pairwise fun x y => x.start < y.start := by
    intro text o n outlined
    refine List.pairwise_map.mpr ((inOrder_pairwise outlined).imp fun order => ?_)
    exact Nat.add_lt_add_left order.1 n
  have apart : (o₁.inOrder.map (OutlineItem.displaced whole 0) ++
      o₂.inOrder.map (OutlineItem.displaced whole offset)).Pairwise fun x y => x.start < y.start := by
    refine List.pairwise_append.mpr ⟨starts 0 outlined₁, starts offset outlined₂, ?_⟩
    intro x first y second
    obtain ⟨a, listed, rfl⟩ := List.mem_map.mp first
    obtain ⟨b, _, rfl⟩ := List.mem_map.mp second
    have bounds := inOrder_bounds outlined₁ a listed
    simp only [OutlineItem.displaced]
    omega
  -- no two items start together, so that there is one way only to sort them
  exact perm.eq_of_pairwise (fun x y _ _ less greater => by omega)
    ((inOrder_pairwise outlined).imp fun order => order.1) apart

theorem attempts_displaced {part text : String} {offset : Nat} {o : Outline}
    (at' : Text.At offset part text) (outlined : Outline.ofText part = .ok o) :
    (o.inOrder.map (OutlineItem.displaced text offset)).filterMap (attemptAt text o.carriers) =
      (o.attempts part).map (SiteAttempt.displaced text offset) := by
  rw [List.filterMap_map, Outline.attempts, List.map_filterMap]
  refine List.filterMap_congr fun item listed => ?_
  exact attemptAt_displaced at' o.carriers (inOrder_bounds outlined item listed).2

theorem filterMap_map_comm {α β : Type} {f k : α → Option β} {g : α → α} {h : β → β}
    (same : ∀ a, k (g a) = (f a).map h) (as : List α) :
    (as.map g).filterMap k = (as.filterMap f).map h := by
  rw [List.filterMap_map, List.map_filterMap]
  exact List.filterMap_congr fun a _ => same a

-- The text with another one on the lines below it.
def below (s₁ s₂ : String) : String := s₁ ++ "\n" ++ s₂

theorem at_front (s₁ s₂ : String) : Text.At 0 s₁ (below s₁ s₂) := by
  rw [Text.At, below, String.append_assoc, String.toList_append]
  exact List.prefix_append _ _

theorem at_below (s₁ s₂ : String) : Text.At (s₁.length + 1) s₂ (below s₁ s₂) := by
  have long : (s₁ ++ "\n").length = s₁.length + 1 := String.length_append ..
  rw [Text.At, below, ← long, ← Nat.add_zero (s₁ ++ "\n").length, drop_behind]
  exact List.prefix_rfl

-- Two texts that keep their tokens, one below the other: the line end between them is inside no
-- token and no comment, and the first text leaves no item open. Both have an outline, and neither
-- declares a carrier.
def Separable (s₁ s₂ : String) : Prop :=
  ∃ o₁ o₂ t₁ t₂ others, Outline.ofText s₁ = .ok o₁ ∧ Outline.ofText s₂ = .ok o₂ ∧
    o₁.carriers = [] ∧ o₂.carriers = [] ∧ lex s₁ = .ok t₁ ∧ lex s₂ = .ok t₂ ∧
    lex (below s₁ s₂) = .ok (t₁ ++ others) ∧
    List.Forall₂ (Token.Shifted (s₁.length + 1)) others t₂ ∧ (t₁ ≠ [] → Terminated t₁ o₁)

instance (offset : Nat) (a b : Token) : Decidable (a.Shifted offset b) :=
  decidable_of_iff (a.kind = b.kind ∧ a.text = b.text ∧ a.extent.start = offset + b.extent.start ∧
    a.extent.stop = offset + b.extent.stop)
    ⟨fun ⟨kind, text, start, stop⟩ => ⟨kind, text, start, stop⟩,
      fun same => ⟨same.kind, same.text, same.start, same.stop⟩⟩

def separates (s₁ s₂ : String) : Bool :=
  match lex s₁, lex s₂, lex (below s₁ s₂) with
  | .ok t₁, .ok t₂, .ok t =>
    match outlineLevel s₁ none t₁, outlineLevel s₂ none t₂ with
    | .ok o₁, .ok o₂ =>
      decide (o₁.carriers = [] ∧ o₂.carriers = [] ∧ t.take t₁.length = t₁ ∧
        List.Forall₂ (Token.Shifted (s₁.length + 1)) (t.drop t₁.length) t₂ ∧
        (t₁ ≠ [] → Terminated t₁ o₁))
    | _, _ => false
  | _, _, _ => false

theorem ofText_of_level {text : String} {tokens : List Token} {o : Outline}
    (lexed : lex text = .ok tokens) (level : outlineLevel text none tokens = .ok o) :
    Outline.ofText text = .ok o := by
  unfold Outline.ofText
  rw [lexed]
  exact level

theorem separable_of_separates {s₁ s₂ : String} (checked : separates s₁ s₂) : Separable s₁ s₂ := by
  unfold separates at checked
  split at checked
  · rename_i t₁ t₂ t lexed₁ lexed₂ lexed
    split at checked
    · rename_i o₁ o₂ level₁ level₂
      obtain ⟨plain₁, plain₂, front, shifted, terminated⟩ := of_decide_eq_true checked
      refine ⟨o₁, o₂, t₁, t₂, t.drop t₁.length, ofText_of_level lexed₁ level₁,
        ofText_of_level lexed₂ level₂, plain₁, plain₂, lexed₁, lexed₂, ?_, shifted, terminated⟩
      rw [lexed]
      nth_rewrite 1 [← List.take_append_drop t₁.length t]
      rw [front]
    · cases checked
  · cases checked

theorem ofText_below {s₁ s₂ : String} {o₁ o₂ : Outline} {t₁ t₂ others : List Token}
    (outlined₁ : Outline.ofText s₁ = .ok o₁) (outlined₂ : Outline.ofText s₂ = .ok o₂)
    (lexed₁ : lex s₁ = .ok t₁) (lexed₂ : lex s₂ = .ok t₂)
    (lexed : lex (below s₁ s₂) = .ok (t₁ ++ others))
    (shifted : List.Forall₂ (Token.Shifted (s₁.length + 1)) others t₂)
    (terminated : t₁ ≠ [] → Terminated t₁ o₁) :
    Outline.ofText (below s₁ s₂) = .ok ((o₁.displaced (below s₁ s₂) 0).append
      (o₂.displaced (below s₁ s₂) (s₁.length + 1))) := by
  have nothing : (none : Option Token).map (·.extent.start) = none := rfl
  have second := (ofText_levelled lexed₂ outlined₂).displaced (at_below s₁ s₂) (lex_inRow lexed₂)
    (Nat.le_refl _) shifted.flip nothing (.inl rfl) .nothing
  rw [List.append_nil, Outline.append_empty] at second
  have stays : Displaced 0 t₁ t₁ := by
    refine List.forall₂_same.mpr fun t _ => ⟨rfl, rfl, ?_, ?_⟩ <;> rw [Nat.zero_add]
  have first := (ofText_levelled lexed₁ outlined₁).displaced (at_front s₁ s₂) (lex_inRow lexed₁)
    (Nat.le_refl _) stays nothing (.inr (or_iff_not_imp_left.mpr terminated)) second
  exact ofText_of_level lexed first.found

def Span.shifted (offset lines : Nat) : Span → Span
  | unknown file => unknown file
  | known file start stop first last =>
    known file (offset + start) (offset + stop) ⟨lines + first.line, first.column⟩
      ⟨lines + last.line, last.column⟩

-- The same diagnostic, `offset` characters and `lines` lines further on.
def Diagnostic.shifted (offset lines : Nat) (d : Diagnostic) : Diagnostic :=
  { d with span := d.span.shifted offset lines }

-- A span that does not go beyond a text of this length.
def Span.Within (length : Nat) : Span → Prop
  | unknown _ => True
  | known _ start stop _ _ => start ≤ length ∧ stop ≤ length

theorem rebase_below (s₁ s₂ : String) (start stop : Nat) (file : Option String) :
    (Span.between s₂ start stop file).rebase (below s₁ s₂) (s₁.length + 1 : Nat) none =
      (Span.between s₂ start stop file).shifted (s₁.length + 1) (s₁.toList.count '\n' + 1) := by
  simp only [Span.between, Span.rebase, Span.shifted, Span.preferred, below, ← Int.natCast_add,
    locate_behind]

theorem rebase_front {s₁ : String} (s₂ : String) {start stop : Nat} {file : Option String}
    (within : (Span.between s₁ start stop file).Within s₁.length) :
    (Span.between s₁ start stop file).rebase (below s₁ s₂) 0 none = .between s₁ start stop file := by
  simp only [Span.between, Span.Within, Int.ofNat_le] at within
  simp only [Span.between, Span.rebase, Span.preferred, Int.zero_add, below, String.append_assoc,
    locate_front _ _ within.1, locate_front _ _ within.2]

theorem attempts_below {s₁ s₂ : String} {o₁ o₂ : Outline} (outlined₁ : Outline.ofText s₁ = .ok o₁)
    (outlined₂ : Outline.ofText s₂ = .ok o₂) (plain₁ : o₁.carriers = []) (plain₂ : o₂.carriers = [])
    (outlined : Outline.ofText (below s₁ s₂) = .ok ((o₁.displaced (below s₁ s₂) 0).append
      (o₂.displaced (below s₁ s₂) (s₁.length + 1)))) :
    ((o₁.displaced (below s₁ s₂) 0).append
        (o₂.displaced (below s₁ s₂) (s₁.length + 1))).attempts (below s₁ s₂) =
      (o₁.attempts s₁).map (SiteAttempt.displaced (below s₁ s₂) 0) ++
        (o₂.attempts s₂).map (SiteAttempt.displaced (below s₁ s₂) (s₁.length + 1)) := by
  have first := attempts_displaced (at_front s₁ s₂) outlined₁
  have second := attempts_displaced (at_below s₁ s₂) outlined₂
  have carriers : ((o₁.displaced (below s₁ s₂) 0).append
      (o₂.displaced (below s₁ s₂) (s₁.length + 1))).carriers = [] := by
    simp [Outline.append, Outline.displaced, plain₁, plain₂]
  rw [plain₁] at first
  rw [plain₂] at second
  rw [Outline.attempts, inOrder_append outlined₁ outlined₂ outlined (Nat.le_succ _),
    List.filterMap_append, carriers, first, second]

theorem patched_below (s₁ s₂ : String) {first : List Text.Patch} (second : List Text.Patch)
    (fits : ∀ p ∈ first, p.start < p.stop ∧ p.stop ≤ s₁.length) :
    Text.patched (below s₁ s₂) (first ++ second.map (Text.Patch.displaced (s₁.length + 1))) =
      below (Text.patched s₁ first) (Text.patched s₂ second) := by
  have long : (s₁ ++ "\n").length = s₁.length + 1 := String.length_append ..
  have front : Text.patchFrom (s₁ ++ "\n") 0 first = Text.patched s₁ first ++ "\n" := by
    have alone := patchFrom_append s₁ "\n" [] (Nat.zero_le _)
      fun p listed => ⟨Nat.le_trans (Nat.le_of_lt (fits p listed).1) (fits p listed).2,
        (fits p listed).2⟩
    rwa [List.map_nil, List.append_nil, Text.patched_nil] at alone
  rw [Text.patched, below, ← long, patchFrom_append _ _ _ (Nat.zero_le _), front, below]
  intro p listed
  have bound := fits p listed
  omega

section Below

variable {s₁ s₂ : String}

theorem text_below (file : Option String) (separable : Separable s₁ s₂) :
    (expandText (below s₁ s₂) file).text =
      below (expandText s₁ file).text (expandText s₂ file).text := by
  obtain ⟨o₁, o₂, t₁, t₂, others, outlined₁, outlined₂, plain₁, plain₂, lexed₁, lexed₂, lexed, shifted,
    terminated⟩ := separable
  have outlined := ofText_below outlined₁ outlined₂ lexed₁ lexed₂ lexed shifted terminated
  have first : ((o₁.attempts s₁).map (SiteAttempt.displaced (below s₁ s₂) 0)).filterMap
      SiteAttempt.patch? = o₁.patches s₁ := by
    have same : Text.Patch.displaced 0 = id := by
      funext p
      simp [Text.Patch.displaced]
    rw [filterMap_map_comm (SiteAttempt.patch?_displaced _ 0), same, List.map_id]
    rfl
  rw [(expandText_ok file outlined).1, Outline.patches,
    attempts_below outlined₁ outlined₂ plain₁ plain₂ outlined, List.filterMap_append, first,
    filterMap_map_comm (SiteAttempt.patch?_displaced _ (s₁.length + 1)),
    patched_below s₁ s₂ _ (patches_within outlined₁), (expandText_ok file outlined₁).1,
    (expandText_ok file outlined₂).1]
  rfl

theorem expanded_below (file : Option String) (separable : Separable s₁ s₂) :
    (expandText (below s₁ s₂) file).expanded =
      (expandText s₁ file).expanded ++ (expandText s₂ file).expanded := by
  obtain ⟨o₁, o₂, t₁, t₂, others, outlined₁, outlined₂, plain₁, plain₂, lexed₁, lexed₂, lexed, shifted,
    terminated⟩ := separable
  have outlined := ofText_below outlined₁ outlined₂ lexed₁ lexed₂ lexed shifted terminated
  rw [(expandText_ok file outlined).2.2, attempts_below outlined₁ outlined₂ plain₁ plain₂ outlined,
    List.filterMap_append, (expandText_ok file outlined₁).2.2, (expandText_ok file outlined₂).2.2,
    List.filterMap_map, List.filterMap_map]
  simp only [Function.comp_def, SiteAttempt.expanded?_displaced]

theorem diagnostics_below (file : Option String) (separable : Separable s₁ s₂) :
    (expandText (below s₁ s₂) file).diagnostics =
      (expandText s₁ file).diagnostics.map (Diagnostic.rebased (below s₁ s₂) 0) ++
        (expandText s₂ file).diagnostics.map
          (Diagnostic.shifted (s₁.length + 1) (s₁.toList.count '\n' + 1)) := by
  obtain ⟨o₁, o₂, t₁, t₂, others, outlined₁, outlined₂, plain₁, plain₂, lexed₁, lexed₂, lexed, shifted,
    terminated⟩ := separable
  have outlined := ofText_below outlined₁ outlined₂ lexed₁ lexed₂ lexed shifted terminated
  rw [(expandText_ok file outlined).2.1, attempts_below outlined₁ outlined₂ plain₁ plain₂ outlined,
    List.filterMap_append, filterMap_map_comm (SiteAttempt.diagnostic?_displaced file),
    ← (expandText_ok file outlined₁).2.1, filterMap_map_comm (SiteAttempt.diagnostic?_displaced file),
    ← (expandText_ok file outlined₂).2.1]
  refine congrArg _ (List.map_congr_left fun d listed => ?_)
  obtain ⟨start, stop, name, same⟩ := diagnostics_between outlined₂ file d listed
  rw [Diagnostic.rebased, Diagnostic.shifted, same, rebase_below]

theorem expandText_below (file : Option String) (separable : Separable s₁ s₂) :
    (expandText (below s₁ s₂) file).text =
        below (expandText s₁ file).text (expandText s₂ file).text ∧
      (expandText (below s₁ s₂) file).expanded =
        (expandText s₁ file).expanded ++ (expandText s₂ file).expanded ∧
      (expandText (below s₁ s₂) file).diagnostics =
        (expandText s₁ file).diagnostics.map (Diagnostic.rebased (below s₁ s₂) 0) ++
          (expandText s₂ file).diagnostics.map
            (Diagnostic.shifted (s₁.length + 1) (s₁.toList.count '\n' + 1)) ∧
      ∀ d ∈ (expandText s₁ file).diagnostics, d.span.Within s₁.length →
        d.rebased (below s₁ s₂) 0 = d := by
  refine ⟨text_below file separable, expanded_below file separable, diagnostics_below file separable,
    fun d listed within => ?_⟩
  obtain ⟨o₁, _, _, _, _, outlined₁, _⟩ := separable
  obtain ⟨start, stop, name, same⟩ := diagnostics_between outlined₁ file d listed
  rw [same] at within
  rw [Diagnostic.rebased, same, Int.ofNat_zero, rebase_front s₂ within, ← same]

end Below

-- A module that is refused, with an item to expand in it, and another item that is refused.
def moduleText : String :=
  "#[async_trait] mod m \x7b\n#[async_trait] trait A \x7b async fn f(); \x7d \x7d // m"

def refusedText : String := "/// b\n#[async_trait(b)]\nimpl A for B \x7b\x7d"

theorem expandText_below_module : Separable moduleText refusedText ∧
    (expandText (below moduleText refusedText) none).text =
      below (expandText moduleText none).text (expandText refusedText none).text ∧
    (expandText (below moduleText refusedText) none).diagnostics =
      (expandText moduleText none).diagnostics.map
          (Diagnostic.rebased (below moduleText refusedText) 0) ++
        (expandText refusedText none).diagnostics.map
          (Diagnostic.shifted (moduleText.length + 1) (moduleText.toList.count '\n' + 1)) := by
  have separable : Separable moduleText refusedText := separable_of_separates (by decide +kernel)
  obtain ⟨text, _, diagnostics, _⟩ := expandText_below none separable
  exact ⟨separable, text, diagnostics⟩

-- The body is longer once `Self` is spelled out, and the character that then begins no token is
-- counted from the beginning of that body.
def outgrowing : String :=
  "#[async_trait]impl long_enough_to_outgrow_a_file::r\x7basync fn f()\x7bSelf Self\"\\\"é\"\x7d\x7d"

theorem expandText_below_outgrown : Separable outgrowing "struct B;" ∧
    (expandText (below outgrowing "struct B;") none).diagnostics ≠
      (expandText outgrowing none).diagnostics ++ (expandText "struct B;" none).diagnostics.map
        (Diagnostic.shifted (outgrowing.length + 1) (outgrowing.toList.count '\n' + 1)) := by
  have separable : Separable outgrowing "struct B;" := separable_of_separates (by decide +kernel)
  have moved : (expandText outgrowing none).diagnostics.map
      (Diagnostic.rebased (below outgrowing "struct B;") 0) ≠
        (expandText outgrowing none).diagnostics := by decide +kernel
  refine ⟨separable, fun same => moved ?_⟩
  rw [diagnostics_below none separable] at same
  exact List.append_cancel_right same

end Deasync
