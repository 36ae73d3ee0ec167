import Deasync.Proofs.FaultRanges
import Deasync.Proofs.SignatureParts
import Deasync.Proofs.Succession

namespace Deasync

open Grammar

variable {text : String}

-- Where the argument of an attribute stands: inside the group behind the path, or else from the end
-- of the path to the closing bracket.
inductive ArgumentAt (name : String) : List Token → Nat → Nat → Prop where
  | group {hash bracket opener closer close : Token} {path inside more : List Token} :
      attributePath (path ++ opener :: (inside ++ closer :: more)) =
        (name, opener :: (inside ++ closer :: more)) →
      opener.kind.closer? = some closer.kind → Nested (kindsOf inside) →
      ArgumentAt name (hash :: bracket :: (path ++ opener :: (inside ++ closer :: (more ++ [close]))))
        opener.extent.stop closer.extent.start
  | rest {hash bracket first close : Token} {path more : List Token} :
      attributePath (path ++ first :: more) = (name, first :: more) → ¬first.kind.isOpener →
      ArgumentAt name (hash :: bracket :: (path ++ first :: (more ++ [close]))) first.extent.start
        close.extent.start

theorem attributeArgument_at {name : String} (hash bracket : Token) {close : Token}
    {path rest : List Token} {argument : Argument}
    (ahead : attributePath (path ++ rest) = (name, rest))
    (read : attributeArgument text close rest = .ok (some argument)) :
    ∃ start stop, ArgumentAt name (hash :: bracket :: (path ++ (rest ++ [close]))) start stop ∧
      argument = ⟨Text.slice text start stop, .between text start stop none⟩ := by
  unfold attributeArgument at read
  split at read
  · cases read
  · rename_i token later
    extract_lets cut at read
    split at read
    · rename_i opens
      obtain ⟨group, closed, same⟩ := exists_of_map_ok read
      cases same
      obtain ⟨inside, _, nested, kind, rfl⟩ := (closing_eq_ok_iff opens).mp closed
      rw [List.cons_append, List.append_assoc]
      exact ⟨_, _, .group ahead kind nested, rfl⟩
    · rename_i flat
      cases read
      exact ⟨_, _, .rest ahead flat, rfl⟩

theorem AttributeSite.Made.argument {site : AttributeSite} {own : List Token} {argument : Argument}
    (made : site.Made text own) (given : site.argument = some argument) :
    ∃ start stop, ArgumentAt site.path own start stop ∧
      argument = ⟨Text.slice text start stop, .between text start stop none⟩ := by
  obtain ⟨behind, hash, bracket, later, group, _, square, closed, found, rfl⟩ := made
  obtain ⟨inside, before, _⟩ := (closing_eq_ok_iff (by rw [square]; rfl)).mp closed
  rw [attributeSite_eq, before, List.tail_cons] at found
  obtain ⟨read, done, rfl⟩ := exists_of_map_ok found
  cases given
  obtain ⟨path, split⟩ := attributePath_suffix inside
  have ahead : attributePath (path ++ (attributePath inside).2) =
      ((attributePath inside).1, (attributePath inside).2) := by rw [split]
  have argued := attributeArgument_at hash bracket ahead done
  rw [← List.append_assoc, split] at argued
  rwa [before]

theorem AttributeSite.Made.spans {site : AttributeSite} {own : List Token}
    (made : site.Made text own) : Spans own site.start site.stop := by
  obtain ⟨behind, hash, bracket, later, group, _, _, _, found, rfl⟩ := made
  exact (attributeSite_spans found).1

-- The argument stands between hash mark and closing bracket.
theorem ArgumentAt.bounds {name : String} {own : List Token} {start stop first last least most : Nat}
    (argued : ArgumentAt name own start stop) (row : InRow least most own)
    (spans : Spans own first last) : first < start ∧ start ≤ stop ∧ stop < last := by
  obtain ⟨hash, close, begins, ends, rfl, rfl⟩ := spans
  cases argued with
  | @group mark bracket opener closer final path inside more _ _ _ =>
    obtain rfl : mark = hash := Option.some.inj begins
    obtain rfl : final = close := by simpa [List.getLast?_cons] using ends
    have behind : [closer, final].Sublist (closer :: (more ++ [final])) :=
      (List.sublist_append_right more [final]).cons_cons closer
    have after : [opener, closer, final].Sublist (opener :: (inside ++ closer :: (more ++ [final]))) :=
      (List.sublist_append_of_sublist_right behind).cons_cons opener
    have chosen := row.behind.sublist ((List.sublist_append_of_sublist_right after).cons bracket)
    have opens := chosen.from_start opener (.head _)
    have holds := chosen.behind.from_start closer (.head _)
    have closes := chosen.behind.behind.from_start final (.head _)
    have filled := And.intro (row.filled mark (.head _)) (chosen.filled opener (.head _))
    have ending := And.intro (chosen.behind.filled closer (.head _))
      (chosen.behind.behind.filled final (.head _))
    omega
  | @rest mark bracket token final path more _ _ =>
    obtain rfl : mark = hash := Option.some.inj begins
    obtain rfl : final = close := by simpa [List.getLast?_cons] using ends
    have after : [token, final].Sublist (token :: (more ++ [final])) :=
      (List.sublist_append_right more [final]).cons_cons token
    have chosen := row.behind.sublist ((List.sublist_append_of_sublist_right after).cons bracket)
    have opens := chosen.from_start token (.head _)
    have closes := chosen.behind.from_start final (.head _)
    have filled := And.intro (row.filled mark (.head _)) (chosen.filled token (.head _))
    have ending := chosen.behind.filled final (.head _)
    omega

-- An attribute in front of what it stands at, inside the item.
theorem site_places {o : Outline} {item : OutlineItem} {site : AttributeSite}
    (outlined : Outline.ofText text = .ok o) (listed : item ∈ o.items)
    (present : site ∈ item.attributes) : item.start ≤ site.start ∧ site.start < site.stop ∧
      site.stop ≤ site.nextStart ∧ site.nextStart < item.stop ∧ item.stop ≤ text.length := by
  obtain ⟨tokens, lexed, _⟩ := ofText_outlined outlined
  have layout := (ofText_levelled lexed outlined).layout
  obtain ⟨_, row, body, _, _, standing, laid, sited⟩ := layout.sited (lex_inRow lexed) listed
  obtain ⟨before, own, next, later, split, _, spans, start⟩ := sited.followed site present
  have whole := laid.spans.bounds standing
  obtain ⟨_, last, _, ends, _, stop⟩ := laid.spans
  rw [split] at standing ends
  rw [List.getLast?_append_of_ne_nil _ (List.cons_ne_nil _ _)] at ends
  obtain ⟨middle, least, below, left, right⟩ := standing.split (Nat.zero_le _)
  have bounds := spans.bounds (left.sublist (List.sublist_append_right before own))
  have begins := right.from_start next (.head _)
  have filled := right.filled next (.head _)
  have final := right.ends rfl ends
  have within := sited.within site present
  omega

theorem Text.length_slice {start stop : Nat} (order : start ≤ stop) (most : stop ≤ text.length) :
    (Text.slice text start stop).length = stop - start := by
  rw [← String.length_toList, Text.toList_slice, List.length_take, List.length_drop,
    String.length_toList]
  omega

-- What is read of an item: the text behind its driving attribute.
def SiteAttempt.part (text : String) (a : SiteAttempt) : String :=
  Text.slice text a.site.nextStart a.item.stop

-- A fault that came up while an async method was written anew.
def Fault.Unwritten (part : String) (carriers : Carriers) (fault : Fault) : Prop :=
  ∃ d options m decision, Declaration.read part = .ok d ∧ m ∈ d.asyncMethods ∧
    decideMethod d options carriers m = .ok decision ∧ methodText d options m decision = .error fault

theorem Fault.Unwritten.family {part : String} {carriers : Carriers} {fault : Fault}
    (unwritten : fault.Unwritten part carriers) : fault.cause.family = .parse := by
  obtain ⟨d, options, m, decision, _, _, _, failed⟩ := unwritten
  have lexes (text : String) : Fails (fun fault => fault.cause.family = .parse) (lex text) :=
    (lex_points text).mono fun _ points => List.mem_singleton.mp points.1
  exact methodText_fails lexes d options m decision fault failed

-- A hidden borrow in an async method.
def Fault.Hides (part : String) (fault : Fault) : Prop :=
  ∃ d, Declaration.read part = .ok d ∧ ∃ m ∈ d.asyncMethods, fault.HidesIn part m.signature

theorem expandItemText_sorts (options : Options) (part : String) (carriers : Carriers) :
    Fails (fun fault => fault.Unwritten part carriers ∨
        fault.Points [.parse, .target] part.length ∨ fault.Hides part)
      (expandItemText options part carriers).outcome := by
  refine .expandItemText ((read_points part).mono fun _ points => .inr (.inl points)) ?_ ?_
  · intro d read m listed
    exact (decideMethod_hides read listed options carriers).mono
      fun _ hides => .inr (.inr ⟨d, read, m, listed, hides⟩)
  · intro d read m listed decision decided fault failed
    exact .inl ⟨d, options, m, decision, read, listed, decided, failed⟩

-- Where a fault of an item is reported: inside the item, at the argument of the attribute or at a
-- part of a signature when it is one of these.
structure SiteAttempt.Located (text : String) (a : SiteAttempt) (code : Option String)
    (start stop : Nat) : Prop where
  within : a.item.start ≤ start ∧ start ≤ stop ∧ stop ≤ a.item.stop ∧ a.item.stop ≤ text.length
  argument : code = some "E-INVALID-CONFIG" → ∃ front own after argument,
    lex text = .ok (front ++ own ++ after) ∧ Spans own a.site.start a.site.stop ∧
      ArgumentAt a.site.path own start stop ∧ a.site.argument = some argument ∧
      argument.text = Text.slice text start stop
  borrow : code = some "E-AMBIGUOUS-BORROW-SCOPE" → ∃ d, Declaration.read (a.part text) = .ok d ∧
    ∃ m ∈ d.asyncMethods, ∃ front own after extent, lex (a.part text) = .ok (front ++ own ++ after) ∧
      m.signature.Part (a.part text) own extent ∧ Spans own extent.start extent.stop ∧
      start = a.site.nextStart + extent.start ∧ stop = a.site.nextStart + extent.stop

theorem Cause.family_of_code {c : Cause} :
    (c.code = "E-INVALID-CONFIG" → c.family = .configuration) ∧
      (c.code = "E-AMBIGUOUS-BORROW-SCOPE" → c.family = .borrow) := by
  unfold code
  cases c.family <;> decide

theorem Span.preferred_named {file : String} (named : file ≠ "") (own : Option String) :
    preferred (some file) own = some file := by
  rw [preferred, if_neg (by simpa using named)]

theorem fileSpan_inner {fault : Fault} {site : AttributeSite} {file : String} {start stop : Nat}
    {first last : Position} (named : file ≠ "") (inner : fault.cause.family ≠ .configuration)
    (known : fault.span = .known none start stop first last) :
    fileSpan text (some file) site fault =
      .between text (site.nextStart + start : Nat) (site.nextStart + stop : Nat) (some file) := by
  unfold fileSpan
  split
  · rename_i family
    exact absurd family inner
  · simp only [known, Span.rebase, Span.preferred_named named, Int.natCast_add]

section

variable {o : Outline} {a : SiteAttempt} {fault : Fault}

theorem located_argument {argument : Argument} (outlined : Outline.ofText text = .ok o)
    (listed : a ∈ o.attempts text) (given : a.site.argument = some argument)
    (own : fault.span = argument.span) (family : fault.cause.family = .configuration)
    (file : Option String) :
    ∃ start stop : Nat, fileSpan text file a.site fault = .between text start stop file ∧
      a.Located text (some fault.cause.code) start stop := by
  obtain ⟨ordered, _, driven⟩ := mem_attempts listed
  have item := (mem_of_inOrder ordered).1
  have present := List.mem_of_find?_eq_some driven
  obtain ⟨tokens, lexed, _⟩ := ofText_outlined outlined
  obtain ⟨its, inside, made⟩ := (ofText_levelled lexed outlined).made a.item item a.site present
  obtain ⟨start, stop, standing, rfl⟩ := made.argument given
  have bounds := standing.bounds ((lex_inRow lexed).sublist inside.sublist) made.spans
  have places := site_places outlined item present
  refine ⟨start, stop, ?_, ⟨by omega, fun _ => ?_, fun borrow => ?_⟩⟩
  · simp only [fileSpan, family, own]
    rfl
  · obtain ⟨front, after, rfl⟩ := inside
    exact ⟨front, its, after, _, lexed, made.spans, standing, given, rfl⟩
  · cases family.symm.trans (Cause.family_of_code.2 (Option.some.inj borrow))

theorem part_places (outlined : Outline.ofText text = .ok o) (listed : a ∈ o.attempts text) :
    a.item.start ≤ a.site.nextStart ∧ a.site.nextStart + (a.part text).length = a.item.stop ∧
      a.item.stop ≤ text.length := by
  obtain ⟨ordered, _, driven⟩ := mem_attempts listed
  obtain ⟨front, filled, behind, within, most⟩ :=
    site_places outlined (mem_of_inOrder ordered).1 (List.mem_of_find?_eq_some driven)
  have length : (a.part text).length = a.item.stop - a.site.nextStart :=
    Text.length_slice (Nat.le_of_lt within) most
  omega

theorem located_read (outlined : Outline.ofText text = .ok o) (listed : a ∈ o.attempts text)
    {file : String} (named : file ≠ "")
    (points : fault.Points [.parse, .target] (a.part text).length) :
    ∃ start stop : Nat, fileSpan text (some file) a.site fault = .between text start stop (some file) ∧
      a.Located text (some fault.cause.code) start stop := by
  obtain ⟨family, start, stop, first, last, known, order, most⟩ := points
  have places := part_places outlined listed
  have other {code : String} {own : Cause.Family} (none : own ∉ [Cause.Family.parse, .target])
      (meant : fault.cause.code = code → fault.cause.family = own) :
      some fault.cause.code ≠ some code :=
    fun same => none (meant (Option.some.inj same) ▸ family)
  refine ⟨_, _, fileSpan_inner named ?_ known, ⟨by omega, fun same => ?_, fun same => ?_⟩⟩
  · intro same
    rw [same] at family
    exact absurd family (by decide)
  · exact absurd same (other (by decide) Cause.family_of_code.1)
  · exact absurd same (other (by decide) Cause.family_of_code.2)

theorem located_borrow (outlined : Outline.ofText text = .ok o) (listed : a ∈ o.attempts text)
    {file : String} (named : file ≠ "") (hides : fault.Hides (a.part text)) :
    ∃ start stop : Nat, fileSpan text (some file) a.site fault = .between text start stop (some file) ∧
      a.Located text (some fault.cause.code) start stop := by
  obtain ⟨d, read, m, async, name, arity, extent, front, own, after, rfl, lexed, part⟩ := hides
  have places := part_places outlined listed
  have inside : own <:+: front ++ own ++ after := ⟨front, after, rfl⟩
  have bounds := part.spans.bounds ((lex_inRow lexed).sublist inside.sublist)
  refine ⟨_, _, fileSpan_inner named (by rintro ⟨⟩) rfl, ⟨by omega, fun same => ?_, fun _ => ?_⟩⟩
  · cases Cause.family_of_code.1 (Option.some.inj same)
  · exact ⟨d, read, m, async, front, own, after, extent, lexed, part, part.spans, rfl, rfl⟩

-- The fault of an item is one of its argument or one of the text behind the attribute.
theorem attempt_located (outlined : Outline.ofText text = .ok o) (listed : a ∈ o.attempts text)
    {file : String} (named : file ≠ "") (failed : a.outcome = .error fault) :
    fault.Unwritten (a.part text) o.carriers ∨ ∃ start stop : Nat,
      fileSpan text (some file) a.site fault = .between text start stop (some file) ∧
        a.Located text (some fault.cause.code) start stop := by
  obtain ⟨site, driven, same⟩ := Option.map_eq_some_iff.mp (mem_attempts listed).2.1
  have outcome : (expandSite text o.carriers a.item a.site).outcome = .error fault := by
    rw [← failed, ← same]
  unfold expandSite at outcome
  extract_lets span at outcome
  split at outcome
  · rename_i other refused
    cases outcome
    obtain ⟨some, family, own⟩ := ofArgument_error refused
    rw [Option.isSome_map] at some
    obtain ⟨argument, given⟩ := Option.isSome_iff_exists.mp some
    have pointed : span = argument.span := by simp only [span, given]
    exact .inr (located_argument outlined listed given (own.trans pointed) family _)
  · rcases expandItemText_sorts _ _ _ _ outcome with unwritten | points | hides
    · exact .inl unwritten
    · exact .inr (located_read outlined listed named points)
    · exact .inr (located_borrow outlined listed named hides)

end

theorem diagnostics_located (text : String) {file : String} (named : file ≠ "") :
    match Outline.ofText text with
    | .error fault => ∃ start stop : Nat, start ≤ stop ∧ stop ≤ text.length ∧
        (expandText text (some file)).diagnostics =
          [fault.diagnose "parser" (.between text start stop (some file))]
    | .ok o => ∀ d ∈ (expandText text (some file)).diagnostics, ∃ a ∈ o.attempts text, ∃ fault,
        a.outcome = .error fault ∧ a.diagnostic? text (some file) = some d ∧
          (fault.Unwritten (a.part text) o.carriers ∧ d.code = some "E-PARSE" ∨
            ∃ start stop : Nat, d.span = .between text start stop (some file) ∧
              a.Located text d.code start stop) := by
  cases outlined : Outline.ofText text with
  | error fault =>
    obtain ⟨_, start, stop, first, last, known, order, most⟩ := ofText_points text fault outlined
    refine ⟨start, stop, order, most, ?_⟩
    simp only [expandText, outlined, known, Span.rebase, Span.preferred_named named, Int.zero_add]
  | ok o =>
    intro d listed
    rw [(expandText_ok (some file) outlined).2.1] at listed
    obtain ⟨a, attempted, found⟩ := List.mem_filterMap.mp listed
    cases failed : a.outcome with
    | ok result => simp [SiteAttempt.diagnostic?, failed] at found
    | error fault =>
      refine ⟨a, attempted, fault, failed, found, ?_⟩
      simp only [SiteAttempt.diagnostic?, failed, Option.some.injEq] at found
      rw [← found]
      refine (attempt_located outlined attempted named failed).imp_left fun unwritten => ⟨unwritten, ?_⟩
      simp only [Fault.diagnose, Cause.code, unwritten.family]

theorem inOrder_eq_annotated {o : Outline} (sorted : o.annotated.Pairwise (·.start ≤ ·.start)) :
    o.inOrder = o.annotated :=
  List.mergeSort_of_pairwise (sorted.imp fun less => decide_eq_true less)

def scatteredText : String :=
  "struct B<'a>(&'a u8);\nmod m \x7b\n#[async_trait( x )] trait A \x7b\x7d\n#[async_trait]\n" ++
    "impl C \x7b\nasync fn f(b: B) \x7b\x7d \x7d \x7d"

def scatteredPlaces : List (Option String × Span) :=
  [(some "E-INVALID-CONFIG", .known (some "a.rs") 44 47 ⟨3, 15⟩ ⟨3, 18⟩),
    (some "E-AMBIGUOUS-BORROW-SCOPE", .known (some "a.rs") 96 100 ⟨6, 12⟩ ⟨6, 16⟩)]

theorem diagnostics_located_scattered : ∃ o, Outline.ofText scatteredText = .ok o ∧
    (expandText scatteredText (some "a.rs")).diagnostics.map (fun d => (d.code, d.span)) =
      scatteredPlaces ∧
    ∀ d ∈ (expandText scatteredText (some "a.rs")).diagnostics, ∃ a ∈ o.attempts scatteredText,
      ∃ fault, a.outcome = .error fault ∧ a.diagnostic? scatteredText (some "a.rs") = some d ∧
        (fault.Unwritten (a.part scatteredText) o.carriers ∧ d.code = some "E-PARSE" ∨
          ∃ start stop : Nat, d.span = .between scatteredText start stop (some "a.rs") ∧
            a.Located scatteredText d.code start stop) := by
  have shown : (Outline.ofText scatteredText).toOption.any fun o =>
      o.annotated.Pairwise (·.start ≤ ·.start) ∧
        ((o.annotated.filterMap (attemptAt scatteredText o.carriers)).filterMap
          (SiteAttempt.diagnostic? scatteredText (some "a.rs"))).map (fun d => (d.code, d.span)) =
            scatteredPlaces := by decide +kernel
  obtain ⟨o, found, facts⟩ := (Option.any_eq_true _ _).mp shown
  obtain ⟨sorted, places⟩ := of_decide_eq_true facts
  have outlined := toOption_eq_some found
  have located := diagnostics_located scatteredText (show "a.rs" ≠ "" by decide)
  rw [outlined] at located
  refine ⟨o, outlined, ?_, located⟩
  rwa [(expandText_ok (some "a.rs") outlined).2.1, Outline.attempts, inOrder_eq_annotated sorted]

end Deasync
