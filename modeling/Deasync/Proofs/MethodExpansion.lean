import Deasync.Expansion.Item
import Deasync.Proofs.Grammar.Acceptance
import Deasync.Proofs.Lexing
import Deasync.Proofs.Splicing

namespace Deasync

open Grammar

theorem Extent.covering_of {tokens : List Token} {first last : Token}
    (begins : tokens.head? = some first) (ends : tokens.getLast? = some last) :
    Extent.covering tokens = first.extent.to last.extent := by
  simp [Extent.covering, begins, ends]

theorem exists_ends {tokens : List Token} (filled : tokens ≠ []) :
    ∃ first last, tokens.head? = some first ∧ tokens.getLast? = some last := by
  refine ⟨tokens.head filled, tokens.getLast filled, ?_, ?_⟩
  · exact List.head?_eq_some_head filled
  · exact List.getLast?_eq_getLast_of_ne_nil filled

-- The tokens of a method behind its attributes.
structure Method.Covers (m : Method) (own : List Token) : Prop where
  begins : ∃ first, own.head? = some first ∧ m.signature.extent.start = first.extent.start
  ends : ∃ last, own.getLast? = some last ∧ m.extent.stop = last.extent.stop

theorem Method.Covers.bounds {m : Method} {own : List Token} {start stop : Nat}
    (covers : m.Covers own) (row : InRow start stop own) :
    start ≤ m.signature.extent.start ∧ m.signature.extent.start < m.extent.stop ∧
      m.extent.stop ≤ stop := by
  obtain ⟨first, begins, same⟩ := covers.begins
  obtain ⟨last, ends, also⟩ := covers.ends
  rw [same, also]
  exact row.spanned begins ends

variable {text : String}

theorem signature_extent {w : List Token} {s : Signature}
    (derived : declarations.Derives text .signature w s) : s.extent = .covering w := by
  obtain ⟨p, listed, vs, _, rfl⟩ := derives_def.mp derived
  obtain rfl := List.mem_singleton.mp listed
  rfl

theorem method_covers {w : List Token} {m : Method} (derived : declarations.Derives text .method w m) :
    ∃ attributes own, w = attributes ++ own ∧ m.Covers own := by
  obtain ⟨p, listed, vs, all, rfl⟩ := derives_def.mp derived
  obtain rfl := List.mem_singleton.mp listed
  obtain ⟨attributes, u, rfl, _, rest⟩ := derivesAll_cons all
  obtain ⟨signature, body, rfl, second, _⟩ := derivesAll_cons rest
  have shown := derivesSym_ref second
  have filled : signature ≠ [] := List.length_pos_iff.mp (spells_length_pos (by decide) shown.spells)
  obtain ⟨first, middle, begins, close⟩ := exists_ends filled
  have more : signature ++ body ≠ [] := by simp [filled]
  have whole : attributes ++ (signature ++ body) ≠ [] := by simp [filled]
  obtain ⟨front, last, opens, final⟩ := exists_ends whole
  have ends : (signature ++ body).getLast? = some last := by
    rwa [List.getLast?_append_of_ne_nil _ more] at final
  refine ⟨attributes, signature ++ body, rfl, ⟨first, ?_, ?_⟩, ⟨last, ends, ?_⟩⟩
  · rw [List.head?_append_of_ne_nil _ filled, begins]
  · have extent := signature_extent shown
    rw [Extent.covering_of begins close] at extent
    have start := congrArg Extent.start extent
    exact start
  · have stop := congrArg Extent.stop (Extent.covering_of opens final)
    exact stop

-- How methods stand between two offsets.
structure MethodsInRow (start stop : Nat) (methods : List Method) : Prop where
  apart : methods.Pairwise fun a b => a.extent.stop ≤ b.signature.extent.start
  within : ∀ m ∈ methods, start ≤ m.signature.extent.start ∧
    m.signature.extent.start < m.extent.stop ∧ m.extent.stop ≤ stop

theorem MethodsInRow.mono {start wider stop : Nat} {methods : List Method}
    (row : MethodsInRow wider stop methods) (less : start ≤ wider) : MethodsInRow start stop methods where
  apart := row.apart
  within m listed := by
    have bounds := row.within m listed
    omega

theorem MethodsInRow.cons {start middle stop : Nat} {m : Method} {methods : List Method}
    (first : start ≤ m.signature.extent.start ∧ m.signature.extent.start < m.extent.stop ∧
      m.extent.stop ≤ middle) (below : middle ≤ stop) (later : MethodsInRow middle stop methods) :
    MethodsInRow start stop (m :: methods) where
  apart := List.pairwise_cons.mpr ⟨fun other listed => by
    have bounds := later.within other listed
    omega, later.apart⟩
  within := List.forall_mem_cons.mpr ⟨by omega, fun other listed => by
    have bounds := later.within other listed
    omega⟩

theorem members_inRow {w : List Token} {members : List Member} {start stop : Nat}
    (derived : declarations.Derives text .members w members) (most : start ≤ stop)
    (row : InRow start stop w) : MethodsInRow start stop (members.filterMap Member.method?) := by
  -- on the number of tokens: each member takes at least one
  induction length : w.length using Nat.strongRecOn generalizing w members start with
  | ind count ih =>
    obtain ⟨p, listed, vs, all, rfl⟩ := derives_def.mp derived
    rcases List.mem_pair.mp listed with rfl | rfl
    · exact ⟨.nil, by simp⟩
    · obtain ⟨x, u, rfl, first, rest⟩ := derivesAll_cons all
      obtain ⟨y, none, rfl, later, rest⟩ := derivesAll_cons rest
      obtain rfl := derivesAll_nil rest
      rw [List.append_nil] at *
      have shown := derivesSym_ref first
      have filled := spells_length_pos (by decide) shown.spells
      rw [List.length_append] at length
      obtain ⟨middle, least, below, left, right⟩ := row.split most
      have others := ih y.length (by omega) (derivesSym_ref later) below right rfl
      obtain ⟨q, either, values, only, same⟩ := derives_def.mp shown
      change MethodsInRow start stop ((vs.1 :: vs.2.1).filterMap Member.method?)
      rw [← same]
      rcases List.mem_pair.mp either with rfl | rfl
      · obtain ⟨own, none, rfl, method, rest⟩ := derivesAll_cons only
        obtain rfl := derivesAll_nil rest
        rw [List.append_nil] at left
        obtain ⟨attributes, tokens, rfl, covers⟩ := method_covers (derivesSym_ref method)
        obtain ⟨behind, least', below', _, inside⟩ := left.split least
        have bounds := covers.bounds inside
        exact .cons ⟨by omega, bounds.2⟩ below others
      · exact others.mono least

theorem declaration_members {w : List Token} {d : Declaration}
    (derived : declarations.Derives text .declaration w d) :
    d.source = text ∧ ∃ header body, w = header ++ body ∧
      declarations.Derives text .members body d.members := by
  obtain ⟨p, listed, vs, all, rfl⟩ := derives_def.mp derived
  rcases List.mem_pair.mp listed with rfl | rfl
  · obtain ⟨x, y, rfl, _, members⟩ := derivesAll_last (n := .members) (f := traitHeader) all
    exact ⟨rfl, x, y, rfl, members⟩
  · obtain ⟨x, y, rfl, _, members⟩ := derivesAll_last (n := .members) (f := implHeader) all
    exact ⟨rfl, x, y, rfl, members⟩

theorem read_methods {d : Declaration} (read : Declaration.read text = .ok d) :
    d.source = text ∧ MethodsInRow 0 text.length d.methods := by
  obtain ⟨tokens, lexed, _, found, _⟩ := Declaration.read_eq_ok_iff.mp read
  have derived := ((read_eq_ok_iff declarations_ranked).mp found).derives
  obtain ⟨source, header, body, rfl, members⟩ := declaration_members derived
  obtain ⟨middle, least, below, _, right⟩ := (lex_inRow lexed).split (Nat.zero_le _)
  exact ⟨source, (members_inRow members below right).mono least⟩

theorem read_asyncMethods {d : Declaration} (read : Declaration.read text = .ok d) :
    MethodsInRow 0 text.length d.asyncMethods where
  apart := (read_methods read).2.apart.filter _
  within m listed := (read_methods read).2.within m (List.mem_filter.mp listed).1

-- An async method, what was decided about it, and the text that stands in its place.
structure MethodRewrite where
  method : Method
  decision : Decision
  text : String

namespace MethodRewrite

def patch (r : MethodRewrite) : Text.Patch :=
  ⟨r.method.signature.extent.start, r.method.extent.stop, r.text⟩

-- The decision and the text are those of the method.
structure Generated (r : MethodRewrite) (d : Declaration) (options : Options) (carriers : Carriers) :
    Prop where
  decided : decideMethod d options carriers r.method = .ok r.decision
  written : methodText d options r.method r.decision = .ok r.text

end MethodRewrite

theorem decideMethod_name {d : Declaration} {options : Options} {carriers : Carriers} {m : Method}
    {decision : Decision} (decided : decideMethod d options carriers m = .ok decision) :
    decision.name = m.signature.name := by
  obtain ⟨taken, _, rest⟩ := bind_eq_ok_iff.mp decided
  obtain ⟨captured, _, last⟩ := bind_eq_ok_iff.mp rest
  cases last
  rfl

theorem attempt_ok {d : Declaration} {options : Options} {carriers : Carriers} {methods : List Method}
    {patches : List Text.Patch} (done : (attempt d options carriers methods).patches = .ok patches) :
    ∃ rewrites : List MethodRewrite, rewrites.map MethodRewrite.method = methods ∧
      rewrites.map MethodRewrite.patch = patches ∧
      rewrites.map MethodRewrite.decision = (attempt d options carriers methods).decided ∧
      ∀ r ∈ rewrites, r.Generated d options carriers := by
  induction methods generalizing patches with
  | nil =>
    cases done
    exact ⟨[], rfl, rfl, rfl, by simp⟩
  | cons m methods ih =>
    rw [attempt] at done ⊢
    cases decided : decideMethod d options carriers m with
    | error fault => rw [decided] at done; cases done
    | ok decision =>
      simp only [decided] at done ⊢
      cases written : methodText d options m decision with
      | error fault => rw [written] at done; cases done
      | ok replacement =>
        simp only [written] at done ⊢
        obtain ⟨later, rest, rfl⟩ := exists_of_map_ok done
        obtain ⟨rewrites, rfl, rfl, listed, generated⟩ := ih rest
        refine ⟨⟨m, decision, replacement⟩ :: rewrites, rfl, rfl, ?_, ?_⟩
        · rw [List.map_cons, listed]
        · exact List.forall_mem_cons.mpr ⟨⟨decided, written⟩, generated⟩

theorem expand_ok {d : Declaration} {options : Options} {carriers : Carriers} {e : Expanded}
    (done : d.expand options carriers = .ok e) :
    ∃ rewrites : List MethodRewrite, rewrites.map MethodRewrite.method = d.asyncMethods ∧
      e.methods = rewrites.map MethodRewrite.decision ∧
      e.text = Text.patched d.source (rewrites.map MethodRewrite.patch) ∧
      ∀ r ∈ rewrites, r.Generated d options carriers := by
  obtain ⟨patches, found, rfl⟩ := exists_of_map_ok done
  obtain ⟨rewrites, methods, rfl, decided, generated⟩ := attempt_ok found
  exact ⟨rewrites, methods, decided.symm, rfl, generated⟩

theorem rewrites_spliced {d : Declaration} {rewrites : List MethodRewrite}
    (row : MethodsInRow 0 text.length d.asyncMethods)
    (methods : rewrites.map MethodRewrite.method = d.asyncMethods) :
    Text.Spliced 0 text.toList (rewrites.map MethodRewrite.patch)
      (Text.patched text (rewrites.map MethodRewrite.patch)).toList := by
  refine Text.spliced_patchFrom ?_ ?_
  · have apart := row.apart
    rw [← methods, List.pairwise_map] at apart
    exact List.pairwise_map.mpr apart
  · intro patch listed
    obtain ⟨r, present, rfl⟩ := List.mem_map.mp listed
    exact row.within r.method (methods ▸ List.mem_map_of_mem present)

-- Only async methods are rewritten: they stand apart inside the text, and the expansion puts one text
-- in the place of each and keeps all else.
theorem expand_replaces_async_methods {d : Declaration} (read : Declaration.read text = .ok d)
    (options : Options) (carriers : Carriers) :
    (∀ m ∈ d.asyncMethods,
      m.signature.extent.start < m.extent.stop ∧ m.extent.stop ≤ text.length) ∧
    (d.asyncMethods.Pairwise fun a b => a.extent.stop ≤ b.signature.extent.start) ∧
    ∀ e, d.expand options carriers = .ok e → ∃ rewrites : List MethodRewrite,
      rewrites.map MethodRewrite.method = d.asyncMethods ∧
      e.methods = rewrites.map MethodRewrite.decision ∧
      e.methods.map Decision.name = d.asyncMethods.map (·.signature.name) ∧
      (∀ r ∈ rewrites, r.Generated d options carriers) ∧
      Text.Spliced 0 text.toList (rewrites.map MethodRewrite.patch) e.text.toList ∧
      (d.asyncMethods = [] → e.text = text) := by
  have row := read_asyncMethods read
  refine ⟨fun m listed => (row.within m listed).2, row.apart, ?_⟩
  intro e done
  obtain ⟨rewrites, methods, decisions, result, generated⟩ := expand_ok done
  rw [(read_methods read).1] at result
  refine ⟨rewrites, methods, decisions, ?_, generated, ?_, ?_⟩
  · rw [decisions, ← methods, List.map_map, List.map_map]
    exact List.map_congr_left fun r listed => decideMethod_name (generated r listed).decided
  · rw [result]
    exact rewrites_spliced row methods
  · intro none
    rw [none, List.map_eq_nil_iff] at methods
    rw [result, methods, List.map_nil, Text.patched_nil]

def mixedText : String :=
  "trait A \x7b\n  /// f\n  async fn f(&self);\n  fn g(); // g\n  async fn h() \x7b\x7d\n\x7d"

theorem expand_replaces_async_methods_mixed : ∃ d, Declaration.read mixedText = .ok d ∧
    ∃ e, d.expand ⟨false⟩ [] = .ok e ∧ ∃ patches, patches.length = 2 ∧
      Text.Spliced 0 mixedText.toList patches e.text.toList := by
  have accepted : (Declaration.read mixedText).toOption.any fun d =>
      d.asyncMethods.length = 2 ∧ (d.expand ⟨false⟩ []).toOption.isSome := by decide +kernel
  obtain ⟨d, found, facts⟩ := (Option.any_eq_true _ _).mp accepted
  obtain ⟨two, expanded⟩ := of_decide_eq_true facts
  have read := toOption_eq_some found
  obtain ⟨e, result⟩ := Option.isSome_iff_exists.mp expanded
  have done := toOption_eq_some result
  obtain ⟨rewrites, methods, _, _, _, spliced, _⟩ :=
    (expand_replaces_async_methods read ⟨false⟩ []).2.2 e done
  have count := congrArg List.length methods
  rw [List.length_map, two] at count
  exact ⟨d, read, e, done, _, by rw [List.length_map, count], spliced⟩

end Deasync
