import Deasync.Proofs.Capture.Scope
import Deasync.Proofs.MethodExpansion

namespace Deasync

open Grammar

theorem freshScope_length (taken : List String) : callScope.length ≤ (freshScope taken).length := by
  rcases freshScope_form taken with same | ⟨n, same⟩
  · rw [same]
  · rw [same, numberedScope, String.length_append]
    exact Nat.le_add_right _ _

def lifetimesOf (tokens : List Token) : List String :=
  (tokens.filter (·.kind = .lifetime)).map Token.text

def Declaration.lifetimes (d : Declaration) : List String :=
  (d.genericParams.filter (·.isLifetime)).map GenericParam.name

theorem lifetimesOf_shifted {offset : Nat} {tokens others : List Token}
    (shifted : List.Forall₂ (Token.Shifted offset) tokens others) :
    lifetimesOf others = lifetimesOf tokens := by
  induction shifted with
  | nil => rfl
  | @cons a b tokens others same _ ih =>
    unfold lifetimesOf at ih ⊢
    rw [List.filter_cons, List.filter_cons, same.kind]
    split
    · rw [List.map_cons, List.map_cons, ih, same.text]
    · exact ih

variable {text : String}

theorem takenLifetimes_eq {d : Declaration} {m : Method} {front own after : List Token}
    (lexed : lex text = .ok (front ++ own ++ after)) (source : d.source = text)
    (covers : m.Covers own) : takenLifetimes d m = .ok (d.lifetimes ++ lifetimesOf own) := by
  obtain ⟨first, begins, start⟩ := covers.begins
  obtain ⟨last, ends, stop⟩ := covers.ends
  obtain ⟨others, alone, shifted⟩ := lex_slice lexed begins ends
  rw [takenLifetimes, source, start, stop, alone, ← lifetimesOf_shifted shifted]
  rfl

-- A lifetime of a call, and the tokens it has to keep apart from.
structure FreshFor (d : Declaration) (header own : List Token) (scope : String) : Prop where
  method : scope ∉ lifetimesOf own
  declared : scope ∉ d.lifetimes
  header : (∀ name ∈ lifetimesOf header, name ∈ d.lifetimes ∨ name ∈ lifetimesOf own ∨
    name = "'static" ∨ name = placeholder) → scope ∉ lifetimesOf header

theorem freshFor_freshScope (d : Declaration) (header own : List Token) (others : List String) :
    FreshFor d header own (freshScope (d.lifetimes ++ lifetimesOf own ++ others)) := by
  have fresh := freshScope_not_mem (d.lifetimes ++ lifetimesOf own ++ others)
  have long := freshScope_length (d.lifetimes ++ lifetimesOf own ++ others)
  rw [List.mem_append, List.mem_append, not_or, not_or] at fresh
  obtain ⟨⟨declared, method⟩, _⟩ := fresh
  refine ⟨method, declared, fun known listed => ?_⟩
  rcases known _ listed with here | here | same | same
  · exact declared here
  · exact method here
  · rw [same] at long
    exact absurd long (by decide)
  · exact freshScope_ne_placeholder _ same

theorem decideMethod_fresh {d : Declaration} {options : Options} {carriers : Carriers} {m : Method}
    {decision : Decision} {front own after : List Token} (header : List Token)
    (lexed : lex text = .ok (front ++ own ++ after)) (source : d.source = text)
    (covers : m.Covers own) (decided : decideMethod d options carriers m = .ok decision) :
    FreshFor d header own decision.captured.scope := by
  obtain ⟨taken, found, rest⟩ := bind_eq_ok_iff.mp decided
  obtain ⟨captured, done, last⟩ := bind_eq_ok_iff.mp rest
  cases found.symm.trans (takenLifetimes_eq lexed source covers)
  obtain ⟨_, scope, _⟩ := capture_eq_ok_iff.mp done
  cases last
  rw [scope]
  exact freshFor_freshScope d header own m.signature.lifetimes

theorem members_method {w : List Token} {members : List Member} {m : Method}
    (derived : declarations.Derives text .members w members)
    (listed : m ∈ members.filterMap Member.method?) : ∃ front own after, w = front ++ own ++ after ∧
      declarations.Derives text .method own m := by
  -- on the number of tokens: each member takes at least one
  induction length : w.length using Nat.strongRecOn generalizing w members with
  | ind count ih =>
    obtain ⟨p, either, vs, all, rfl⟩ := derives_def.mp derived
    rcases List.mem_pair.mp either with rfl | rfl
    · cases listed
    · obtain ⟨x, u, rfl, first, rest⟩ := derivesAll_cons all
      obtain ⟨y, none, rfl, later, rest⟩ := derivesAll_cons rest
      obtain rfl := derivesAll_nil rest
      rw [List.append_nil] at *
      have shown := derivesSym_ref first
      have filled := spells_length_pos (by decide) shown.spells
      rw [List.length_append] at length
      obtain ⟨q, sort, values, only, same⟩ := derives_def.mp shown
      change m ∈ (vs.1 :: vs.2.1).filterMap Member.method? at listed
      rw [← same] at listed
      have onward (behind : m ∈ vs.2.1.filterMap Member.method?) :
          ∃ front own after, x ++ y = front ++ own ++ after ∧
            declarations.Derives text .method own m := by
        obtain ⟨front, own, after, split, found⟩ :=
          ih y.length (by omega) (derivesSym_ref later) behind rfl
        exact ⟨x ++ front, own, after, by rw [split]; simp, found⟩
      rcases List.mem_pair.mp sort with rfl | rfl
      · obtain ⟨own, none, rfl, method, rest⟩ := derivesAll_cons only
        obtain rfl := derivesAll_nil rest
        rcases List.mem_cons.mp listed with rfl | listed
        · exact ⟨[], own, y, by simp, derivesSym_ref method⟩
        · exact onward listed
      · exact onward listed

-- The tokens of a declaration: its head with the opening brace, and its members.
theorem declaration_parts {w : List Token} {d : Declaration}
    (derived : declarations.Derives text .declaration w d) : ∃ header members, w = header ++ members ∧
      (declarations.SpellsAll traitHeader (kindsOf header) ∨
        declarations.SpellsAll implHeader (kindsOf header)) ∧
      declarations.Derives text .members members d.members := by
  obtain ⟨p, listed, vs, all, rfl⟩ := derives_def.mp derived
  rcases List.mem_pair.mp listed with rfl | rfl
  · obtain ⟨x, y, rfl, header, members⟩ := derivesAll_last (n := .members) (f := traitHeader) all
    exact ⟨x, y, rfl, .inl header, members⟩
  · obtain ⟨x, y, rfl, header, members⟩ := derivesAll_last (n := .members) (f := implHeader) all
    exact ⟨x, y, rfl, .inr header, members⟩

theorem scope_fresh {d : Declaration} {options : Options} {carriers : Carriers} {e : Expanded}
    (read : Declaration.read text = .ok d) (done : d.expand options carriers = .ok e) :
    ∃ header members, lex text = .ok (header ++ members) ∧
      (declarations.SpellsAll traitHeader (kindsOf header) ∨
        declarations.SpellsAll implHeader (kindsOf header)) ∧
      declarations.Derives text .members members d.members ∧
      List.Forall₂ (fun m decision => ∃ front own after, members = front ++ own ++ after ∧
        m.Covers own ∧ FreshFor d header own decision.captured.scope) d.asyncMethods e.methods := by
  obtain ⟨tokens, lexed, _, found, _⟩ := Declaration.read_eq_ok_iff.mp read
  have derived := ((read_eq_ok_iff declarations_ranked).mp found).derives
  obtain ⟨header, members, rfl, head, shown⟩ := declaration_parts derived
  refine ⟨header, members, lexed, head, shown, ?_⟩
  obtain ⟨rewrites, methods, decisions, _, generated⟩ := expand_ok done
  rw [← methods, decisions, List.forall₂_map_left_iff, List.forall₂_map_right_iff,
    List.forall₂_same]
  intro r listed
  have present : r.method ∈ d.asyncMethods := methods ▸ List.mem_map_of_mem listed
  obtain ⟨front, whole, after, split, method⟩ := members_method shown (List.mem_filter.mp present).1
  obtain ⟨attributes, own, rfl, covers⟩ := method_covers method
  refine ⟨front ++ attributes, own, after, by rw [split]; simp, covers, ?_⟩
  have row : header ++ members = header ++ front ++ attributes ++ own ++ after := by
    rw [split]
    simp
  rw [row] at lexed
  exact decideMethod_fresh header lexed (read_methods read).1 covers (generated r listed).decided

def crowdedText : String :=
  "impl<'async_trait> A<'async_trait> \x7b async fn f<'async_trait1>() " ++
    "\x7b 'async_trait2: loop \x7b\x7d \x7d \x7d"

theorem scope_fresh_crowded : ∃ d e, Declaration.read crowdedText = .ok d ∧
    d.expand ⟨false⟩ [] = .ok e ∧ e.methods.map (·.captured.scope) = ["'async_trait3"] ∧
    ∃ header members, lex crowdedText = .ok (header ++ members) ∧
      (declarations.SpellsAll traitHeader (kindsOf header) ∨
        declarations.SpellsAll implHeader (kindsOf header)) ∧
      declarations.Derives crowdedText .members members d.members ∧
      List.Forall₂ (fun m decision => ∃ front own after, members = front ++ own ++ after ∧
        m.Covers own ∧ FreshFor d header own decision.captured.scope) d.asyncMethods e.methods := by
  have accepted : (Declaration.read crowdedText).toOption.any fun d =>
      (d.expand ⟨false⟩ []).toOption.any fun e =>
        e.methods.map (·.captured.scope) = ["'async_trait3"] := by decide +kernel
  obtain ⟨d, found, expanded⟩ := (Option.any_eq_true _ _).mp accepted
  obtain ⟨e, result, scopes⟩ := (Option.any_eq_true _ _).mp expanded
  have read := toOption_eq_some found
  have done := toOption_eq_some result
  exact ⟨d, e, read, done, of_decide_eq_true scopes, scope_fresh read done⟩

def boundText : String :=
  "trait A where for<'async_trait> B: C<'async_trait> \x7b async fn f(&self); \x7d"

-- A lifetime that the head of the declaration binds itself is not avoided.
theorem scope_captures_bound : ∃ d e tokens, Declaration.read boundText = .ok d ∧
    d.expand ⟨false⟩ [] = .ok e ∧ lex boundText = .ok tokens ∧
    ∃ t ∈ tokens, t.kind = .lifetime ∧ (∀ m ∈ d.members, ∃ method, m.method? = some method ∧
      t.extent.stop ≤ method.extent.start) ∧ e.methods.map (·.captured.scope) = [t.text] := by
  have accepted : (Declaration.read boundText).toOption.any fun d =>
      (d.expand ⟨false⟩ []).toOption.any fun e => (lex boundText).toOption.any fun tokens =>
        tokens.any fun t => t.kind = .lifetime ∧
          (d.members.all fun m => m.method?.any fun method => t.extent.stop ≤ method.extent.start) ∧
            e.methods.map (·.captured.scope) = [t.text] := by decide +kernel
  obtain ⟨d, found, rest⟩ := (Option.any_eq_true _ _).mp accepted
  obtain ⟨e, result, rest⟩ := (Option.any_eq_true _ _).mp rest
  obtain ⟨tokens, lexed, rest⟩ := (Option.any_eq_true _ _).mp rest
  obtain ⟨t, listed, facts⟩ := List.any_eq_true.mp rest
  obtain ⟨kind, ahead, scopes⟩ := of_decide_eq_true facts
  refine ⟨d, e, tokens, toOption_eq_some found, toOption_eq_some result, toOption_eq_some lexed, t,
    listed, kind, fun m present => ?_, scopes⟩
  obtain ⟨method, same, less⟩ := (Option.any_eq_true _ _).mp (List.all_eq_true.mp ahead m present)
  exact ⟨method, same, of_decide_eq_true less⟩

end Deasync
