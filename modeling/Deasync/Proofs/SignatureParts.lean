import Deasync.Proofs.Capture.Fresh
import Deasync.Proofs.FaultPlaces
import Deasync.Proofs.OutlineLayout

namespace Deasync

open Grammar Rules

variable {text : String}

section

variable {N : Type} {G : Grammar N}

def Values.drop {V : N → Type} : (k : Nat) → {rhs : List (Sym N)} → Values V rhs →
    Values V (rhs.drop k)
  | 0, _, vs => vs
  | _ + 1, [], vs => vs
  | k + 1, _ :: _, vs => Values.drop k vs.2

-- The last symbols of a right-hand side stand for the last tokens.
theorem derivesAll_drop (k : Nat) {rhs : List (Sym N)} {w : List Token} {vs : Values G.Val rhs}
    (all : G.DerivesAll text rhs w vs) :
    ∃ later, later <:+ w ∧ G.DerivesAll text (rhs.drop k) later (vs.drop k) := by
  induction k generalizing rhs w with
  | zero => exact ⟨w, List.suffix_refl w, all⟩
  | succ k ih =>
    cases rhs with
    | nil => exact ⟨w, List.suffix_refl w, all⟩
    | cons s rest =>
      obtain ⟨front, behind, rfl, _, more⟩ := derivesAll_cons all
      obtain ⟨later, suffix, found⟩ := ih more
      exact ⟨later, suffix.trans (List.suffix_append front behind), found⟩

end

theorem path_extent {w : List Token} {p : Path} (derived : declarations.Derives text .path w p) :
    p.extent = .covering w := by
  obtain ⟨q, listed, vs, _, rfl⟩ := derives_def.mp derived
  rcases List.mem_pair.mp listed with rfl | rfl <;> rfl

theorem qualifiedPath_extent {w : List Token} {p : Path}
    (derived : declarations.Derives text .qualifiedPath w p) : p.extent = .covering w := by
  obtain ⟨q, listed, vs, _, rfl⟩ := derives_def.mp derived
  rcases List.mem_pair.mp listed with rfl | rfl <;> rfl

theorem functionPointer_extent {w : List Token} {ty : Ty}
    (derived : declarations.Derives text .functionPointer w ty) : ty.extent = .covering w := by
  obtain ⟨q, listed, vs, _, rfl⟩ := derives_def.mp derived
  obtain rfl := List.mem_singleton.mp listed
  rfl

theorem derivesAll_single {n : Nonterminal} {w : List Token} {vs : Values declarations.Val [.ref n]}
    (all : declarations.DerivesAll text [.ref n] w vs) : declarations.Derives text n w vs.1 := by
  obtain ⟨own, none, rfl, only, rest⟩ := derivesAll_cons all
  obtain rfl := derivesAll_nil rest
  rw [List.append_nil]
  exact derivesSym_ref only

theorem plainType_extent {w : List Token} {ty : Ty}
    (derived : declarations.Derives text .plainType w ty) : ty.extent = .covering w := by
  obtain ⟨(q : Rule .plainType), listed, vs, all, rfl⟩ := derives_def.mp derived
  have member : q ∈ plainTypeRules := listed
  simp only [plainTypeRules, List.mem_cons, List.not_mem_nil, or_false] at member
  rcases member with rfl | rfl | rfl | rfl | rfl | rfl | rfl | rfl | rfl | rfl | rfl | rfl | rfl | rfl |
    rfl
  all_goals first
    | rfl
    | exact path_extent (derivesAll_single all)
    | exact qualifiedPath_extent (derivesAll_single all)
    | exact functionPointer_extent (derivesAll_single all)

theorem type_extent {w : List Token} {ty : Ty} (derived : declarations.Derives text .type w ty) :
    ty.extent = .covering w := by
  obtain ⟨(q : Rule .type), listed, vs, all, rfl⟩ := derives_def.mp derived
  have member : q ∈ typeRules := listed
  simp only [typeRules, List.mem_cons, List.not_mem_nil, or_false] at member
  rcases member with rfl | rfl | rfl
  · exact plainType_extent (derivesAll_single all)
  · rfl
  · rfl

theorem param_extent {w : List Token} {p : Param} (derived : declarations.Derives text .param w p) :
    p.extent = .covering w := by
  obtain ⟨q, listed, vs, _, rfl⟩ := derives_def.mp derived
  obtain rfl := List.mem_singleton.mp listed
  rfl

theorem selfParam_extent {w : List Token} {r : SelfParam}
    (derived : declarations.Derives text .selfParam w r) : r.extent = .covering w := by
  obtain ⟨(q : Rule .selfParam), listed, vs, _, rfl⟩ := derives_def.mp derived
  have member : q ∈ selfParamRules := listed
  simp only [selfParamRules, List.mem_cons, List.not_mem_nil, or_false] at member
  rcases member with rfl | rfl | rfl <;> rfl

-- The receiver, a parameter or the output of a signature, with its tokens and its extent.
inductive Signature.Part (text : String) (s : Signature) : List Token → Extent → Prop where
  | receiver {own : List Token} {r : SelfParam} : s.receiver = some r →
      declarations.Derives text .selfParam own r → Part text s own r.extent
  | param {own : List Token} {p : Param} : p ∈ s.params → declarations.Derives text .param own p →
      Part text s own p.extent
  | output {own : List Token} {ty : Ty} : s.output = some ty →
      declarations.Derives text .type own ty → Part text s own ty.extent

theorem Grammar.Derives.spans {n : Nonterminal} {own : List Token} {v : declarations.Val n} {extent : Extent}
    (derived : declarations.Derives text n own v) (visible : n ≠ .outerAttributes)
    (same : extent = .covering own) : Spans own extent.start extent.stop := by
  have filled : own ≠ [] := List.length_pos_iff.mp (spells_length_pos visible derived.spells)
  obtain ⟨first, last, begins, ends⟩ := exists_ends filled
  rw [same, Extent.covering_of begins ends]
  exact ⟨first, last, begins, ends, rfl, rfl⟩

theorem Signature.Part.spans {s : Signature} {own : List Token} {extent : Extent}
    (part : s.Part text own extent) : Spans own extent.start extent.stop := by
  cases part with
  | receiver _ derived => exact derived.spans (by decide) (selfParam_extent derived)
  | param _ derived => exact derived.spans (by decide) (param_extent derived)
  | output _ derived => exact derived.spans (by decide) (type_extent derived)

theorem paramList_param {w : List Token} {params : List Param} {p : Param}
    (derived : declarations.Derives text .paramList w params) (listed : p ∈ params) :
    ∃ own, own <:+: w ∧ declarations.Derives text .param own p := by
  -- on the number of tokens: each parameter takes at least one
  induction length : w.length using Nat.strongRecOn generalizing w params with
  | ind count ih =>
    obtain ⟨(q : Rule .paramList), either, vs, all, rfl⟩ := derives_def.mp derived
    have member : q ∈ paramListRules := either
    simp only [paramListRules, List.mem_cons, List.not_mem_nil, or_false] at member
    rcases member with rfl | rfl | rfl
    · obtain ⟨x, behind, rfl, first, rest⟩ := derivesAll_cons all
      have shown := derivesSym_ref first
      rcases List.mem_cons.mp listed with rfl | later
      · exact ⟨x, (List.prefix_append x behind).isInfix, shown⟩
      · obtain ⟨comma, y, rfl, _, others⟩ := derivesAll_cons rest
        have filled := spells_length_pos (by decide) shown.spells
        rw [List.length_append, List.length_append] at length
        obtain ⟨own, inside, found⟩ := ih y.length (by omega) (derivesAll_single others) later rfl
        have suffix : y <:+ x ++ (comma ++ y) := ⟨x ++ comma, List.append_assoc x comma y⟩
        exact ⟨own, inside.trans suffix.isInfix, found⟩
    · obtain ⟨x, behind, rfl, first, _⟩ := derivesAll_cons all
      obtain rfl := List.mem_singleton.mp listed
      exact ⟨x, (List.prefix_append x behind).isInfix, derivesSym_ref first⟩
    · obtain rfl := List.mem_singleton.mp listed
      exact ⟨w, List.infix_refl w, derivesAll_single all⟩

theorem params_part {w : List Token} {v : Option SelfParam × List Param}
    (derived : declarations.Derives text .params w v) :
    (∀ r, v.1 = some r → ∃ own, own <:+: w ∧ declarations.Derives text .selfParam own r) ∧
      ∀ p ∈ v.2, ∃ own, own <:+: w ∧ declarations.Derives text .param own p := by
  obtain ⟨(q : Rule .params), listed, vs, all, rfl⟩ := derives_def.mp derived
  have member : q ∈ paramsRules := listed
  simp only [paramsRules, List.mem_cons, List.not_mem_nil, or_false] at member
  rcases member with rfl | rfl | rfl | rfl
  · obtain ⟨x, behind, rfl, first, _⟩ := derivesAll_cons all
    obtain ⟨later, suffix, rest⟩ := derivesAll_drop 2 all
    refine ⟨?_, fun p among => ?_⟩
    · rintro r ⟨⟩
      exact ⟨x, (List.prefix_append x behind).isInfix, derivesSym_ref first⟩
    · obtain ⟨own, inside, found⟩ := paramList_param (derivesAll_single rest) among
      exact ⟨own, inside.trans suffix.isInfix, found⟩
  · obtain ⟨x, behind, rfl, first, _⟩ := derivesAll_cons all
    refine ⟨?_, fun p among => absurd among List.not_mem_nil⟩
    rintro r ⟨⟩
    exact ⟨x, (List.prefix_append x behind).isInfix, derivesSym_ref first⟩
  · refine ⟨?_, fun p among => absurd among List.not_mem_nil⟩
    rintro r ⟨⟩
    exact ⟨w, List.infix_refl w, derivesAll_single all⟩
  · exact ⟨by rintro r ⟨⟩, fun p among => paramList_param (derivesAll_single all) among⟩

-- Receiver, parameters and output stand in tokens of the signature.
theorem signature_places {w : List Token} {s : Signature}
    (derived : declarations.Derives text .signature w s) :
    (∀ r, s.receiver = some r → ∃ own, own <:+: w ∧ declarations.Derives text .selfParam own r) ∧
      (∀ p ∈ s.params, ∃ own, own <:+: w ∧ declarations.Derives text .param own p) ∧
      ∀ ty, s.output = some ty → ∃ own, own <:+: w ∧ declarations.Derives text .type own ty := by
  obtain ⟨p, only, vs, all, rfl⟩ := derives_def.mp derived
  obtain rfl := List.mem_singleton.mp only
  -- the parameters are the eleventh symbol, the output is the thirteenth
  obtain ⟨later, suffix, rest⟩ := derivesAll_drop 10 all
  obtain ⟨last, close, ending⟩ := derivesAll_drop 12 all
  obtain ⟨x, behind, rfl, params, _⟩ := derivesAll_cons rest
  obtain ⟨y, final, rfl, output, _⟩ := derivesAll_cons ending
  have front := (List.prefix_append x behind).isInfix.trans suffix.isInfix
  have back := (List.prefix_append y final).isInfix.trans close.isInfix
  have parts := derivesSym_maybe params
  refine ⟨fun r found => ?_, fun p found => ?_, fun ty found => ?_⟩
  · have found : Option.bind (vs.drop 10).1 Prod.fst = some r := found
    rcases parts with ⟨_, none⟩ | ⟨v, some, inner⟩
    · rw [none] at found
      cases found
    · rw [some] at found
      obtain ⟨own, inside, read⟩ := (params_part (derivesSym_ref inner)).1 r found
      exact ⟨own, inside.trans front, read⟩
  · have found : p ∈ (Option.map Prod.snd (vs.drop 10).1).getD [] := found
    rcases parts with ⟨_, none⟩ | ⟨v, some, inner⟩
    · rw [none] at found
      cases found
    · rw [some] at found
      obtain ⟨own, inside, read⟩ := (params_part (derivesSym_ref inner)).2 p found
      exact ⟨own, inside.trans front, read⟩
  · have found : (vs.drop 12).1 = some ty := found
    rcases derivesSym_maybe output with ⟨_, none⟩ | ⟨v, some, inner⟩
    · cases none.symm.trans found
    · cases some.symm.trans found
      obtain ⟨q, arrow, us, each, same⟩ := derives_def.mp (derivesSym_ref inner)
      obtain rfl := List.mem_singleton.mp arrow
      obtain ⟨own, behind, read⟩ := derivesAll_drop 1 each
      exact ⟨own, behind.isInfix.trans back, same ▸ derivesAll_single read⟩

theorem mem_hiddenAt {s : Signature} {carriers : Carriers} {extent : Extent}
    {found : Option (String × Nat)} (listed : (extent, found) ∈ s.hiddenAt carriers) :
    (∃ r, s.receiver = some r ∧ extent = r.extent) ∨ (∃ p ∈ s.params, extent = p.extent) ∨
      ∃ ty, s.output = some ty ∧ extent = ty.extent := by
  rw [Signature.hiddenAt, List.mem_append, List.mem_append] at listed
  rcases listed with (listed | listed) | listed
  · obtain ⟨r, present, same⟩ := List.mem_map.mp listed
    exact .inl ⟨r, Option.mem_toList.mp present, (congrArg Prod.fst same).symm⟩
  · obtain ⟨p, present, same⟩ := List.mem_map.mp listed
    exact .inr (.inl ⟨p, present, (congrArg Prod.fst same).symm⟩)
  · obtain ⟨ty, present, same⟩ := List.mem_map.mp listed
    exact .inr (.inr ⟨ty, Option.mem_toList.mp present, (congrArg Prod.fst same).symm⟩)

-- A hidden borrow that is reported at the part of the signature it is in.
def Fault.HidesIn (text : String) (s : Signature) (fault : Fault) : Prop :=
  ∃ name arity extent front own after, fault = ⟨.hiddenBorrow name arity, .ofExtent extent⟩ ∧
    lex text = .ok (front ++ own ++ after) ∧ s.Part text own extent

theorem capture_hides {tokens w : List Token} {s : Signature} (lexed : lex text = .ok tokens)
    (inside : w <:+: tokens) (derived : declarations.Derives text .signature w s)
    (around : Surroundings) : Fails (Fault.HidesIn text s) (s.capture around) := by
  obtain ⟨receiver, params, output⟩ := signature_places derived
  unfold Signature.capture
  extract_lets scope
  split
  · rename_i fault found
    obtain ⟨⟨extent, hidden⟩, listed, kept⟩ := List.exists_of_findSome?_eq_some found
    obtain ⟨⟨name, arity⟩, _, rfl⟩ := Option.map_eq_some_iff.mp kept
    have placed : ∃ own, own <:+: w ∧ s.Part text own extent := by
      rcases mem_hiddenAt listed with ⟨r, given, rfl⟩ | ⟨p, given, rfl⟩ | ⟨ty, given, rfl⟩
      · obtain ⟨own, within, read⟩ := receiver r given
        exact ⟨own, within, .receiver given read⟩
      · obtain ⟨own, within, read⟩ := params p given
        exact ⟨own, within, .param given read⟩
      · obtain ⟨own, within, read⟩ := output ty given
        exact ⟨own, within, .output given read⟩
    obtain ⟨own, within, part⟩ := placed
    obtain ⟨front, after, split⟩ := within.trans inside
    exact .error ⟨name, arity, extent, front, own, after, rfl, split ▸ lexed, part⟩
  · exact .ok _

theorem method_signature {w : List Token} {m : Method}
    (derived : declarations.Derives text .method w m) :
    ∃ own, own <:+: w ∧ declarations.Derives text .signature own m.signature := by
  obtain ⟨p, only, vs, all, rfl⟩ := derives_def.mp derived
  obtain rfl := List.mem_singleton.mp only
  obtain ⟨later, suffix, rest⟩ := derivesAll_drop 1 all
  obtain ⟨own, body, rfl, signature, _⟩ := derivesAll_cons rest
  exact ⟨own, (List.prefix_append own body).isInfix.trans suffix.isInfix, derivesSym_ref signature⟩

-- An async method that was read is refused for a hidden borrow only.
theorem decideMethod_hides {d : Declaration} {m : Method} (read : Declaration.read text = .ok d)
    (listed : m ∈ d.asyncMethods) (options : Options) (carriers : Carriers) :
    Fails (Fault.HidesIn text m.signature) (decideMethod d options carriers m) := by
  obtain ⟨tokens, lexed, _, found, _⟩ := Declaration.read_eq_ok_iff.mp read
  have derived := ((read_eq_ok_iff declarations_ranked).mp found).derives
  obtain ⟨header, members, rfl, _, shown⟩ := declaration_parts derived
  obtain ⟨front, whole, after, rfl, method⟩ := members_method shown (List.mem_filter.mp listed).1
  obtain ⟨signature, inside, written⟩ := method_signature method
  obtain ⟨attributes, own, rfl, covers⟩ := method_covers method
  have row : header ++ (front ++ (attributes ++ own) ++ after) =
      header ++ front ++ attributes ++ own ++ after := by simp
  have taken := takenLifetimes_eq (row ▸ lexed) (read_methods read).1 covers
  have within : attributes ++ own <:+: header ++ (front ++ (attributes ++ own) ++ after) :=
    ⟨header ++ front, after, by simp⟩
  rw [decideMethod, taken]
  exact (Fails.ok _).bind fun _ _ =>
    (capture_hides lexed (inside.trans within) written _).bind fun _ _ => .ok _

end Deasync
