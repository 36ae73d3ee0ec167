import Deasync.Proofs.Elements
import Deasync.Proofs.SignatureParts

namespace Deasync

open Grammar Rules

variable {text : String} {Known : Element → List Token → Prop}

namespace Stands

theorem fits {x : Element} {own : List Token} (stands : Stands text Known x own) : x.Fits text own := by
  cases stands with
  | mk fits => exact fits

theorem known {x : Element} {own : List Token} (stands : Stands text Known x own) : Known x own := by
  cases stands with
  | mk _ known => exact known

theorem inside {x : Element} {own : List Token} (stands : Stands text Known x own) :
    StandEach text Known x.inside own := by
  cases stands with
  | mk _ _ inside => exact inside

end Stands

theorem StandEach.mem {xs : List Element} {x : Element} {own : List Token}
    (each : StandEach text Known xs own) (listed : x ∈ xs) :
    ∃ part, part <:+: own ∧ Stands text Known x part := by
  induction xs generalizing own with
  | nil => cases listed
  | cons y ys ih =>
    cases each with
    | @cons _ _ gap here later first rest =>
      rcases List.mem_cons.mp listed with rfl | behind
      · exact ⟨here, ⟨gap, later, by simp⟩, first⟩
      · obtain ⟨part, within, stands⟩ := ih rest behind
        exact ⟨part, within.trans ⟨gap ++ here, [], by simp⟩, stands⟩

theorem Stands.within {x y : Element} {own : List Token} (stands : Stands text Known x own)
    (within : y.Within x) : ∃ part, part <:+: own ∧ Stands text Known y part := by
  induction within generalizing own with
  | self => exact ⟨own, List.infix_rfl, stands⟩
  | part listed _ ih =>
    obtain ⟨outer, around, standing⟩ := stands.inside.mem listed
    obtain ⟨part, inner, found⟩ := ih standing
    exact ⟨part, inner.trans around, found⟩

theorem InRow.along {start stop : Nat} {tokens part : List Token} (row : InRow start stop tokens)
    (within : part <:+: tokens) : InRow start stop part :=
  row.sublist within.sublist

theorem InRow.ends_last {start stop : Nat} {tokens : List Token} {last token : Token}
    (row : InRow start stop tokens) (ends : tokens.getLast? = some last) (listed : token ∈ tokens) :
    token.extent.stop ≤ last.extent.stop := by
  obtain ⟨front, rfl⟩ := List.getLast?_eq_some_iff.mp ends
  rcases List.mem_append.mp listed with before | here
  · have apart := (List.pairwise_append.mp row.apart).2.2 token before last (.head _)
    have filled := row.filled last (List.mem_append_right front (.head _))
    omega
  · rw [List.mem_singleton.mp here]

theorem InRow.tight {least most start stop : Nat} {own : List Token} (row : InRow least most own)
    (spans : Spans own start stop) : InRow start stop own := by
  obtain ⟨first, last, begins, ends, rfl, rfl⟩ := spans
  exact ⟨row.apart, row.filled, fun _ => row.begins begins, fun _ => row.ends_last ends⟩

theorem Element.Fits.spans {x : Element} {own : List Token} {extent : Extent} (fits : x.Fits text own)
    (given : x.extent? = some extent) : Spans own extent.start extent.stop := by
  obtain ⟨first, last, begins, ends⟩ := exists_ends fits.filled
  rw [fits.covers extent given, Extent.covering_of begins ends]
  exact ⟨first, last, begins, ends, rfl, rfl⟩

namespace Element

-- What an element says of its tokens: its extent goes from the first of them to the last, and the text that it
-- keeps is what stands there and lexes to these tokens again.
def Faithful (text : String) (x : Element) (own : List Token) : Prop :=
  ∃ first last, own.head? = some first ∧ own.getLast? = some last ∧
    first.extent.start < last.extent.stop ∧
    (∀ extent, x.extent? = some extent → extent = first.extent.to last.extent) ∧
    ∀ kept, x.kept? = some kept → kept = Text.slice text first.extent.start last.extent.stop ∧
      ∃ again, lex kept = .ok again ∧ List.Forall₂ (Token.Shifted first.extent.start) own again

-- The tokens of an element are those that its nonterminal is read from, at some place in the reading of the
-- whole declaration.
def ReadFrom (text : String) (tokens : List Token) (d : Declaration) (x : Element) (own : List Token) : Prop :=
  ∃ n v, isNode n ∧ x ∈ readAs n v ∧ declarations.Occurs text own v .declaration tokens d

def Encloses (outer inner : Element) : Prop :=
  ∀ wide narrow : Extent, outer.extent? = some wide → inner.extent? = some narrow →
    wide.start ≤ narrow.start ∧ narrow.stop ≤ wide.stop

-- Whatever is in the one ends before anything in the other begins.
def Precedes (a b : Element) : Prop :=
  ∀ x y : Element, x.Within a → y.Within b → ∀ left right : Extent,
    x.extent? = some left → y.extent? = some right → left.stop ≤ right.start

end Element

theorem Element.Fits.faithful {x : Element} {tokens own : List Token} (lexed : lex text = .ok tokens)
    (fits : x.Fits text own) (within : own <:+: tokens) : x.Faithful text own := by
  obtain ⟨first, last, begins, ends⟩ := exists_ends fits.filled
  have spans : Spans own first.extent.start last.extent.stop := ⟨first, last, begins, ends, rfl, rfl⟩
  have covering := Extent.covering_of begins ends
  refine ⟨first, last, begins, ends, ?_, fun extent given => ?_, fun kept given => ?_⟩
  · exact (spans.bounds ((lex_inRow lexed).along within)).2.1
  · rw [fits.covers extent given, covering]
  · have slice : kept = Text.slice text first.extent.start last.extent.stop := by
      rw [fits.words kept given, wording, covering]
      rfl
    obtain ⟨before, after, rfl⟩ := within
    exact ⟨slice, slice ▸ lex_slice lexed begins ends⟩

-- Whatever a nonterminal is read as fits all its tokens.
theorem Element.ReadFrom.fits {tokens own : List Token} {d : Declaration} {x : Element}
    (readFrom : x.ReadFrom text tokens d own) : own <:+: tokens ∧ x.Fits text own := by
  obtain ⟨n, v, node, listed, occurs⟩ := readFrom
  obtain ⟨within, derived⟩ := occurs.split
  refine ⟨within, ?_⟩
  have each : ∀ x ∈ elements n v, Stands text (fun _ _ => True) x own :=
    (derived.stands fun _ _ _ _ _ _ _ => trivial).2 node
  rcases List.mem_append.mp listed with own | twin
  · exact (each x own).fits
  · obtain ⟨y, outer, twin⟩ := List.mem_flatMap.mp twin
    exact (each y outer).fits.twin twin

theorem Grammar.Derives.declared {tokens : List Token} {d : Declaration}
    (derived : declarations.Derives text .declaration tokens d) :
    Stands text (Element.ReadFrom text tokens d) (.declaration d) tokens :=
  (derived.stands fun n _ v occurs node _ listed => ⟨n, v, node, listed, occurs⟩).2 rfl _ (.head _)

theorem Stands.encloses {x y : Element} {own : List Token} {least most : Nat}
    (stands : Stands text Known x own) (row : InRow least most own) (within : y.Within x) :
    x.Encloses y := by
  intro wide narrow outer inner
  obtain ⟨part, around, standing⟩ := stands.within within
  have bounds := (standing.fits.spans inner).bounds ((row.tight (stands.fits.spans outer)).along around)
  exact ⟨bounds.1, bounds.2.2⟩

theorem StandEach.precedes {xs : List Element} {own : List Token} {least most : Nat}
    (each : StandEach text Known xs own) (row : InRow least most own) : xs.Pairwise Element.Precedes := by
  induction xs generalizing own with
  | nil => exact .nil
  | cons a xs ih =>
    cases each with
    | @cons _ _ gap here later first rest =>
      have parted := (List.pairwise_append.mp row.apart).2.1
      refine .cons (fun b listed x y inA inB left right extentX extentY => ?_)
        (ih rest (row.along ⟨gap ++ here, [], by simp⟩))
      obtain ⟨beside, among, standing⟩ := rest.mem listed
      obtain ⟨front, inFront, standsX⟩ := first.within inA
      obtain ⟨back, inBack, standsY⟩ := standing.within inB
      obtain ⟨_, last, _, ends, _, stop⟩ := standsX.fits.spans extentX
      obtain ⟨next, _, begins, _, start, _⟩ := standsY.fits.spans extentY
      rw [stop, start]
      exact (List.pairwise_append.mp parted).2.2 last (inFront.mem (List.mem_of_getLast? ends)) next
        ((inBack.trans among).mem (List.mem_of_head? begins))

theorem body_extent {w : List Token} {body : Option Block}
    (derived : declarations.Derives text .body w body) {b : Block} (given : body = some b) :
    b.extent = .covering w := by
  obtain ⟨p, either, vs, all, rfl⟩ := derives_def.mp derived
  rcases List.mem_pair.mp either with rfl | rfl
  · obtain rfl := Option.some.inj given
    obtain ⟨q, only, _, _, same⟩ := derives_def.mp (derivesAll_single all)
    obtain rfl := List.mem_singleton.mp only
    exact congrArg Block.extent same.symm
  · cases given

theorem method_stops {w : List Token} {m : Method} {b : Block}
    (derived : declarations.Derives text .method w m) (given : m.body = some b) :
    b.extent.stop = m.extent.stop := by
  obtain ⟨p, only, vs, all, rfl⟩ := derives_def.mp derived
  obtain rfl := List.mem_singleton.mp only
  obtain ⟨body, ⟨front, rfl⟩, rest⟩ := derivesAll_drop 2 all
  have written := derivesAll_single rest
  have filled := List.length_pos_iff.mp (spells_length_pos (by decide) written.spells)
  obtain ⟨_, last, begins, ends⟩ := exists_ends filled
  have whole : front ++ body ≠ [] := by simp [filled]
  obtain ⟨_, final, opens, closes⟩ := exists_ends whole
  have same : final = last := by
    rw [List.getLast?_append_of_ne_nil _ filled, ends] at closes
    exact (Option.some.inj closes).symm
  calc b.extent.stop
    _ = last.extent.stop := by rw [body_extent written given, Extent.covering_of begins ends]; rfl
    _ = (Extent.covering (front ++ body)).stop := by rw [Extent.covering_of opens closes, same]; rfl

theorem method_within {d : Declaration} {m : Method} (listed : m ∈ d.methods) :
    (Element.method m).Within (.declaration d) := by
  obtain ⟨member, present, same⟩ := List.mem_filterMap.mp listed
  cases member with
  | associated a => cases same
  | method m' =>
    obtain rfl := Option.some.inj same
    refine .part ?_ .self
    have among : Element.method m' ∈ d.members.map Element.member := List.mem_map_of_mem present
    exact List.mem_append_right _ (List.mem_append_right _ (List.mem_append_right _ among))

-- Every element stands on tokens of the text, those of its nonterminal, among the tokens of the element around it
-- and behind those of its elder siblings; and wherever an element is read, it is faithful to its tokens.
theorem declaration_extents {d : Declaration} (read : Declaration.read text = .ok d) :
    ∃ tokens, lex text = .ok tokens ∧
      Stands text (Element.ReadFrom text tokens d) (.declaration d) tokens ∧
      (∀ (x : Element) own, x.ReadFrom text tokens d own → own <:+: tokens ∧ x.Faithful text own) ∧
      (∀ x : Element, x.Within (.declaration d) → (∃ own, x.ReadFrom text tokens d own) ∧
        x.inside.Pairwise Element.Precedes ∧ ∀ y : Element, y.Within x → x.Encloses y) ∧
      ∀ m ∈ d.methods, (∀ b, m.body = some b → b.extent.stop = m.extent.stop) ∧
        ∀ a ∈ m.attributes, a.extent.stop ≤ m.signature.extent.start := by
  obtain ⟨tokens, lexed, _, found, _⟩ := Declaration.read_eq_ok_iff.mp read
  have derived := ((read_eq_ok_iff declarations_ranked).mp found).derives
  have row := lex_inRow lexed
  have placed : ∀ x : Element, x.Within (.declaration d) → (∃ own, x.ReadFrom text tokens d own) ∧
      x.inside.Pairwise Element.Precedes ∧ ∀ y : Element, y.Within x → x.Encloses y := by
    intro x within
    obtain ⟨own, among, standing⟩ := derived.declared.within within
    exact ⟨⟨own, standing.known⟩, standing.inside.precedes (row.along among),
      fun y => standing.encloses (row.along among)⟩
  refine ⟨tokens, lexed, derived.declared, fun x own readFrom => ?_, placed, fun m listed => ?_⟩
  · exact ⟨readFrom.fits.1, readFrom.fits.2.faithful lexed readFrom.fits.1⟩
  refine ⟨fun b given => ?_, fun a attached => ?_⟩
  · obtain ⟨header, members, rfl, _, shown⟩ := declaration_parts derived
    obtain ⟨_, own, _, rfl, method⟩ := members_method shown listed
    exact method_stops method given
  · have apart := (placed _ (method_within listed)).2.1
    have before := (List.pairwise_append.mp apart).2.2 _ (List.mem_map_of_mem attached) _ (.head _)
    exact before _ _ .self .self _ _ rfl rfl

def nestedText : String :=
  "impl<T: for<'b> B<'b>> A for C<T> where T: D \x7b /* c */ #[e] " ++
    "async fn f(&self, (x, _): &&[u8; 2]) -> fn() \x7b x; \x7d \x7d"

theorem declaration_extents_nested : ∃ d, Declaration.read nestedText = .ok d ∧
    d.methods.map (fun m => (m.extent.start, m.signature.extent.start, m.extent.stop)) =
      [(55, 60, 111)] ∧
    ∃ tokens, lex nestedText = .ok tokens ∧
      Stands nestedText (Element.ReadFrom nestedText tokens d) (.declaration d) tokens ∧
      (∀ (x : Element) own, x.ReadFrom nestedText tokens d own → own <:+: tokens ∧ x.Faithful nestedText own) ∧
      (∀ x : Element, x.Within (.declaration d) → (∃ own, x.ReadFrom nestedText tokens d own) ∧
        x.inside.Pairwise Element.Precedes ∧ ∀ y : Element, y.Within x → x.Encloses y) ∧
      ∀ m ∈ d.methods, (∀ b, m.body = some b → b.extent.stop = m.extent.stop) ∧
        ∀ a ∈ m.attributes, a.extent.stop ≤ m.signature.extent.start := by
  have accepted : (Declaration.read nestedText).toOption.any fun d =>
      d.methods.map (fun m => (m.extent.start, m.signature.extent.start, m.extent.stop)) =
        [(55, 60, 111)] := by
    decide +kernel
  obtain ⟨d, found, places⟩ := (Option.any_eq_true _ _).mp accepted
  have read := toOption_eq_some found
  exact ⟨d, read, of_decide_eq_true places, declaration_extents read⟩

end Deasync
