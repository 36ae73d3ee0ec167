import Deasync.Proofs.Extents
import Deasync.Proofs.Indenting
import Deasync.Proofs.InnerFunction
import Deasync.Proofs.Printing.Sources
import Deasync.Proofs.Substituting

namespace Deasync

open Grammar Rules Lexeme

-- A token, without its place, as it stands in the inner function of a trait.
def Token.moved (unit : String) (t : Token) (later : List Token) : Kind × String :=
  if t.kind = .selfWord ∧ ¬startsWithSep later then (.ident, innerReceiver)
  else if t.kind = .ident ∧ t.text = "Self" then (.ident, selfParameter)
  else if t.kind = .docBlock then (.docBlock, indentedBlock unit t.text)
  else t.bare

def movedTokens (unit : String) : List Token → List (Kind × String)
  | [] => []
  | t :: later => t.moved unit later :: movedTokens unit later

-- No `self` and no `Self` stands directly behind a number, and no `self` that is renamed stands directly
-- behind a number with an exponent that was begun, as in `1e+self`.
structure Unfused (tokens : List Token) : Prop where
  number : ∀ n ∈ tokens, n.kind = .number → ∀ t ∈ tokens, t.text ∈ ["self", "Self"] →
    t.extent.start ≠ n.extent.stop
  exponent : ∀ before n e s t later, tokens = before ++ n :: e :: s :: t :: later → n.kind = .number →
    e.text ∈ ["e", "E"] → s.text ∈ ["+", "-"] → t.text = "self" → e.extent.start = n.extent.stop →
    s.extent.start = e.extent.stop → t.extent.start = s.extent.stop → startsWithSep later

def receiverName (t : Token) (later : List Token) : Option String :=
  if t.kind = .selfWord && !startsWithSep later then some innerReceiver else none

def typeName (t : Token) (_ : List Token) : Option String :=
  if t.kind = .ident && t.text = "Self" then some selfParameter else none

theorem selfInBody_contract {d : Declaration} {name : String} {visibility : Option String}
    {supertraits : List Bound} (contract : d.subject = .contract name visibility supertraits)
    (text : String) : d.selfInBody text = substitute text typeName := by
  simp only [Declaration.selfInBody, contract, replaceSelfType, ite_self]
  rfl

theorem ofWord_selfWord {text : String} (same : Kind.ofWord text = .selfWord) : text = "self" := by
  have only : ∀ pair ∈ Kind.reserved, pair.2 = .selfWord → pair.1 = "self" := by decide
  rw [Kind.ofWord] at same
  cases found : Kind.reserved.lookup text with
  | none =>
    rw [found] at same
    cases same
  | some kind =>
    rw [found] at same
    obtain ⟨before, after, whole, _⟩ := List.lookup_eq_some_iff.mp found
    exact only (text, kind) (whole ▸ List.mem_append_right _ (.head _)) same

theorem renames_receiverName : Renames receiverName := by
  intro kind read rest extent later new here replaced
  obtain ⟨condition, same⟩ := Option.ite_none_right_eq_some.mp replaced
  cases same
  obtain rfl : kind = .selfWord := by simpa using (Bool.and_eq_true_iff.mp condition).1
  obtain ⟨_, word⟩ := lexeme_word here (by decide)
  rw [List.take_left] at word
  have text := ofWord_selfWord word.symm
  rw [← String.toList_inj, String.toList_ofList] at text
  rw [text]
  decide

theorem renames_typeName : Renames typeName := by
  intro kind read rest extent later new here replaced
  obtain ⟨condition, same⟩ := Option.ite_none_right_eq_some.mp replaced
  cases same
  have text : String.ofList read = "Self" := by simpa using (Bool.and_eq_true_iff.mp condition).2
  rw [← String.toList_inj, String.toList_ofList] at text
  rw [text]
  decide

theorem startsWithSep_placed (a b : Cursor) (row : List Piece) :
    startsWithSep (placed a row) = startsWithSep (placed b row) := by
  induction row generalizing a b with
  | nil => rfl
  | cons piece row ih =>
    obtain ⟨found, read⟩ := piece
    cases found with
    | gap => exact ih _ _
    | token kind => rfl

theorem Unfused.unmerged {row : List Piece} {cursor : Cursor} (unfused : Unfused (placed cursor row)) :
    Unmerged row := by
  rintro w k v ⟨front, later, rfl⟩ listed
  rw [List.append_assoc, placed_append] at unfused
  have named : String.ofList v ∈ ["self", "Self"] := by
    rcases List.mem_pair.mp listed with rfl | rfl <;> decide
  exact unfused.number _ (List.mem_append_right _ (.head _)) rfl _
    (List.mem_append_right _ (.tail _ (.head _))) named rfl

theorem Unfused.unbegun {row : List Piece} {cursor : Cursor} (unfused : Unfused (placed cursor row)) :
    Unbegun receiverName row := by
  rintro w k e l s m later ⟨front, rfl⟩ mark sign extent next
  rw [placed_append] at unfused
  have begun : String.ofList e ∈ ["e", "E"] := by rcases List.mem_pair.mp mark with rfl | rfl <;> decide
  have signed : String.ofList s ∈ ["+", "-"] := by rcases List.mem_pair.mp sign with rfl | rfl <;> decide
  have behind := unfused.exponent _ _ _ _ _ _ rfl rfl begun signed rfl rfl rfl rfl
  rw [receiverName, startsWithSep_placed next, behind]
  simp

theorem unbegun_typeName (row : List Piece) : Unbegun typeName row := by
  intro w k e l s m later _ _ _ extent next
  rw [typeName, if_neg]
  simp

-- What each of the three passes makes of a token, in the order in which they are made.
theorem moved_tokens (unit : String) {tokens renamed spelled : List Token}
    (first : renamed.map Token.bare = replaced receiverName tokens)
    (second : spelled.map Token.bare = replaced typeName renamed) :
    spelled.map (Token.indented unit) = movedTokens unit tokens := by
  induction tokens generalizing renamed spelled with
  | nil =>
    obtain rfl := List.map_eq_nil_iff.mp first
    obtain rfl := List.map_eq_nil_iff.mp second
    rfl
  | cons t later ih =>
    obtain ⟨a, renamed, rfl, here, rest⟩ := List.map_eq_cons_iff.mp first
    obtain ⟨b, spelled, rfl, also, others⟩ := List.map_eq_cons_iff.mp second
    rw [List.map_cons, ih rest others, movedTokens]
    refine congrArg (· :: _) ?_
    obtain ⟨kind, own, extent⟩ := t
    obtain ⟨kind', own', extent'⟩ := a
    obtain ⟨kind'', own'', extent''⟩ := b
    dsimp only [receiverName] at here
    dsimp only [typeName] at also
    by_cases self : kind = .selfWord ∧ ¬startsWithSep later
    · rw [if_pos (by simpa using self)] at here
      cases here
      cases also
      rw [Token.moved, if_pos self]
      rfl
    · rw [if_neg (by simpa using self)] at here
      cases here
      by_cases type : kind = .ident ∧ own = "Self"
      · rw [if_pos (by simpa using type)] at also
        cases also
        rw [Token.moved, if_neg self, if_pos type]
        rfl
      · rw [if_neg (by simpa using type)] at also
        cases also
        rw [Token.moved, if_neg self, if_neg type]
        rfl

theorem body_lexed {text : String} {d : Declaration} {m : Method} {b : Block}
    (read : Declaration.read text = .ok d) (listed : m ∈ d.methods) (given : m.body = some b) :
    ∃ tokens, lex b.text = .ok tokens := by
  obtain ⟨tokens, lexed, _, found, _⟩ := Declaration.read_eq_ok_iff.mp read
  have derived := ((read_eq_ok_iff declarations_ranked).mp found).derives
  obtain ⟨own, around, standing⟩ := derived.declared.within (method_within listed)
  obtain ⟨part, within, block⟩ := standing.inside.mem (x := .block b) (by
    simp [Element.inside, Element.perhaps, given])
  obtain ⟨_, _, _, _, _, _, kept⟩ := block.fits.faithful lexed (within.trans around)
  obtain ⟨_, again, result, _⟩ := kept b.text rfl
  exact ⟨again, result⟩

theorem innerBody_moved {d : Declaration} {name : String} {visibility : Option String}
    {supertraits : List Bound} {text : String} {tokens : List Token}
    (contract : d.subject = .contract name visibility supertraits) (lexed : lex text = .ok tokens)
    (unfused : Unfused tokens) : ∃ body own, d.innerBody text = .ok body ∧ lex body = .ok own ∧
      own.map Token.bare = movedTokens d.indentUnit tokens := by
  obtain ⟨row, whole, pieces, rfl⟩ := lex_eq_ok_iff.mp lexed
  obtain ⟨renamed, first, chars, exchanged, again⟩ :=
    substitute_renamed whole pieces unfused.unmerged unfused.unbegun renames_receiverName
  obtain ⟨spelled, second, letters, _, more⟩ := substitute_renamed chars again
    (unfused.unmerged.exchanged exchanged) (unbegun_typeName _) renames_typeName
  obtain ⟨body, own, third, result, bare⟩ := indentLines_lexed (blank_indentUnit d) letters more
  refine ⟨body, own, ?_, result, ?_⟩
  · rw [Declaration.innerBody]
    refine bind_eq_ok_iff.mpr ⟨renamed, first, bind_eq_ok_iff.mpr ⟨spelled, ?_, third⟩⟩
    rw [selfInBody_contract contract, second]
  · rw [bare]
    exact moved_tokens _ (placed_substituted receiverName .origin .origin row)
      (placed_substituted typeName .origin .origin _)

theorem innerFunction_body {d : Declaration} {decision : Decision} {text : String} {f : InnerFunction}
    (done : innerFunction d decision text = .ok f) : d.innerBody text = .ok f.body := by
  obtain ⟨lifted, _, rest⟩ := bind_eq_ok_iff.mp done
  obtain ⟨receiver, _, rest⟩ := bind_eq_ok_iff.mp rest
  obtain ⟨params, _, rest⟩ := bind_eq_ok_iff.mp rest
  obtain ⟨output, _, rest⟩ := bind_eq_ok_iff.mp rest
  obtain ⟨body, moved, rest⟩ := bind_eq_ok_iff.mp rest
  obtain ⟨requirements, _, last⟩ := bind_eq_ok_iff.mp rest
  cases last
  exact moved

-- The body is the last part of an inner function.
theorem InnerFunction.text_ends (f : InnerFunction) (indent deeper : String) :
    ∃ required : String, f.text indent deeper = f.header indent ++ required ++ f.body := by
  have ending : ∃ required, endingChars indent deeper f.body f.requirements =
      required ++ f.body.toList := by
    cases f.requirements with
    | nil => exact ⟨[' '], rfl⟩
    | cons t texts =>
      exact ⟨'\n' :: (indent.toList ++ ("where".toList ++ (requirementChars deeper (t :: texts) ++
        '\n' :: indent.toList))), by simp [endingChars]⟩
  obtain ⟨required, whole⟩ := ending
  refine ⟨String.ofList required, ?_⟩
  rw [← String.toList_inj, text_chars, whole, String.toList_append, String.toList_append,
    String.toList_ofList, List.append_assoc]

-- The body of an async method of a trait is lexed, and so is what the inner function has in its place, to
-- the same tokens: only `self` and `Self` have other names, and documentation blocks are indented.
theorem default_body_moved {text : String} {d : Declaration} {name : String} {visibility : Option String}
    {supertraits : List Bound} (read : Declaration.read text = .ok d)
    (contract : d.subject = .contract name visibility supertraits) :
    (∀ m ∈ d.asyncMethods, ∀ b, m.body = some b → ∃ tokens, lex b.text = .ok tokens ∧
      (Unfused tokens → ∃ body own, d.innerBody b.text = .ok body ∧ lex body = .ok own ∧
        own.map Token.bare = movedTokens d.indentUnit tokens)) ∧
    ∀ options carriers e, d.expand options carriers = .ok e → ∃ rewrites : List MethodRewrite,
      rewrites.map MethodRewrite.method = d.asyncMethods ∧
      Text.Spliced 0 text.toList (rewrites.map MethodRewrite.patch) e.text.toList ∧
      ∀ r ∈ rewrites, ∀ b, r.method.body = some b →
        ∃ (f : InnerFunction) (head indent deeper required : String),
          innerFunction d r.decision b.text = .ok f ∧ d.innerBody b.text = .ok f.body ∧
          r.text = head ++ "\n" ++ indent ++ "\x7b\n" ++ f.header deeper ++ required ++ f.body ++ "\n" ++
            deeper ++ "::std::boxed::Box::pin(" ++ f.call ++ ")\n" ++ indent ++ "\x7d" := by
  refine ⟨fun m listed b given => ?_, fun options carriers e done => ?_⟩
  · obtain ⟨tokens, lexed⟩ := body_lexed read (List.mem_filter.mp listed).1 given
    exact ⟨tokens, lexed, innerBody_moved contract lexed⟩
  obtain ⟨rewrites, methods, _, result, generated⟩ := expand_ok done
  refine ⟨rewrites, methods, ?_, fun r listed b given => ?_⟩
  · rw [result, (read_methods read).1]
    exact rewrites_spliced (read_asyncMethods read) methods
  obtain ⟨indent, outside⟩ : ∃ indent, indent = indentAt d.source r.method.signature.extent.start := ⟨_, rfl⟩
  obtain ⟨deeper, inside⟩ : ∃ deeper, deeper = indent ++ d.indentUnit := ⟨_, rfl⟩
  obtain ⟨f, inner, whole⟩ := methodText_bodied given outside inside (generated r listed).written
  obtain ⟨required, ends⟩ := f.text_ends deeper (deeper ++ d.indentUnit)
  rw [ends] at whole
  simp only [← String.append_assoc] at whole
  exact ⟨f, _, indent, deeper, required, inner, innerFunction_body inner, whole⟩

def movedText : String :=
  "trait A \x7b\n    async fn f(self) \x7b\n        /** a\n         b */\n        " ++
    "self::g(self, Self, \"self\n Self\")\n    \x7d\n\x7d"

theorem default_body_moved_named : ∃ d e, Declaration.read movedText = .ok d ∧
    d.expand ⟨false⟩ [] = .ok e ∧ ∃ rewrites : List MethodRewrite,
      Text.Spliced 0 movedText.toList (rewrites.map MethodRewrite.patch) e.text.toList ∧
      ∃ r ∈ rewrites, ∃ (f : InnerFunction) (front behind : String) (own : List Token),
        r.text = front ++ f.body ++ behind ∧ lex f.body = .ok own ∧ own.map Token.bare =
          [(.openCurly, "\x7b"), (.docBlock, "/** a\n             b */"), (.selfWord, "self"),
           (.pathSep, "::"), (.ident, "g"), (.openRound, "("), (.ident, "_self"), (.comma, ","),
           (.ident, "AsyncTrait"), (.comma, ","), (.string, "\"self\n Self\""), (.closeRound, ")"),
           (.closeCurly, "\x7d")] := by
  have accepted : (Declaration.read movedText).toOption.any fun d =>
      (d.expand ⟨false⟩ []).toOption.any fun e => d.asyncMethods.length = 1 ∧
        (e.methods.any fun decision => !(selfParams d decision).isEmpty) ∧
        ∀ m ∈ d.asyncMethods, m.body.any fun b => (lex b.text).toOption.any fun tokens =>
          (∀ t ∈ tokens, t.kind ≠ .number) ∧ movedTokens d.indentUnit tokens =
          [(.openCurly, "\x7b"), (.docBlock, "/** a\n             b */"), (.selfWord, "self"),
           (.pathSep, "::"), (.ident, "g"), (.openRound, "("), (.ident, "_self"), (.comma, ","),
           (.ident, "AsyncTrait"), (.comma, ","), (.string, "\"self\n Self\""), (.closeRound, ")"),
           (.closeCurly, "\x7d")] := by decide +kernel
  obtain ⟨d, found, expanded⟩ := (Option.any_eq_true _ _).mp accepted
  obtain ⟨e, result, facts⟩ := (Option.any_eq_true _ _).mp expanded
  obtain ⟨one, trait, each⟩ := of_decide_eq_true facts
  have read := toOption_eq_some found
  have done := toOption_eq_some result
  cases contract : d.subject with
  | implementation =>
    obtain ⟨decision, _, some⟩ := List.any_eq_true.mp trait
    simp [selfParams, contract] at some
  | contract name visibility supertraits =>
    obtain ⟨bodies, expansions⟩ := default_body_moved read contract
    obtain ⟨rewrites, methods, spliced, inner⟩ := expansions ⟨false⟩ [] e done
    rw [← methods, List.length_map] at one
    obtain ⟨r, rfl⟩ := List.length_eq_one_iff.mp one
    have present : r.method ∈ d.asyncMethods := methods ▸ .head _
    obtain ⟨b, given, same⟩ := (Option.any_eq_true _ _).mp (each r.method present)
    obtain ⟨tokens, shown, plain⟩ := (Option.any_eq_true _ _).mp same
    obtain ⟨numbers, result⟩ := of_decide_eq_true plain
    obtain ⟨tokens', lexed, moves⟩ := bodies r.method present b given
    obtain rfl := Except.ok.inj ((toOption_eq_some shown).symm.trans lexed)
    obtain ⟨f, head, indent, deeper, required, _, own, whole⟩ := inner r (.head _) b given
    obtain ⟨body, after, moved, again, bare⟩ := moves
      ⟨fun n listed kind => absurd kind (numbers n listed), fun before n e s t later split kind =>
        absurd kind (numbers n (split ▸ List.mem_append_right _ (.head _)))⟩
    obtain rfl := Except.ok.inj (own.symm.trans moved)
    refine ⟨d, e, read, done, [r], spliced, r, .head _, f,
      head ++ "\n" ++ indent ++ "\x7b\n" ++ f.header deeper ++ required,
      "\n" ++ deeper ++ "::std::boxed::Box::pin(" ++ f.call ++ ")\n" ++ indent ++ "\x7d", after, ?_, again,
      bare.trans result⟩
    rw [whole]
    simp only [String.append_assoc]

-- Behind an exponent that was begun, the new name of `self` is taken for its digits.
def fusedText : String := "trait A \x7b async fn f(self) \x7b 1e+self \x7d \x7d"

theorem default_body_fused : ∃ d e, Declaration.read fusedText = .ok d ∧ d.expand ⟨false⟩ [] = .ok e ∧
    e.text = "trait A \x7b fn f<'async_trait>(self) -> ::core::pin::Pin<::std::boxed::Box<dyn " ++
      "::core::future::Future<Output = ()> + ::core::marker::Send + 'async_trait>>\n\x7b\n    " ++
      "async fn __f<'async_trait, AsyncTrait: A>(_self: AsyncTrait) \x7b 1e+_self \x7d\n    " ++
      "::std::boxed::Box::pin(__f::<Self>(self))\n\x7d \x7d" ∧
    ∃ tokens own, lex "\x7b 1e+self \x7d" = .ok tokens ∧
      (∀ n ∈ tokens, n.kind = .number → ∀ t ∈ tokens, t.text ∈ ["self", "Self"] →
        t.extent.start ≠ n.extent.stop) ∧
      movedTokens d.indentUnit tokens = [(.openCurly, "\x7b"), (.number, "1"), (.ident, "e"), (.plus, "+"),
        (.ident, "_self"), (.closeCurly, "\x7d")] ∧
      lex "\x7b 1e+_self \x7d" = .ok own ∧ own.map Token.bare = [(.openCurly, "\x7b"),
        (.number, "1e+_"), (.selfWord, "self"), (.closeCurly, "\x7d")] := by
  have accepted : (Declaration.read fusedText).toOption.any fun d => (d.expand ⟨false⟩ []).toOption.any
      fun e => e.text = "trait A \x7b fn f<'async_trait>(self) -> ::core::pin::Pin<::std::boxed::Box<dyn " ++
        "::core::future::Future<Output = ()> + ::core::marker::Send + 'async_trait>>\n\x7b\n    " ++
        "async fn __f<'async_trait, AsyncTrait: A>(_self: AsyncTrait) \x7b 1e+_self \x7d\n    " ++
        "::std::boxed::Box::pin(__f::<Self>(self))\n\x7d \x7d" ∧
      (lex "\x7b 1e+self \x7d").toOption.any fun tokens =>
        (∀ n ∈ tokens, n.kind = .number → ∀ t ∈ tokens, t.text ∈ ["self", "Self"] →
          t.extent.start ≠ n.extent.stop) ∧
        movedTokens d.indentUnit tokens = [(.openCurly, "\x7b"), (.number, "1"), (.ident, "e"), (.plus, "+"),
          (.ident, "_self"), (.closeCurly, "\x7d")] := by decide +kernel
  have merged : (lex "\x7b 1e+_self \x7d").toOption.any fun own => own.map Token.bare =
      [(.openCurly, "\x7b"), (.number, "1e+_"), (.selfWord, "self"), (.closeCurly, "\x7d")] := by
    decide +kernel
  obtain ⟨d, found, expanded⟩ := (Option.any_eq_true _ _).mp accepted
  obtain ⟨e, result, facts⟩ := (Option.any_eq_true _ _).mp expanded
  obtain ⟨text, body⟩ := of_decide_eq_true facts
  obtain ⟨tokens, lexed, apart⟩ := (Option.any_eq_true _ _).mp body
  obtain ⟨own, again, bare⟩ := (Option.any_eq_true _ _).mp merged
  obtain ⟨numbers, moved⟩ := of_decide_eq_true apart
  exact ⟨d, e, toOption_eq_some found, toOption_eq_some result, text, tokens, own, toOption_eq_some lexed,
    numbers, moved, toOption_eq_some again, of_decide_eq_true bare⟩

end Deasync
