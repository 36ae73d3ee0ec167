import Deasync.Proofs.Grammar.Balance

namespace Deasync

open Grammar

-- What was read last at the level of members.
inductive Mark where
  | plain | word | star | const | fn
  deriving DecidableEq

-- What was read last in a header. Behind a type a bang is that of a macro, elsewhere a type itself,
-- or, at the start of an impl block, a negation.
inductive Trail where
  | open | start | type | reference | separator | bang
  deriving DecidableEq

-- Where a walk is: inside a group, between members, inside angle brackets there, in a constant, or
-- in the header of a declaration or, when it is not `own`, of a method.
inductive Region where
  | inside
  | members (mark : Mark)
  | angle
  | constant
  | header (own : Bool) (ending : Trail)
  | headerAngle (own : Bool)
  deriving DecidableEq

namespace Region

def group (k : Kind) (back other : Region) : Move Region :=
  match k.closer? with
  | some closer => .enter closer inside back
  | none => if k.isCloser then .stop else .stay other

def memberMove (mark : Mark) (k : Kind) : Move Region :=
  match k with
  | .less => .enter .greater angle (members .plain)
  | .greater => .stop
  | .star => .stay (members .star)
  | .constWord => .stay (members (if mark = .star then .plain else .const))
  | .fnWord => .stay (members .fn)
  | .asyncWord | .unsafeWord | .externWord | .string => .stay (members .word)
  | .ident =>
    match mark with
    | .fn => .stop
    | .const => .stay constant
    | _ => .stay (members .word)
  | .underscore => .stay (if mark = .const then constant else members .plain)
  | _ => group k (members .plain) (members .plain)

def headerMove (own : Bool) (ending : Trail) (k : Kind) : Move Region :=
  match k with
  | .openCurly =>
    if ending = .bang then .enter .closeCurly inside (header own .type)
    else if own then .stay (members .plain) else .enter .closeCurly inside (members .plain)
  | .semicolon => if own then .stop else .stay (members .plain)
  | .less => .enter .greater (headerAngle own)
      (header own (match ending with
        | .type | .separator => .type
        | .start => .start
        | _ => .open))
  | .greater => .stop
  | .bang => .stay (header own (match ending with
      | .type => .bang
      | .start => .open
      | _ => .type))
  | .implWord => .stay (header own .start)
  | .ident | .selfWord | .underscore => .stay (header own .type)
  | .lifetime => .stay (header own (if ending = .reference then .open else .type))
  | .ampersand | .ampersands => .stay (header own .reference)
  | .pathSep => .stay (header own .separator)
  | _ => group k (header own .type) (header own .open)

def angleMove (here : Region) (k : Kind) : Move Region :=
  match k with
  | .less => .enter .greater here here
  | .greater => .leave
  | .semicolon => .stop
  | _ => group k here here

def move : Region → Kind → Move Region
  | inside, k => if k.isCloser then .leave else group k inside inside
  | members mark, k => memberMove mark k
  | angle, k => angleMove angle k
  | constant, k => if k = .semicolon then .stay (members .plain) else group k constant constant
  | header own ending, k => headerMove own ending k
  | headerAngle own, k => angleMove (headerAngle own) k

def all : List Region :=
  [inside, angle, constant, headerAngle true, headerAngle false] ++
    [.plain, .word, .star, .const, .fn].map members ++
    [.open, .start, .type, .reference, .separator, .bang].map (header true) ++
    [.open, .start, .type, .reference, .separator, .bang].map (header false)

-- The endings at which a nonterminal may begin in a header, and those it has then.
def endings : Nonterminal → List Trail × List Trail
  | .delimited => ([.bang], [.type])
  | .outerAttribute | .outerAttributes | .visibility | .scope | .whereClause =>
    ([.open, .type], [.open, .type])
  | .abi | .binder => ([.open, .start, .reference], [.open])
  | .genericArgs => ([.type, .separator], [.type])
  | .segment => ([.open, .start, .reference, .separator], [.type])
  | .pathTail | .plainOutput | .boundTail | .output => ([.type], [.type])
  | .path | .qualifiedPath | .functionPointer | .plainType | .type =>
    ([.open, .start, .reference], [.type])
  | .bound | .bounds => ([.open, .start], [.type])
  | .lifetimeBounds => ([.open], [.type])
  | .colonBounds | .colonLifetimes => ([.type], [.open, .type])
  | .wherePredicate | .wherePredicates => ([.open], [.open, .type])
  | .implemented => ([.start], [.open])
  | _ => ([], [])

def entries (n : Nonterminal) : List Region :=
  match n with
  | .signature | .method | .member | .members | .declaration => []
  | .associated => [members .plain]
  | .block | .body => [header false .open, header false .type]
  | .tree => [inside]
  | .constTree | .constTrees | .equalsTrees | .arrayLength => [inside, constant]
  | .pattern | .patternAtom | .param | .paramList | .selfParam | .params => [inside]
  | .outerAttribute | .outerAttributes | .visibility | .scope =>
    [inside, angle, constant, headerAngle true, headerAngle false, members .plain,
      header true .open, header true .type]
  | .abi => [inside, angle, constant, headerAngle true, headerAngle false, members .plain,
      members .word, members .const] ++ (endings .abi).1.map (header true) ++
      (endings .abi).1.map (header false)
  | .genericParam | .genericParamList => [inside, angle, constant, headerAngle true, headerAngle false]
  | .genericParams =>
    [inside, angle, constant, headerAngle true, headerAngle false, members .plain, members .word] ++
      [.open, .start, .type].map (header true) ++ [.open, .start, .type].map (header false)
  | n => [inside, angle, constant, headerAngle true, headerAngle false, members .plain,
      members .word] ++ (endings n).1.map (header true) ++ (endings n).1.map (header false)

def exits (n : Nonterminal) (entry : Region) : List Region :=
  match entry with
  | members _ =>
    match n with
    | .associated | .outerAttribute | .outerAttributes | .visibility | .scope | .delimited =>
      [members .plain]
    | _ => [members .plain, members .word]
  | header own ending =>
    match n with
    | .block | .body => [members .plain]
    | .genericParams => [header own ending]
    | .plainType | .type =>
      if ending = .start then [header own .type, header own .open] else [header own .type]
    | n => (endings n).2.map (header own)
  | other => [other]

def contract : Contract Nonterminal Region where
  depth := delimiters.depth
  entries n :=
    match n with
    | .members => []
    | n =>
      match n.closer? with
      | some k => all.map fun back => (inside, [(k, back)])
      | none => (entries n).map (·, [])
  exits n entry :=
    match entry.2 with
    | (_, back) :: _ => [(back, [])]
    | [] => (exits n entry.1).map (·, [])

theorem contract_checked (n : Nonterminal) : contract.checks move declarations n := by
  cases n <;> decide +kernel

end Region

def Token.modifier (t : Token) : Modifier := ⟨t.text, t.extent⟩

-- The kinds of the qualifiers of a function, and of `fn` itself.
def qualifierKinds : List Kind :=
  [.constWord, .asyncWord, .unsafeWord, .externWord, .string, .fnWord]

-- The word with only qualifiers behind it, if there is one.
def wordAfter (word : Option Token) (t : Token) : Option Token :=
  if t.kind = .ident then some t else if t.kind ∈ qualifierKinds then word else none

-- The words in front of functions. A function begins where a name follows `fn`.
def modifiersFrom (place : Place Region) (word : Option Token) : List Token → List Modifier
  | [] => []
  | t :: later =>
    match walkStep Region.move place t.kind with
    | some next => modifiersFrom next (wordAfter word t) later
    | none =>
      if place.1 = .members .fn ∧ t.kind = .ident then
        (word.map Token.modifier).toList ++ modifiersFrom (.header false .type, place.2) none later
      else []

theorem modifiersFrom_walk {place next : Place Region} {w : List Token}
    (walked : walk Region.move place (kindsOf w) = some next) (word : Option Token)
    (later : List Token) : modifiersFrom place word (w ++ later) =
      modifiersFrom next (w.foldl wordAfter word) later := by
  induction w generalizing place word with
  | nil => cases walked; rfl
  | cons t w ih =>
    obtain ⟨middle, stepped, rest⟩ := Option.bind_eq_some_iff.mp walked
    rw [List.cons_append, modifiersFrom, stepped]
    exact ih rest (wordAfter word t)

def Region.fresh (r : Region) : Bool := r = .members .plain ∨ r = .members .star

-- Where a member may begin no word is left over.
def Settled (r : Region) (word : Option Token) : Prop := r.fresh → word = none

-- A kind that keeps a word leads to a fresh place only from one, by the `const` of a pointer.
def Region.keeps (r : Region) (k : Kind) : Bool :=
  match r.move k with
  | .stay next => !next.fresh || (r.fresh && k ≠ .ident)
  | .enter _ inner _ => !inner.fresh
  | .leave => false
  | .stop => true

theorem keeps_qualifier (r : Region) {k : Kind} (kept : k = .ident ∨ k ∈ qualifierKinds) :
    r.keeps k := by
  simp only [qualifierKinds, List.mem_cons, List.not_mem_nil, or_false] at kept
  rcases kept with rfl | rfl | rfl | rfl | rfl | rfl | rfl <;> cases r with
  | members mark => cases mark <;> decide
  | header own ending => cases own <;> cases ending <;> decide
  | headerAngle own => cases own <;> decide
  | _ => decide

theorem settled_step {place next : Place Region} {t : Token} {word : Option Token}
    (settled : Settled place.1 word) (stepped : walkStep Region.move place t.kind = some next) :
    Settled next.1 (wordAfter word t) := by
  intro fresh
  by_cases kept : t.kind = .ident ∨ t.kind ∈ qualifierKinds
  · have keeps := keeps_qualifier place.1 kept
    unfold Region.keeps at keeps
    unfold walkStep at stepped
    split at stepped
    · rename_i found
      rw [found] at keeps
      cases stepped
      simp only [fresh, Bool.not_true, Bool.false_or, Bool.and_eq_true, decide_eq_true_eq] at keeps
      rw [wordAfter, if_neg keeps.2, settled keeps.1]
      split <;> rfl
    · rename_i found
      rw [found] at keeps
      cases stepped
      simp [fresh] at keeps
    · rename_i found
      rw [found] at keeps
      cases keeps
    · cases stepped
  · rw [not_or] at kept
    rw [wordAfter, if_neg kept.1, if_neg kept.2]

theorem settled_walk {place next : Place Region} {w : List Token} {word : Option Token}
    (settled : Settled place.1 word) (walked : walk Region.move place (kindsOf w) = some next) :
    Settled next.1 (w.foldl wordAfter word) := by
  induction w generalizing place word with
  | nil => cases walked; exact settled
  | cons t w ih =>
    obtain ⟨middle, stepped, rest⟩ := Option.bind_eq_some_iff.mp walked
    exact ih (settled_step settled stepped) rest

abbrev Region.atMember : Place Region := (.members .plain, [])

-- What leads to the place where a member may begin has no functions on the way.
theorem modifiersFrom_quiet {place : Place Region} {w : List Token}
    (walked : walk Region.move place (kindsOf w) = some Region.atMember) (later : List Token) :
    modifiersFrom place none (w ++ later) = modifiersFrom Region.atMember none later := by
  rw [modifiersFrom_walk walked]
  have settled : Settled (.members .plain) (w.foldl wordAfter none) :=
    settled_walk (fun _ => rfl) walked
  rw [settled rfl]

theorem modifiersFrom_led {place : Place Region} {rhs : List (Sym Nonterminal)} {w : List Token}
    (led : Region.contract.leads Region.move rhs place [Region.atMember])
    (spelled : declarations.SpellsAll rhs (kindsOf w)) (later : List Token) :
    modifiersFrom place none (w ++ later) = modifiersFrom Region.atMember none later := by
  obtain ⟨next, found, walked⟩ := Contract.walks_of_leads Region.contract_checked led spelled
  rw [List.mem_singleton.mp found] at walked
  exact modifiersFrom_quiet walked later

theorem modifiersFrom_ref {n : Nonterminal} {w : List Token}
    (led : Region.contract.leads Region.move [.ref n] Region.atMember [Region.atMember])
    (spelled : declarations.Spells n (kindsOf w)) (later : List Token) :
    modifiersFrom Region.atMember none (w ++ later) = modifiersFrom Region.atMember none later :=
  modifiersFrom_led led (spellsAll_ref_one.mpr spelled) later

theorem foldl_qualifiers {w : List Token} (qualifiers : ∀ t ∈ w, t.kind ∈ qualifierKinds)
    (word : Option Token) : w.foldl wordAfter word = word := by
  induction w with
  | nil => rfl
  | cons t w ih =>
    obtain ⟨here, rest⟩ := List.forall_mem_cons.mp qualifiers
    have other : t.kind ≠ .ident := by
      intro same
      rw [same] at here
      exact absurd here (by decide)
    rw [List.foldl_cons, wordAfter, if_neg other, if_pos here, ih rest]

theorem abi_qualifiers {w : List Token} (spelled : declarations.Spells .abi (kindsOf w)) :
    ∀ t ∈ w, t.kind ∈ qualifierKinds := by
  obtain ⟨rhs, listed, all⟩ := spells_iff_alternative.mp spelled
  obtain rfl : rhs = [.tok [.externWord], .maybe (.tok [.string])] := List.mem_singleton.mp listed
  obtain ⟨word, u, rfl, same, rest⟩ := spellsAll_one all
  refine List.forall_mem_cons.mpr ⟨by rw [same]; decide, ?_⟩
  rcases spellsAll_maybe rest with none | ⟨x, y, rfl, string, none⟩
  · obtain rfl := List.map_eq_nil_iff.mp (spellsAll_nil.mp none)
    simp
  · obtain ⟨t, rfl, fits⟩ := spells_tok string
    obtain rfl := List.map_eq_nil_iff.mp (spellsAll_nil.mp none)
    simp [List.mem_singleton.mp fits, qualifierKinds]

-- A qualifier that may be left out, in front of others.
theorem forall_maybe {s : Sym Nonterminal} {rest : List (Sym Nonterminal)} {w : List Token}
    {P : Token → Prop} (spelled : declarations.SpellsAll (.maybe s :: rest) (kindsOf w))
    (here : ∀ {x}, declarations.SpellsSym s (kindsOf x) → ∀ t ∈ x, P t)
    (later : ∀ {y}, declarations.SpellsAll rest (kindsOf y) → ∀ t ∈ y, P t) : ∀ t ∈ w, P t := by
  rcases spellsAll_maybe spelled with absent | ⟨x, y, rfl, present, others⟩
  · exact later absent
  · exact List.forall_mem_append.mpr ⟨here present, later others⟩

def qualifierSymbols : List (Sym Nonterminal) :=
  [.maybe (.tok [.constWord]), .maybe (.tok [.asyncWord]), .maybe (.tok [.unsafeWord]),
   .maybe (.ref .abi), .tok [.fnWord]]

theorem forall_qualifiers {w : List Token}
    (spelled : declarations.SpellsAll qualifierSymbols (kindsOf w)) :
    ∀ t ∈ w, t.kind ∈ qualifierKinds := by
  have one {k : Kind} (listed : k ∈ qualifierKinds) {x : List Token}
      (spelled : declarations.SpellsSym (.tok [k]) (kindsOf x)) : ∀ t ∈ x, t.kind ∈ qualifierKinds := by
    obtain ⟨t, rfl, fits⟩ := spells_tok spelled
    simp [List.mem_singleton.mp fits, listed]
  refine forall_maybe spelled (one (by decide)) fun spelled => ?_
  refine forall_maybe spelled (one (by decide)) fun spelled => ?_
  refine forall_maybe spelled (one (by decide)) fun spelled => ?_
  refine forall_maybe spelled (fun own => abi_qualifiers (spellsSym_ref.mp own)) fun spelled => ?_
  obtain ⟨t, u, rfl, same, none⟩ := spellsAll_one spelled
  obtain rfl := List.map_eq_nil_iff.mp (spellsAll_nil.mp none)
  simp [same, qualifierKinds]

-- From the word in front of a function, or from where it is missing, to the name of the function.
theorem modifiersFrom_fn {mark : Mark} (leads : mark = .plain ∨ mark = .word) {w : List Token}
    (spelled : declarations.SpellsAll qualifierSymbols (kindsOf w)) {name : Token}
    (isName : name.kind = .ident) (word : Option Token) (later : List Token) :
    modifiersFrom (.members mark, []) word (w ++ name :: later) =
      (word.map Token.modifier).toList ++ modifiersFrom (.header false .type, []) none later := by
  have walked : walk Region.move (.members mark, []) (kindsOf w) = some (.members .fn, []) := by
    have led : Region.contract.leads Region.move qualifierSymbols (.members mark, [])
        [(.members .fn, [])] := by
      rcases leads with rfl | rfl <;> decide
    obtain ⟨next, found, walked⟩ := Contract.walks_of_leads Region.contract_checked led spelled
    rwa [List.mem_singleton.mp found] at walked
  rw [modifiersFrom_walk walked, foldl_qualifiers (forall_qualifiers spelled), modifiersFrom]
  have stops : walkStep Region.move (.members .fn, []) name.kind = none := by
    rw [isName]
    rfl
  rw [stops]
  simp [isName]

-- What follows the name of a function in its signature.
def signatureTail : List (Sym Nonterminal) :=
  [.maybe (.ref .genericParams), .tok [.openRound], .maybe (.ref .params), .tok [.closeRound],
   .maybe (.ref .output), .maybe (.ref .whereClause)]

variable {text : String}

-- The word in front of the qualifiers of a function, if there is one.
theorem modifiersFrom_word {w : List Token} {word : Option Token}
    (derived : declarations.DerivesSym text (.maybe (.tok [.ident])) w word) :
    ∃ mark, (mark = .plain ∨ mark = .word) ∧ ∀ later,
      modifiersFrom Region.atMember none (w ++ later) =
        modifiersFrom (.members mark, []) word later := by
  rcases derivesSym_maybe derived with ⟨rfl, rfl⟩ | ⟨t, rfl, present⟩
  · exact ⟨.plain, .inl rfl, fun later => rfl⟩
  · obtain ⟨same, fits⟩ := derivesSym_tok present
    change Token at t
    obtain rfl : w = [t] := same
    have isIdent : t.kind = .ident := List.mem_singleton.mp fits
    refine ⟨.word, .inr rfl, fun later => ?_⟩
    have stepped : walkStep Region.move Region.atMember t.kind = some (.members .word, []) := by
      rw [isIdent]
      rfl
    rw [List.singleton_append, modifiersFrom, stepped, wordAfter, if_pos isIdent]
    rfl

theorem modifiersFrom_signature {w body later : List Token} {s : Signature}
    (derived : declarations.Derives text .signature w s)
    (spelledBody : declarations.Spells .body (kindsOf body)) :
    modifiersFrom Region.atMember none (w ++ (body ++ later)) =
      s.qualifiers.modifier.toList ++ modifiersFrom Region.atMember none later := by
  obtain ⟨p, listed, vs, all, rfl⟩ := derives_def.mp derived
  obtain rfl := List.mem_singleton.mp listed
  obtain ⟨visibility, u, rfl, first, rest⟩ := derivesAll_cons all
  obtain ⟨word, v, rfl, second, rest⟩ := derivesAll_cons rest
  have tail : declarations.SpellsAll (qualifierSymbols ++ .tok [.ident] :: signatureTail)
    (kindsOf v) := rest.spells
  obtain ⟨qualifiers, y, rfl, lead, behind⟩ := spellsAll_append tail
  obtain ⟨name, y, rfl, isName, signature⟩ := spellsAll_one behind
  have skipped (more : List Token) : modifiersFrom Region.atMember none (visibility ++ more) =
      modifiersFrom Region.atMember none more := by
    rcases derivesSym_maybe first with ⟨rfl, _⟩ | ⟨shown, _, present⟩
    · rfl
    · exact modifiersFrom_ref (by decide) (derivesSym_ref present).spells more
  obtain ⟨mark, leads, found⟩ := modifiersFrom_word second
  have ending : declarations.SpellsAll (signatureTail ++ [.ref .body]) (kindsOf (y ++ body)) := by
    rw [kindsOf_append]
    exact signature.append (spellsAll_ref_one.mpr spelledBody)
  have behind : modifiersFrom (.header false .type, []) none (y ++ (body ++ later)) =
      modifiersFrom Region.atMember none later := by
    rw [← List.append_assoc]
    exact modifiersFrom_led (by decide) ending later
  calc modifiersFrom Region.atMember none
        (visibility ++ (word ++ (qualifiers ++ name :: y)) ++ (body ++ later))
      = modifiersFrom (.members mark, []) vs.2.1 (qualifiers ++ name :: (y ++ (body ++ later))) := by
        simp only [List.append_assoc, List.cons_append]
        rw [skipped, found]
    _ = (Option.map Token.modifier vs.2.1).toList ++
          modifiersFrom (.header false .type, []) none (y ++ (body ++ later)) :=
        modifiersFrom_fn leads lead isName vs.2.1 _
    _ = (Option.map Token.modifier vs.2.1).toList ++ modifiersFrom Region.atMember none later :=
        congrArg _ behind

theorem modifiersFrom_method {w later : List Token} {m : Method}
    (derived : declarations.Derives text .method w m) :
    modifiersFrom Region.atMember none (w ++ later) =
      m.signature.qualifiers.modifier.toList ++ modifiersFrom Region.atMember none later := by
  obtain ⟨p, listed, vs, all, rfl⟩ := derives_def.mp derived
  obtain rfl := List.mem_singleton.mp listed
  obtain ⟨attributes, u, rfl, first, rest⟩ := derivesAll_cons all
  obtain ⟨signature, body, rfl, second, last⟩ := derivesAll_cons rest
  rw [List.append_assoc, List.append_assoc, modifiersFrom_ref (by decide) (derivesSym_ref first).spells]
  exact modifiersFrom_signature (derivesSym_ref second) (spellsAll_last last.spells)

def Member.modifier? (m : Member) : Option Modifier :=
  m.method?.bind (·.signature.qualifiers.modifier)

theorem modifiersFrom_member {w later : List Token} {m : Member}
    (derived : declarations.Derives text .member w m) :
    modifiersFrom Region.atMember none (w ++ later) =
      m.modifier?.toList ++ modifiersFrom Region.atMember none later := by
  obtain ⟨p, listed, vs, all, rfl⟩ := derives_def.mp derived
  rcases List.mem_pair.mp listed with rfl | rfl
  · obtain ⟨own, none, rfl, only, rest⟩ := derivesAll_cons all
    obtain rfl := derivesAll_nil rest
    rw [List.append_nil]
    exact modifiersFrom_method (derivesSym_ref only)
  · obtain ⟨own, none, rfl, only, rest⟩ := derivesAll_cons all
    obtain rfl := derivesAll_nil rest
    rw [List.append_nil]
    exact modifiersFrom_ref (by decide) (derivesSym_ref only).spells later

theorem modifiersFrom_members {w : List Token} {members : List Member}
    (derived : declarations.Derives text .members w members) :
    modifiersFrom Region.atMember none w = members.flatMap (·.modifier?.toList) := by
  -- on the number of tokens: each member takes at least one
  induction length : w.length using Nat.strongRecOn generalizing w members with
  | ind most ih =>
    obtain ⟨p, listed, vs, all, rfl⟩ := derives_def.mp derived
    rcases List.mem_pair.mp listed with rfl | rfl
    · obtain ⟨t, u, rfl, closes, rest⟩ := spellsAll_one all.spells
      obtain rfl := List.map_eq_nil_iff.mp (spellsAll_nil.mp rest)
      rw [modifiersFrom, closes]
      rfl
    · obtain ⟨x, u, rfl, first, rest⟩ := derivesAll_cons all
      obtain ⟨y, none, rfl, later, rest⟩ := derivesAll_cons rest
      obtain rfl := derivesAll_nil rest
      rw [List.append_nil] at *
      have filled := spells_length_pos (by decide) (derivesSym_ref first).spells
      rw [List.length_append] at length
      rw [modifiersFrom_member (derivesSym_ref first), ih y.length (by omega) (derivesSym_ref later) rfl]
      rfl

theorem Declaration.modifiers_eq (d : Declaration) :
    (d.methods.filterMap fun m => m.signature.qualifiers.modifier) =
      d.members.flatMap (·.modifier?.toList) := by
  rw [methods, List.filterMap_filterMap, List.filterMap_eq_flatMap_toList]
  rfl

def traitHeader : List (Sym Nonterminal) :=
  [.ref .outerAttributes, .maybe (.ref .visibility), .maybe (.tok [.unsafeWord]), .tok [.traitWord],
   .tok [.ident], .maybe (.ref .genericParams), .maybe (.ref .colonBounds), .maybe (.ref .whereClause),
   .tok [.openCurly]]

def implHeader : List (Sym Nonterminal) :=
  [.ref .outerAttributes, .maybe (.tok [.unsafeWord]), .tok [.implWord], .maybe (.ref .genericParams),
   .maybe (.ref .implemented), .ref .type, .maybe (.ref .whereClause), .tok [.openCurly]]

-- The modifiers are the same in all derivations of a declaration.
theorem modifiersFrom_declaration {w : List Token} {d : Declaration}
    (derived : declarations.Derives text .declaration w d) :
    modifiersFrom (.header true .open, []) none w =
      d.methods.filterMap fun m => m.signature.qualifiers.modifier := by
  rw [d.modifiers_eq]
  obtain ⟨p, listed, vs, all, rfl⟩ := derives_def.mp derived
  rcases List.mem_pair.mp listed with rfl | rfl
  · obtain ⟨x, y, rfl, header, members⟩ := derivesAll_last (n := .members) (f := traitHeader) all
    rw [modifiersFrom_led (by decide) header]
    exact modifiersFrom_members members
  · obtain ⟨x, y, rfl, header, members⟩ := derivesAll_last (n := .members) (f := implHeader) all
    rw [modifiersFrom_led (by decide) header]
    exact modifiersFrom_members members

theorem strayModifier_unique {w : List Token} {d e : Declaration}
    (derived : declarations.Derives text .declaration w d)
    (other : declarations.Derives text .declaration w e) : d.strayModifier? = e.strayModifier? := by
  rw [Declaration.strayModifier?, Declaration.strayModifier?, ← modifiersFrom_declaration derived,
    ← modifiersFrom_declaration other]

end Deasync
