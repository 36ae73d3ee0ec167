import Deasync.Proofs.Capture.Scope

namespace Deasync

theorem mem_addNew {seen : List String} {name other : String} :
    other ∈ addNew seen name ↔ other ∈ seen ∨ other = name := by
  unfold addNew
  split
  · rename_i contained
    refine ⟨.inl, ?_⟩
    rintro (old | rfl)
    · exact old
    · exact List.contains_iff_mem.mp contained
  · rw [List.mem_append, List.mem_singleton]

theorem nodup_addNew {seen : List String} {name : String} (distinct : seen.Nodup) :
    (addNew seen name).Nodup := by
  unfold addNew
  split
  · exact distinct
  · rename_i absent
    refine List.nodup_append.mpr ⟨distinct, List.pairwise_singleton _ name, ?_⟩
    rintro old listed _ new rfl
    obtain rfl := List.mem_singleton.mp new
    exact absent (List.contains_iff_mem.mpr listed)

theorem foldl_addNew {seen names : List String} (distinct : seen.Nodup) :
    (names.foldl addNew seen).Nodup ∧
      ∀ name, name ∈ names.foldl addNew seen ↔ name ∈ seen ∨ name ∈ names := by
  induction names generalizing seen with
  | nil => exact ⟨distinct, by simp⟩
  | cons first names ih =>
    obtain ⟨nodup, members⟩ := ih (nodup_addNew distinct)
    refine ⟨nodup, fun name => ?_⟩
    rw [List.foldl_cons, members, mem_addNew, List.mem_cons, or_assoc]

theorem mem_outlivesPredicates {scope : String} {lifetimes types : List String} {predicate : String} :
    predicate ∈ outlivesPredicates scope lifetimes types ↔
      (∃ name ∈ lifetimes, name ≠ "'static" ∧ name ≠ scope ∧ predicate = name ++ ": " ++ scope) ∨
        ∃ name ∈ types, predicate = name ++ ": " ++ scope := by
  rw [outlivesPredicates, (foldl_addNew List.nodup_nil).2]
  simp only [List.not_mem_nil, false_or, List.map_append, List.mem_append, List.mem_map,
    List.mem_filter, Bool.and_eq_true, bne_iff_ne, ne_eq, eq_comm (b := predicate), and_assoc]

theorem mem_namedLifetimes {s : Signature} {name : String} :
    name ∈ s.namedLifetimes ↔ s.Holds .tied (some name) ∧ name ≠ placeholder := by
  simp [Signature.namedLifetimes, ← Signature.mem_usedLifetimes, isImplicit]

theorem mem_typesInPlay {s : Signature} {around : Surroundings} {name : String} :
    name ∈ s.typesInPlay around ↔
      name ∈ s.typeNames ∨ name ∈ around.outerTypes ∧ s.Mentions .tied name := by
  simp [Signature.typesInPlay, ← Signature.mem_mentioned, or_comm]

-- A `for<..>` declares this name.
def BinderDeclares (binder name : String) : Prop :=
  ∃ word tokens g, lex binder = .ok (word :: tokens) ∧ declarations.Derives binder .genericParams tokens g ∧
    ∃ p ∈ g.params, p.name = name

namespace Node

def Binds (name : String) : Node → Prop
  | bound (.trait _ (some binder) _ _) => BinderDeclares binder name
  | _ => False

-- `inner` is `outer` or stands somewhere inside it, and nothing on the way there binds the name.
inductive Free (name : String) (inner : Node) : Node → Prop where
  | self : Free name inner inner
  | part {outer m : Node} : m ∈ outer.parts .everywhere → ¬outer.Binds name → Free name inner m →
      Free name inner outer

-- The same for `inner` inside a place that is passed over.
inductive Missed (name : String) (inner : Node) : Node → Prop where
  | enters {outer m : Node} : m ∈ outer.passedOver .everywhere → ¬outer.Binds name → Free name inner m →
      Missed name inner outer
  | part {outer m : Node} : m ∈ outer.parts .tied → Missed name inner m → Missed name inner outer

theorem passedOver_everywhere {r : Reach} {outer m : Node} (passed : m ∈ outer.passedOver r) :
    m ∈ outer.passedOver .everywhere := by
  unfold passedOver at passed ⊢
  split at passed <;> simp_all [Reach.everywhere, parts.associated]

-- Where no `for<..>` is entered, nothing is bound.
theorem free_part {r : Reach} (plain : r.binders = false) {outer m : Node} (part : m ∈ outer.parts r)
    (name : String) : m ∈ outer.parts .everywhere ∧ ¬outer.Binds name := by
  refine ⟨mem_parts.mpr ((mem_parts.mp part).imp_left passedOver_everywhere), fun binds => ?_⟩
  unfold Binds at binds
  split at binds
  · simp [parts, plain] at part
  · exact binds

theorem within_everywhere {r : Reach} {inner outer : Node} (within : Within r inner outer) :
    Within .everywhere inner outer := by
  induction within with
  | self => exact .self
  | part part _ ih => exact .part (mem_parts.mpr ((mem_parts.mp part).imp_left passedOver_everywhere)) ih

theorem free_of_within {r : Reach} (plain : r.binders = false) {inner outer : Node}
    (within : Within r inner outer) (name : String) : Free name inner outer := by
  induction within with
  | self => exact .self
  | part part _ ih =>
    obtain ⟨anywhere, unbound⟩ := free_part plain part name
    exact .part anywhere unbound ih

theorem free_iff {name : String} {inner outer : Node} :
    Free name inner outer ↔ Within .tied inner outer ∨ Missed name inner outer := by
  constructor
  · intro free
    induction free with
    | self => exact .inl .self
    | part listed unbound free ih =>
      rcases mem_parts.mp listed with passed | part
      · exact .inr (.enters passed unbound free)
      · exact ih.imp (.part part) (.part part)
  · rintro (within | missed)
    · exact free_of_within rfl within name
    · induction missed with
      | enters passed unbound free => exact .part (mem_parts.mpr (.inl passed)) unbound free
      | part part _ ih =>
        obtain ⟨anywhere, unbound⟩ := free_part rfl part name
        exact .part anywhere unbound ih

end Node

namespace Signature

-- A lifetime stands free in the receiver, the parameters or the output.
def HoldsFree (s : Signature) (name : String) : Prop :=
  (∃ self ∈ s.receiver, self.form.lifetime? = some (some name)) ∨
    ∃ ty ∈ s.types, ∃ m, Node.Free name m (.ty ty) ∧ m.lifetime? = some (some name)

-- A lifetime stands free where tying passes over.
def Misses (s : Signature) (name : String) : Prop :=
  ∃ ty ∈ s.types, ∃ m, Node.Missed name m (.ty ty) ∧ m.lifetime? = some (some name)

-- A path that begins with a name stands where tying passes over.
def MissesType (s : Signature) (name : String) : Prop :=
  ∃ ty ∈ s.types, ∃ m, Node.Overlooked .everywhere m (.ty ty) ∧ m.mention? = some name

theorem holdsFree_iff {s : Signature} {name : String} :
    s.HoldsFree name ↔ s.Holds .tied (some name) ∨ s.Misses name := by
  simp only [HoldsFree, Holds, Misses, Node.free_iff, or_and_right, exists_or, and_or_left, or_assoc]

theorem holdsFree_of_holds {s : Signature} {r : Reach} (plain : r.binders = false) {name : String}
    (held : s.Holds r (some name)) : s.HoldsFree name := by
  refine held.imp_right ?_
  rintro ⟨ty, listed, m, within, stands⟩
  exact ⟨ty, listed, m, Node.free_of_within plain within name, stands⟩

theorem mentions_everywhere {s : Signature} {r : Reach} {name : String} (mentioned : s.Mentions r name) :
    s.Mentions .everywhere name := by
  obtain ⟨ty, listed, m, within, stands⟩ := mentioned
  exact ⟨ty, listed, m, Node.within_everywhere within, stands⟩

theorem mentions_iff {s : Signature} {name : String} :
    s.Mentions .everywhere name ↔ s.Mentions .tied name ∨ s.MissesType name := by
  simp only [Mentions, MissesType, Node.within_iff (r := .everywhere), or_and_right, exists_or, and_or_left]

-- What all the names that a signature captures owe to the lifetime of the call.
def Owes (s : Signature) (around : Surroundings) (scope predicate : String) : Prop :=
  (∃ name, (name ∈ s.lifetimes ∨ s.HoldsFree name) ∧ name ≠ "'static" ∧ name ≠ placeholder ∧
      name ≠ scope ∧ predicate = name ++ ": " ++ scope) ∨
    ∃ name, (name ∈ s.typeNames ∨ name ∈ around.outerTypes ∧ s.Mentions .everywhere name) ∧
      predicate = name ++ ": " ++ scope

end Signature

-- Exactly what tying meets outlives the call: the lifetimes and the types that are declared, and those that stand
-- within reach. So all that a signature captures does exactly where what is passed over is met elsewhere.
theorem capture_outlives {s : Signature} {around : Surroundings} {c : Captured}
    (captured : s.capture around = .ok c) :
    c.outlives.Nodup ∧
    (∀ predicate, predicate ∈ c.outlives ↔
      (∃ name, (name ∈ s.lifetimes ∨ s.Holds .tied (some name) ∧ name ≠ placeholder) ∧
          name ≠ "'static" ∧ name ≠ c.scope ∧ predicate = name ++ ": " ++ c.scope) ∨
        ∃ name, (name ∈ s.typeNames ∨ name ∈ around.outerTypes ∧ s.Mentions .tied name) ∧
          predicate = name ++ ": " ++ c.scope) ∧
    (∀ predicate ∈ c.outlives, s.Owes around c.scope predicate ∨
      placeholder ∈ s.lifetimes ∧ predicate = placeholder ++ ": " ++ c.scope) ∧
    ((∀ predicate, s.Owes around c.scope predicate → predicate ∈ c.outlives) ↔
      (∀ name, s.Misses name → name ≠ "'static" → name ≠ placeholder → name ≠ c.scope →
        name ++ ": " ++ c.scope ∈ c.outlives) ∧
      ∀ name ∈ around.outerTypes, s.MissesType name → name ++ ": " ++ c.scope ∈ c.outlives) := by
  obtain ⟨_, _, _, outlives, _⟩ := capture_eq_ok_iff.mp captured
  have exactly (predicate : String) : predicate ∈ c.outlives ↔
      (∃ name, (name ∈ s.lifetimes ∨ s.Holds .tied (some name) ∧ name ≠ placeholder) ∧
          name ≠ "'static" ∧ name ≠ c.scope ∧ predicate = name ++ ": " ++ c.scope) ∨
        ∃ name, (name ∈ s.typeNames ∨ name ∈ around.outerTypes ∧ s.Mentions .tied name) ∧
          predicate = name ++ ": " ++ c.scope := by
    simp only [outlives, mem_outlivesPredicates, List.mem_append, mem_namedLifetimes, mem_typesInPlay]
  refine ⟨outlives ▸ (foldl_addNew List.nodup_nil).1, exactly, fun predicate listed => ?_, ?_⟩
  · rcases (exactly predicate).mp listed with ⟨name, met, notStatic, notScope, rfl⟩ | ⟨name, met, rfl⟩
    · by_cases blank : name = placeholder
      · subst blank
        exact .inr ⟨met.resolve_right fun held => held.2 rfl, rfl⟩
      · refine .inl (.inl ⟨name, ?_, notStatic, blank, notScope, rfl⟩)
        exact met.imp_right fun held => Signature.holdsFree_iff.mpr (.inl held.1)
    · refine .inl (.inr ⟨name, ?_, rfl⟩)
      exact met.imp_right fun played => ⟨played.1, Signature.mentions_iff.mpr (.inl played.2)⟩
  constructor
  · intro all
    refine ⟨fun name missed notStatic named notScope => ?_, fun name outer missed => ?_⟩
    · refine all _ (.inl ⟨name, .inr ?_, notStatic, named, notScope, rfl⟩)
      exact Signature.holdsFree_iff.mpr (.inr missed)
    · refine all _ (.inr ⟨name, .inr ⟨outer, ?_⟩, rfl⟩)
      exact Signature.mentions_iff.mpr (.inr missed)
  · rintro ⟨lifetimes, types⟩ predicate
      (⟨name, met, notStatic, named, notScope, rfl⟩ | ⟨name, met, rfl⟩)
    · rcases met with declared | free
      · exact (exactly _).mpr (.inl ⟨name, .inl declared, notStatic, notScope, rfl⟩)
      · rcases Signature.holdsFree_iff.mp free with held | missed
        · exact (exactly _).mpr (.inl ⟨name, .inr ⟨held, named⟩, notStatic, notScope, rfl⟩)
        · exact lifetimes name missed notStatic named notScope
    · rcases met with declared | ⟨outer, mentioned⟩
      · exact (exactly _).mpr (.inr ⟨name, .inl declared, rfl⟩)
      · rcases Signature.mentions_iff.mp mentioned with within | missed
        · exact (exactly _).mpr (.inr ⟨name, .inr ⟨outer, within⟩, rfl⟩)
        · exact types name outer missed

theorem capture_outlives_borrowing : ∃ c, borrowingSignature.capture borrowingSurroundings = .ok c ∧
    c.outlives.Nodup ∧
    (∀ predicate, predicate ∈ c.outlives ↔
      (∃ name, (name ∈ borrowingSignature.lifetimes ∨
          borrowingSignature.Holds .tied (some name) ∧ name ≠ placeholder) ∧
          name ≠ "'static" ∧ name ≠ c.scope ∧ predicate = name ++ ": " ++ c.scope) ∨
        ∃ name, (name ∈ borrowingSignature.typeNames ∨
          name ∈ borrowingSurroundings.outerTypes ∧ borrowingSignature.Mentions .tied name) ∧
          predicate = name ++ ": " ++ c.scope) ∧
    (∀ predicate ∈ c.outlives, borrowingSignature.Owes borrowingSurroundings c.scope predicate ∨
      placeholder ∈ borrowingSignature.lifetimes ∧ predicate = placeholder ++ ": " ++ c.scope) ∧
    ((∀ predicate, borrowingSignature.Owes borrowingSurroundings c.scope predicate → predicate ∈ c.outlives) ↔
      (∀ name, borrowingSignature.Misses name → name ≠ "'static" → name ≠ placeholder → name ≠ c.scope →
        name ++ ": " ++ c.scope ∈ c.outlives) ∧
      ∀ name ∈ borrowingSurroundings.outerTypes, borrowingSignature.MissesType name →
        name ++ ": " ++ c.scope ∈ c.outlives) := by
  obtain ⟨c, captured⟩ : ∃ c, borrowingSignature.capture borrowingSurroundings = .ok c := ⟨_, rfl⟩
  exact ⟨c, captured, capture_outlives captured⟩

def closureText : String := "trait A<T> \x7b fn f(g: Box<dyn Fn(&'a T)>); \x7d"

-- What only the closure notation names is not tied.
theorem capture_passes_over_closure : ∃ d, Declaration.read closureText = .ok d ∧ ∃ m ∈ d.methods,
    ∃ c, m.signature.capture ⟨[], [], ["T"]⟩ = .ok c ∧
      m.signature.HoldsFree "'a" ∧ m.signature.Mentions .everywhere "T" ∧
      c.scope = "'async_trait" ∧ c.outlives = [] ∧
      ¬∀ predicate, predicate ∈ c.outlives ↔ m.signature.Owes ⟨[], [], ["T"]⟩ c.scope predicate := by
  let closures : Reach := ⟨true, false, false⟩
  let lifetime (ty : Ty) := ((Node.ty ty).follow closures [0, 0, 0, 0, 0, 0, 0, 0]).bind Node.lifetime?
  let mention (ty : Ty) := ((Node.ty ty).follow closures [0, 0, 0, 0, 0, 0, 0, 0, 0, 0]).bind Node.mention?
  have found : (captureFirst? closureText ⟨[], [], ["T"]⟩).any fun (s, c) =>
      s.types.head?.bind lifetime = some (some "'a") ∧ s.types.head?.bind mention = some "T" ∧
        c.scope = "'async_trait" ∧ c.outlives = [] := by
    decide +kernel
  obtain ⟨⟨s, c⟩, first, checked⟩ := (Option.any_eq_true _ _).mp found
  obtain ⟨held, mentioned, scope, outlives⟩ := of_decide_eq_true checked
  obtain ⟨d, read, m, listed, rfl, captured⟩ := exists_of_captureFirst? first
  have free : m.signature.HoldsFree "'a" := Signature.holdsFree_of_holds rfl (Signature.holds_of_follow held)
  have type : m.signature.Mentions .everywhere "T" :=
    Signature.mentions_everywhere (Signature.mentions_of_follow mentioned)
  refine ⟨d, read, m, listed, c, captured, free, type, scope, outlives, fun exactly => ?_⟩
  have owed := (exactly ("'a" ++ ": " ++ c.scope)).mpr
    (.inl ⟨"'a", .inr free, by decide, by decide, by rw [scope]; decide, rfl⟩)
  rw [outlives] at owed
  cases owed

end Deasync
