import Deasync.Expansion.Lift
import Deasync.Proofs.Capture.Outlives
import Deasync.Proofs.Wording

namespace Deasync

section

variable {P : String → Prop}

def Node.items : Node → List Item
  | ty t => t.items
  | path p => p.items
  | segment s => s.items false
  | argument a => a.items
  | bound b => b.items

theorem eachText_itemsTail {tail : List Segment} (told : EachText P (Segment.itemsTail false tail)) :
    ∀ s ∈ tail, EachText P (s.items false) := by
  induction tail with
  | nil => exact List.forall_mem_nil _
  | cons s tail ih =>
    simp only [Segment.itemsTail, eachText_mark, eachText_append] at told
    exact List.forall_mem_cons.mpr ⟨told.1, ih told.2⟩

theorem eachText_types {list : List Ty} :
    (∀ row ∈ Ty.itemsEach list, EachText P row) ↔ ∀ t ∈ list, EachText P t.items := by
  have same : Ty.itemsEach list = list.map Ty.items := each_eq_map rfl (fun _ _ => rfl) list
  rw [same, List.forall_mem_map]

theorem eachText_arguments {list : List GenericArg} :
    (∀ row ∈ GenericArg.itemsEach list, EachText P row) ↔ ∀ a ∈ list, EachText P a.items := by
  have same : GenericArg.itemsEach list = list.map GenericArg.items := each_eq_map rfl (fun _ _ => rfl) list
  rw [same, List.forall_mem_map]

theorem eachText_bounds {list : List Bound} :
    (∀ row ∈ Bound.itemsEach list, EachText P row) ↔ ∀ b ∈ list, EachText P b.items := by
  have same : Bound.itemsEach list = list.map Bound.items := each_eq_map rfl (fun _ _ => rfl) list
  rw [same, List.forall_mem_map]

theorem eachText_root {root : Root} (told : EachText P root.items) : ∀ n ∈ root.parts, EachText P n.items := by
  cases root with
  | relative | global => exact List.forall_mem_nil _
  | qualified self asTrait =>
    cases asTrait with
    | none =>
      simp only [Root.items, eachText_mark, eachText_append] at told
      exact List.forall_mem_singleton.mpr told.1
    | some path =>
      simp only [Root.items, eachText_mark, eachText_blank, eachText_append] at told
      exact List.forall_mem_cons.mpr ⟨told.1, List.forall_mem_singleton.mpr told.2.1.2⟩

-- Where lifetimes are tied, the texts of the parts are among those of the whole.
theorem Node.told_parts {n : Node} (told : EachText P n.items) : ∀ m ∈ n.parts .tied, EachText P m.items := by
  have bounds {list : List Bound} (told : EachText P (summed (Bound.itemsEach list))) :
      ∀ m ∈ list.map Node.bound, EachText P m.items :=
    List.forall_mem_map.mpr (eachText_bounds.mp ((eachText_summed _).mp told))
  cases n with
  | ty t =>
    cases t with
    | path p => exact List.forall_mem_singleton.mpr told
    | reference lifetime mutable inner e =>
      simp only [Node.items, Ty.items, eachText_mark, eachText_append] at told
      exact List.forall_mem_singleton.mpr told.2
    | pointer mutable inner e =>
      simp only [Node.items, Ty.items, eachText_mark, eachText_blank] at told
      exact List.forall_mem_singleton.mpr told
    | paren inner e | slice inner e | array inner length e =>
      simp only [Node.items, Ty.items, eachText_mark, eachText_append] at told
      exact List.forall_mem_singleton.mpr told.1
    | tuple elements e =>
      rcases elements with _ | ⟨only, _ | ⟨second, rest⟩⟩
      · exact List.forall_mem_nil _
      · simp only [Node.items, Ty.items, eachText_mark, eachText_append] at told
        exact List.forall_mem_singleton.mpr told.1
      · simp only [Node.items, Ty.items, eachText_mark, eachText_append, eachText_listed] at told
        exact List.forall_mem_map.mpr (eachText_types.mp told.1)
    | traitObject list e | implTrait list e =>
      simp only [Node.items, Ty.items, eachText_mark, eachText_blank] at told
      exact bounds told
    | never | infer | functionPointer | macroCall => exact List.forall_mem_nil _
  | path p =>
    obtain ⟨root, head, tail, e⟩ := p
    simp only [Node.items, Path.items, eachText_append] at told
    refine List.forall_mem_append.mpr ⟨eachText_root told.1, List.forall_mem_map.mpr ?_⟩
    exact List.forall_mem_cons.mpr ⟨told.2.1, eachText_itemsTail told.2.2⟩
  | segment s =>
    cases s with
    | plain name | call name inputs output => exact List.forall_mem_nil _
    | angled name turbofish arguments =>
      simp only [Node.items, Segment.items, eachText_name, eachText_mark, eachText_append,
        eachText_listed] at told
      exact List.forall_mem_map.mpr (eachText_arguments.mp told.2.2.1)
  | argument a =>
    cases a with
    | lifetime name | const text => exact List.forall_mem_nil _
    | type ty => exact List.forall_mem_singleton.mpr told
    | binding name arguments ty =>
      refine List.forall_mem_singleton.mpr ?_
      cases arguments <;>
        simp only [Node.items, GenericArg.items, eachText_name, eachText_mark, eachText_blank,
          eachText_append] at told
      · exact told.2
      · exact told.2.2
    | constraint name arguments list =>
      refine bounds ?_
      cases arguments <;>
        simp only [Node.items, GenericArg.items, eachText_name, eachText_mark, eachText_blank,
          eachText_append] at told
      · exact told.2
      · exact told.2.2
  | bound b =>
    cases b with
    | lifetime name => exact List.forall_mem_nil _
    | trait maybe binder paren p =>
      cases binder with
      | some names => exact List.forall_mem_nil _
      | none =>
        refine List.forall_mem_singleton.mpr ?_
        cases paren <;> simp only [Node.items, Bound.items, if_true, if_false, Bool.false_eq_true,
          eachText_mark, eachText_append] at told
        · exact told.2.2
        · exact told.1.2.2

theorem Node.told_within {n m : Node} (within : Within .tied m n) (told : EachText P n.items) :
    EachText P m.items := by
  induction within with
  | self => exact told
  | part listed _ ih => exact ih (told_parts told _ listed)

theorem Node.told_lifetime {n : Node} {name : String} (own : n.lifetime? = some (some name))
    (told : EachText P n.items) : P name := by
  unfold lifetime? at own
  split at own
  · obtain rfl := Option.some.inj own
    simp only [Node.items, Ty.items, eachText_mark, eachText_append, eachText_lifetime] at told
    exact told.1.1.1
  · cases own
    exact ((eachText_lifetime _).mp told).1
  · cases own
    exact ((eachText_lifetime _).mp told).1
  · cases own

theorem Signature.Told.types {s : Signature} (told : s.Told P) : ∀ ty ∈ s.types, ty.Told P := by
  refine List.forall_mem_append.mpr ⟨List.forall_mem_append.mpr ⟨fun ty listed => ?_, ?_⟩, fun ty listed =>
    told.output ty (Option.mem_toList.mp listed)⟩
  · obtain ⟨r, present, own⟩ := List.mem_filterMap.mp listed
    have form := (told.receiver r (Option.mem_toList.mp present)).form
    cases shape : r.form with
    | typed mutable ty' =>
      rw [shape] at own form
      cases own
      exact form
    | reference | value =>
      rw [shape] at own
      cases own
  · exact List.forall_mem_map.mpr fun p listed => (told.params p listed).ty

-- The lifetimes that a signature names are texts of it.
theorem Signature.Told.holds {s : Signature} (told : s.Told P) {name : String}
    (holds : s.Holds .tied (some name)) : P name := by
  rcases holds with ⟨r, present, own⟩ | ⟨ty, listed, m, within, own⟩
  · have form := (told.receiver r present).form
    cases shape : r.form with
    | reference lifetime mutable =>
      rw [shape] at own form
      cases own
      exact form name rfl
    | typed | value =>
      rw [shape] at own
      cases own
  · exact Node.told_lifetime own (Node.told_within within (told.types ty listed))

end

theorem Bound.itemsEach_append (bounds more : List Bound) :
    Bound.itemsEach (bounds ++ more) = Bound.itemsEach bounds ++ Bound.itemsEach more := by
  induction bounds with
  | nil => rfl
  | cons b bounds ih => rw [List.cons_append, Bound.itemsEach, Bound.itemsEach, ih, List.cons_append]

section

variable {P : String → Prop} {scope : String}

theorem told_tieLifetime (given : P scope) {lifetime : Option String}
    (own : ∀ name ∈ lifetime, P name) : P (tieLifetime scope lifetime) := by
  unfold tieLifetime
  split
  · exact given
  · split
    · exact given
    · exact own _ rfl

theorem eachText_outliving (given : P scope) {a : Bool} {bounds : List Bound}
    (told : ∀ row ∈ Bound.itemsEach bounds, EachText P row) :
    ∀ row ∈ Bound.itemsEach (outliving scope a bounds), EachText P row := by
  unfold outliving
  split
  · rw [Bound.itemsEach_append]
    exact List.forall_mem_append.mpr ⟨told, List.forall_mem_singleton.mpr (by simp [Bound.items, given])⟩
  · exact told

mutual

theorem Ty.eachText_tie (given : P scope) (a : Bool) : (t : Ty) → EachText P t.items →
    EachText P (t.tie scope a).items
  | .path p, told => Path.eachText_tie given a p told
  | .reference lifetime mutable inner _, told => by
    simp only [Ty.tie, Ty.items, eachText_mark, eachText_append] at told ⊢
    obtain ⟨⟨own, marked⟩, inside⟩ := told
    refine ⟨⟨?_, marked⟩, Ty.eachText_tie given a inner inside⟩
    refine (eachText_lifetime _).mpr ⟨told_tieLifetime given fun name some => ?_, by simp⟩
    cases some
    exact ((eachText_lifetime name).mp own).1
  | .pointer mutable inner _, told => by
    simp only [Ty.tie, Ty.items, eachText_mark, eachText_blank] at told ⊢
    exact Ty.eachText_tie given a inner told
  | .tuple [] _, told => told
  | .tuple [only] _, told => by
    simp only [Ty.tie, Ty.tieEach, Ty.items, eachText_mark, eachText_append, eachText_nil, and_true] at told ⊢
    exact Ty.eachText_tie given a only told
  | .tuple (first :: second :: rest) _, told => by
    simp only [Ty.tie, Ty.tieEach, Ty.items, eachText_mark, eachText_append, eachText_listed,
      eachText_nil, and_true] at told ⊢
    exact Ty.eachText_tieEach given a (first :: second :: rest) told
  | .paren inner _, told => by
    simp only [Ty.tie, Ty.items, eachText_mark, eachText_append, eachText_nil, and_true] at told ⊢
    exact Ty.eachText_tie given a inner told
  | .slice inner _, told => by
    simp only [Ty.tie, Ty.items, eachText_mark, eachText_append, eachText_nil, and_true] at told ⊢
    exact Ty.eachText_tie given a inner told
  | .array inner length _, told => by
    simp only [Ty.tie, Ty.items, eachText_mark, eachText_append] at told ⊢
    exact ⟨Ty.eachText_tie given a inner told.1, told.2⟩
  | .never _, told | .infer _, told | .functionPointer _ _, told | .macroCall _ _, told => told
  | .traitObject bounds _, told => by
    simp only [Ty.tie, Ty.items, eachText_mark, eachText_blank, eachText_summed] at told ⊢
    exact Bound.eachText_tieEach given bounds told
  | .implTrait bounds _, told => by
    simp only [Ty.tie, Ty.items, eachText_mark, eachText_blank, eachText_summed] at told ⊢
    exact eachText_outliving given (Bound.eachText_tieEach given bounds told)

theorem Path.eachText_tie (given : P scope) (a : Bool) : (p : Path) → EachText P p.items →
    EachText P (p.tie scope a).items
  | .mk root head tail _, told => by
    simp only [Path.tie, Path.items, eachText_append] at told ⊢
    exact ⟨Root.eachText_tie given a root told.1, Segment.eachText_tie given a head told.2.1,
      Segment.eachText_tieTail given a tail told.2.2⟩

theorem Root.eachText_tie (given : P scope) (a : Bool) : (r : Root) → EachText P r.items →
    EachText P (r.tie scope a).items
  | .relative, told | .global, told => told
  | .qualified self none, told => by
    simp only [Root.tie, Root.items, eachText_mark, eachText_append, eachText_nil, and_true] at told ⊢
    exact Ty.eachText_tie given a self told
  | .qualified self (some path), told => by
    simp only [Root.tie, Root.items, eachText_mark, eachText_blank, eachText_append, eachText_nil, and_true,
      true_and] at told ⊢
    exact ⟨Ty.eachText_tie given a self told.1, Path.eachText_tie given false path told.2⟩

theorem Segment.eachText_tie (given : P scope) (a : Bool) : (s : Segment) → EachText P (s.items false) →
    EachText P ((s.tie scope a).items false)
  | .plain _, told => told
  | .call _ _ _, told => told
  | .angled name turbofish arguments, told => by
    simp only [Segment.tie, Segment.items, eachText_name, eachText_mark, eachText_append, eachText_listed,
      eachText_nil, and_true] at told ⊢
    exact ⟨told.1, told.2.1, GenericArg.eachText_tieEach given a arguments told.2.2⟩

theorem GenericArg.eachText_tie (given : P scope) (a : Bool) : (g : GenericArg) → EachText P g.items →
    EachText P (g.tie scope a).items
  | .lifetime name, told => by
    rw [GenericArg.items, eachText_lifetime] at told
    rw [GenericArg.tie, GenericArg.items, eachText_lifetime]
    refine ⟨told_tieLifetime given ?_, eachText_nil⟩
    rintro _ ⟨⟩
    exact told.1
  | .type ty, told => Ty.eachText_tie given a ty told
  | .binding name none ty, told => by
    simp only [GenericArg.tie, GenericArg.items, eachText_name, eachText_mark, eachText_blank] at told ⊢
    exact ⟨told.1, Ty.eachText_tie given a ty told.2⟩
  | .binding name (some arguments) ty, told => by
    simp only [GenericArg.tie, GenericArg.items, eachText_name, eachText_mark, eachText_blank,
      eachText_append] at told ⊢
    exact ⟨told.1, told.2.1, Ty.eachText_tie given a ty told.2.2⟩
  | .constraint name none bounds, told => by
    simp only [GenericArg.tie, GenericArg.items, eachText_name, eachText_mark, eachText_blank,
      eachText_summed] at told ⊢
    exact ⟨told.1, Bound.eachText_tieEach given bounds told.2⟩
  | .constraint name (some arguments) bounds, told => by
    simp only [GenericArg.tie, GenericArg.items, eachText_name, eachText_mark, eachText_blank,
      eachText_append, eachText_summed] at told ⊢
    exact ⟨told.1, told.2.1, Bound.eachText_tieEach given bounds told.2.2⟩
  | .const _, told => told

theorem Bound.eachText_tie (given : P scope) : (b : Bound) → EachText P b.items →
    EachText P (b.tie scope).items
  | .lifetime name, told => by
    rw [Bound.items, eachText_lifetime] at told
    rw [Bound.tie, Bound.items, eachText_lifetime]
    refine ⟨told_tieLifetime given ?_, eachText_nil⟩
    rintro _ ⟨⟩
    exact told.1
  | .trait maybe none paren path, told => by
    cases paren <;>
      simp only [Bound.tie, Bound.items, if_true, if_false, Bool.false_eq_true, eachText_mark,
        eachText_append, eachText_nil, and_true, true_and] at told ⊢
    · exact ⟨told.1, Path.eachText_tie given false path told.2⟩
    · exact ⟨told.1, Path.eachText_tie given false path told.2⟩
  | .trait _ (some _) _ _, told => told

theorem Ty.eachText_tieEach (given : P scope) (a : Bool) : (ts : List Ty) →
    (∀ row ∈ Ty.itemsEach ts, EachText P row) →
    ∀ row ∈ Ty.itemsEach (Ty.tieEach scope a ts), EachText P row
  | [], told => told
  | t :: rest, told => by
    rw [Ty.itemsEach, List.forall_mem_cons] at told
    rw [Ty.tieEach, Ty.itemsEach, List.forall_mem_cons]
    exact ⟨Ty.eachText_tie given a t told.1, Ty.eachText_tieEach given a rest told.2⟩

theorem Segment.eachText_tieTail (given : P scope) (a : Bool) : (ss : List Segment) →
    EachText P (Segment.itemsTail false ss) →
    EachText P (Segment.itemsTail false (Segment.tieEach scope a ss))
  | [], told => told
  | s :: rest, told => by
    simp only [Segment.tieEach, Segment.itemsTail, eachText_mark, eachText_append] at told ⊢
    exact ⟨Segment.eachText_tie given a s told.1, Segment.eachText_tieTail given a rest told.2⟩

theorem GenericArg.eachText_tieEach (given : P scope) (a : Bool) : (gs : List GenericArg) →
    (∀ row ∈ GenericArg.itemsEach gs, EachText P row) →
    ∀ row ∈ GenericArg.itemsEach (GenericArg.tieEach scope a gs), EachText P row
  | [], told => told
  | g :: rest, told => by
    rw [GenericArg.itemsEach, List.forall_mem_cons] at told
    rw [GenericArg.tieEach, GenericArg.itemsEach, List.forall_mem_cons]
    exact ⟨GenericArg.eachText_tie given a g told.1, GenericArg.eachText_tieEach given a rest told.2⟩

theorem Bound.eachText_tieEach (given : P scope) : (bs : List Bound) →
    (∀ row ∈ Bound.itemsEach bs, EachText P row) →
    ∀ row ∈ Bound.itemsEach (Bound.tieEach scope bs), EachText P row
  | [], told => told
  | b :: rest, told => by
    rw [Bound.itemsEach, List.forall_mem_cons] at told
    rw [Bound.tieEach, Bound.itemsEach, List.forall_mem_cons]
    exact ⟨Bound.eachText_tie given b told.1, Bound.eachText_tieEach given rest told.2⟩

end

theorem Signature.Told.tie {s : Signature} (told : s.Told P) (given : P scope) : (s.tie scope).Told P where
  name := told.name
  visibility := told.visibility
  abi := told.abi
  generics := told.generics
  receiver r listed := by
    obtain ⟨own, some, rfl⟩ := Option.map_eq_some_iff.mp listed
    obtain ⟨attributes, form⟩ := told.receiver own some
    refine ⟨attributes, ?_⟩
    cases form' : own.form with
    | reference lifetime mutable =>
      rw [form'] at form
      rintro _ ⟨⟩
      exact told_tieLifetime given form
    | typed mutable ty =>
      rw [form'] at form
      exact Ty.eachText_tie given false ty form
    | value mutable => trivial
  params p listed := by
    obtain ⟨own, present, rfl⟩ := List.mem_map.mp listed
    have kept := told.params own present
    exact ⟨kept.pattern, Ty.eachText_tie given true own.ty kept.ty, kept.attributes⟩
  output ty listed := by
    obtain ⟨own, some, rfl⟩ := Option.map_eq_some_iff.mp listed
    exact Ty.eachText_tie given false own (told.output own some)
  requirements := told.requirements

end

def Lifted.Told (P : String → Prop) (l : Lifted) : Prop := Bound.ToldEach P l.bounds

section

variable {P : String → Prop}

theorem toldEach_append {α : Type} {told : α → Prop} {a b : List α} :
    ToldEach told (a ++ b) ↔ ToldEach told a ∧ ToldEach told b :=
  List.forall_mem_append

theorem toldEach_nil {α : Type} {told : α → Prop} : ToldEach told [] := List.forall_mem_nil _

mutual

theorem Ty.eachText_lift (given : ∀ k, P (liftedName k)) (n : Nat) : (t : Ty) → EachText P t.items →
    EachText P (t.lift n).1.items ∧ ToldEach (Lifted.Told P) (t.lift n).2
  | .path p, told => Path.eachText_lift given n p told
  | .implTrait bounds _, told => by
    simp only [Ty.lift, Ty.items, Path.items, Root.items, Segment.items, Segment.itemsTail, eachText_mark,
      eachText_blank, List.nil_append, List.append_nil, eachText_name, eachText_nil, and_true] at told ⊢
    exact ⟨given n, List.forall_mem_singleton.mpr told⟩
  | .reference lifetime mutable inner _, told => by
    simp only [Ty.lift, Ty.items, eachText_mark, eachText_append] at told ⊢
    obtain ⟨text, lifted⟩ := Ty.eachText_lift given n inner told.2
    exact ⟨⟨told.1, text⟩, lifted⟩
  | .pointer mutable inner _, told => by
    simp only [Ty.lift, Ty.items, eachText_mark, eachText_blank] at told ⊢
    exact Ty.eachText_lift given n inner told
  | .tuple [] _, told => ⟨told, toldEach_nil⟩
  | .tuple [only] _, told => by
    simp only [Ty.lift, Ty.liftEach, Ty.items, eachText_mark, eachText_append, eachText_nil, and_true,
      List.append_nil] at told ⊢
    exact Ty.eachText_lift given n only told
  | .tuple (first :: second :: rest) _, told => by
    simp only [Ty.lift, Ty.liftEach, Ty.items, eachText_mark, eachText_append, eachText_listed,
      eachText_nil, and_true] at told ⊢
    exact Ty.eachText_liftEach given n (first :: second :: rest) told
  | .paren inner _, told => by
    simp only [Ty.lift, Ty.items, eachText_mark, eachText_append, eachText_nil, and_true] at told ⊢
    exact Ty.eachText_lift given n inner told
  | .slice inner _, told => by
    simp only [Ty.lift, Ty.items, eachText_mark, eachText_append, eachText_nil, and_true] at told ⊢
    exact Ty.eachText_lift given n inner told
  | .array inner length _, told => by
    simp only [Ty.lift, Ty.items, eachText_mark, eachText_append] at told ⊢
    obtain ⟨text, lifted⟩ := Ty.eachText_lift given n inner told.1
    exact ⟨⟨text, told.2⟩, lifted⟩
  | .never _, told | .infer _, told | .functionPointer _ _, told | .macroCall _ _, told
  | .traitObject _ _, told => ⟨told, toldEach_nil⟩

theorem Path.eachText_lift (given : ∀ k, P (liftedName k)) (n : Nat) : (p : Path) → EachText P p.items →
    EachText P (p.lift n).1.items ∧ ToldEach (Lifted.Told P) (p.lift n).2
  | .mk root head tail _, told => by
    simp only [Path.lift, Path.items, eachText_append] at told ⊢
    obtain ⟨first, own⟩ := Segment.eachText_lift given n head told.2.1
    obtain ⟨later, others⟩ := Segment.eachText_liftTail given (n + (head.lift n).2.length) tail told.2.2
    exact ⟨⟨told.1, first, later⟩, toldEach_append.mpr ⟨own, others⟩⟩

theorem Segment.eachText_lift (given : ∀ k, P (liftedName k)) (n : Nat) :
    (s : Segment) → EachText P (s.items false) →
    EachText P ((s.lift n).1.items false) ∧ ToldEach (Lifted.Told P) (s.lift n).2
  | .plain _, told | .call _ _ _, told => ⟨told, toldEach_nil⟩
  | .angled name turbofish arguments, told => by
    simp only [Segment.lift, Segment.items, eachText_name, eachText_mark, eachText_append, eachText_listed,
      eachText_nil, and_true] at told ⊢
    obtain ⟨texts, lifted⟩ := GenericArg.eachText_liftEach given n arguments told.2.2
    exact ⟨⟨told.1, told.2.1, texts⟩, lifted⟩

theorem GenericArg.eachText_lift (given : ∀ k, P (liftedName k)) (n : Nat) :
    (g : GenericArg) → EachText P g.items →
    EachText P (g.lift n).1.items ∧ ToldEach (Lifted.Told P) (g.lift n).2
  | .type ty, told => Ty.eachText_lift given n ty told
  | .lifetime _, told | .binding _ _ _, told | .constraint _ _ _, told | .const _, told =>
    ⟨told, toldEach_nil⟩

theorem Ty.eachText_liftEach (given : ∀ k, P (liftedName k)) (n : Nat) : (ts : List Ty) →
    (∀ row ∈ Ty.itemsEach ts, EachText P row) →
    (∀ row ∈ Ty.itemsEach (Ty.liftEach n ts).1, EachText P row) ∧
      ToldEach (Lifted.Told P) (Ty.liftEach n ts).2
  | [], told => ⟨told, toldEach_nil⟩
  | t :: rest, told => by
    rw [Ty.itemsEach, List.forall_mem_cons] at told
    obtain ⟨first, own⟩ := Ty.eachText_lift given n t told.1
    obtain ⟨later, others⟩ := Ty.eachText_liftEach given (n + (t.lift n).2.length) rest told.2
    exact ⟨List.forall_mem_cons.mpr ⟨first, later⟩, toldEach_append.mpr ⟨own, others⟩⟩

theorem Segment.eachText_liftTail (given : ∀ k, P (liftedName k)) (n : Nat) : (ss : List Segment) →
    EachText P (Segment.itemsTail false ss) →
    EachText P (Segment.itemsTail false (Segment.liftEach n ss).1) ∧
      ToldEach (Lifted.Told P) (Segment.liftEach n ss).2
  | [], told => ⟨told, toldEach_nil⟩
  | s :: rest, told => by
    simp only [Segment.liftEach, Segment.itemsTail, eachText_mark, eachText_append] at told ⊢
    obtain ⟨first, own⟩ := Segment.eachText_lift given n s told.1
    obtain ⟨later, others⟩ := Segment.eachText_liftTail given (n + (s.lift n).2.length) rest told.2
    exact ⟨⟨first, later⟩, toldEach_append.mpr ⟨own, others⟩⟩

theorem GenericArg.eachText_liftEach (given : ∀ k, P (liftedName k)) (n : Nat) : (gs : List GenericArg) →
    (∀ row ∈ GenericArg.itemsEach gs, EachText P row) →
    (∀ row ∈ GenericArg.itemsEach (GenericArg.liftEach n gs).1, EachText P row) ∧
      ToldEach (Lifted.Told P) (GenericArg.liftEach n gs).2
  | [], told => ⟨told, toldEach_nil⟩
  | g :: rest, told => by
    rw [GenericArg.itemsEach, List.forall_mem_cons] at told
    obtain ⟨first, own⟩ := GenericArg.eachText_lift given n g told.1
    obtain ⟨later, others⟩ := GenericArg.eachText_liftEach given (n + (g.lift n).2.length) rest told.2
    exact ⟨List.forall_mem_cons.mpr ⟨first, later⟩, toldEach_append.mpr ⟨own, others⟩⟩

end

end

end Deasync
