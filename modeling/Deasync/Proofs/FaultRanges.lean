import Deasync.Proofs.FaultPlaces
import Deasync.Proofs.Grammar.Acceptance
import Deasync.Proofs.Lexeme.Growth
import Deasync.Proofs.OutlineContext

namespace Deasync

open Grammar

namespace Lexeme

theorem startsWord_not_isBlank {c : Char} (starts : startsWord c) : ¬Text.isBlank c := by
  have bounds : 65 ≤ c.toNat ∧ c.toNat ≤ 122 := by
    rcases Bool.or_eq_true_iff.mp starts with letter | mark
    · rcases Bool.or_eq_true_iff.mp letter with upper | lower
      · have bounds : 65 ≤ c.toNat ∧ c.toNat ≤ 90 := of_decide_eq_true upper
        omega
      · obtain ⟨least, most⟩ := Bool.and_eq_true_iff.mp lower
        have first : 97 ≤ c.toNat := of_decide_eq_true least
        have last : c.toNat ≤ 122 := of_decide_eq_true most
        omega
    · rw [beq_iff_eq.mp mark]
      decide
  simp only [Text.isBlank, Bool.or_eq_true, Bool.and_eq_true, decide_eq_true_eq, beq_iff_eq]
  omega

theorem isDigit_not_isBlank {c : Char} (digit : c.isDigit) : ¬Text.isBlank c := by
  have bounds : 48 ≤ c.toNat ∧ c.toNat ≤ 57 := by
    simp only [Char.isDigit, Bool.and_eq_true, decide_eq_true_eq, UInt32.le_iff_toNat_le] at digit
    exact digit
  simp only [Text.isBlank, Bool.or_eq_true, Bool.and_eq_true, decide_eq_true_eq, beq_iff_eq]
  omega

theorem mem_of_lookup {α β : Type} [BEq α] [LawfulBEq α] {table : List (α × β)} {key : α} {value : β}
    (found : table.lookup key = some value) : (key, value) ∈ table := by
  obtain ⟨front, back, split, _⟩ := List.lookup_eq_some_iff.mp found
  rw [split]
  simp

theorem pairs_visible : ∀ p ∈ Kind.pairs, ¬Text.isBlank p.1.1 := by decide

theorem singles_visible : ∀ p ∈ Kind.singles, ¬Text.isBlank p.1 := by decide

theorem mark_not_isBlank {c : Char} {cs : List Char} {r : Class × Nat}
    (read : mark (c :: cs) = some r) : ¬Text.isBlank c := by
  unfold mark at read
  dsimp only at read
  rcases Option.or_eq_some_iff.mp read with pair | ⟨_, single⟩
  · cases cs with
    | nil => cases pair
    | cons b cs =>
      dsimp only at pair
      obtain ⟨k, listed, _⟩ := Option.map_eq_some_iff.mp pair
      exact pairs_visible ((c, b), k) (mem_of_lookup listed)
  · obtain ⟨k, listed, _⟩ := Option.map_eq_some_iff.mp single
    exact singles_visible (c, k) (mem_of_lookup listed)

-- Whatever begins with a blank is a gap.
theorem not_isBlank {c : Char} {cs : List Char} {kind : Kind} {n : Nat}
    (found : lexeme (c :: cs) = some (.token kind, n)) : ¬Text.isBlank c := by
  have visible {d : Char} {x y : List Char} (same : c :: x = d :: y) (other : ¬Text.isBlank d) :
      ¬Text.isBlank c := by
    cases same
    exact other
  rcases lexeme_cases found with read | read | read | read | read | read | read | read | read
  · unfold rawString at read
    split at read <;> first | (rename_i same; exact visible same (by decide)) | cases read
  · unfold charLiteral at read
    split at read <;> first | (rename_i same; exact visible same (by decide)) | cases read
  · unfold stringLiteral at read
    split at read <;> first | (rename_i same; exact visible same (by decide)) | cases read
  · cases gapped : isGapChar c with
    | true =>
      rw [lexeme_gap gapped] at found
      cases found
    | false => simp [gap, gapped] at read
  · unfold comment at read
    split at read <;> first | (rename_i same; exact visible same (by decide)) | cases read
  · unfold word at read
    split at read
    · rename_i same
      exact visible same (by decide)
    · rename_i same
      split at read
      · rename_i starts
        exact visible same (startsWord_not_isBlank starts)
      · cases read
    · cases read
  · obtain ⟨digits, either, _⟩ := Option.map_eq_some_iff.mp read
    rcases Option.or_eq_some_iff.mp either with based | ⟨_, plain⟩
    · unfold radix at based
      split at based
      · rename_i same
        exact visible same (by decide)
      · cases based
    · unfold decimal at plain
      split at plain
      · rename_i same
        split at plain
        · rename_i digit
          exact visible same (isDigit_not_isBlank digit)
        · cases plain
      · cases plain
  · unfold lifetime at read
    split at read
    · rename_i same
      exact visible same (by decide)
    · cases read
  · exact mark_not_isBlank read

end Lexeme

theorem Text.trimEnd_cons (c : Char) (cs : List Char) : trimEnd (c :: cs) =
    if (trimEnd cs).isEmpty && isBlank c then [] else c :: trimEnd cs := rfl

theorem Text.length_trimEnd_le (cs : List Char) : (trimEnd cs).length ≤ cs.length := by
  induction cs with
  | nil => exact Nat.le_refl _
  | cons c cs ih =>
    rw [trimEnd_cons]
    split
    · exact Nat.zero_le _
    · exact Nat.succ_le_succ ih

-- Nothing is removed up to a character that is not blank.
theorem Text.length_lt_trimEnd (x : List Char) {c : Char} (y : List Char) (other : ¬isBlank c) :
    x.length < (trimEnd (x ++ c :: y)).length := by
  induction x with
  | nil =>
    rw [List.nil_append, trimEnd_cons]
    simp [other]
  | cons a x ih =>
    have filled : (trimEnd (x ++ c :: y)).isEmpty = false := by
      rw [List.isEmpty_eq_false_iff]
      exact List.ne_nil_of_length_pos (Nat.zero_lt_of_lt ih)
    rw [List.cons_append, trimEnd_cons, filled]
    simpa using ih

theorem lex_lt_trimEnd {text : String} {tokens : List Token} (lexed : lex text = .ok tokens)
    {token : Token} (listed : token ∈ tokens) :
    token.extent.start < (Text.trimEnd text.toList).length := by
  obtain ⟨before, later, rfl⟩ := List.append_of_mem listed
  obtain ⟨pieces, whole, row, split⟩ := lex_eq_ok_iff.mp lexed
  obtain ⟨p, read, q, rfl, -, same, -⟩ := placed_split split
  obtain ⟨filled, here⟩ : read ≠ [] ∧ Lexeme.lexeme (read ++ (joined q ++ [])) =
      some (.token token.kind, read.length) := by
    cases (lexed_append.mp row).2 with
    | cons filled here _ => exact ⟨filled, here⟩
  obtain ⟨c, rest, rfl⟩ := List.exists_cons_of_ne_nil filled
  have less := Text.length_lt_trimEnd (joined p) (rest ++ joined q) (Lexeme.not_isBlank here)
  have start : token.extent.start = (joined p).length := by
    rw [same]
    simp [Cursor.extent, Cursor.origin]
  rw [joined_append, joined_cons] at whole
  rw [start, ← whole]
  exact less

-- A token inside a text of some length.
def Token.Fits (length : Nat) (t : Token) : Prop :=
  t.extent.start ≤ t.extent.stop ∧ t.extent.stop ≤ length

theorem lex_fits {text : String} {tokens : List Token} (lexed : lex text = .ok tokens) :
    ∀ t ∈ tokens, t.Fits text.length := by
  intro t listed
  have row := lex_inRow lexed
  exact ⟨Nat.le_of_lt (row.filled t listed), row.to_stop t listed⟩

-- A fault of one of some families that points into a text of some length.
def Fault.Points (families : List Cause.Family) (length : Nat) (fault : Fault) : Prop :=
  fault.cause.family ∈ families ∧ ∃ start stop : Nat, ∃ first last,
    fault.span = .known none start stop first last ∧ start ≤ stop ∧ stop ≤ length

theorem Fault.points {families : List Cause.Family} {length start stop : Nat} {cause : Cause}
    {first last : Position} (own : cause.family ∈ families) (order : start ≤ stop)
    (most : stop ≤ length) : Fault.Points families length ⟨cause, .known none start stop first last⟩ :=
  ⟨own, start, stop, first, last, rfl, order, most⟩

theorem Fault.points_token {families : List Cause.Family} {length : Nat} {cause : Cause} {t : Token}
    (own : cause.family ∈ families) (fits : t.Fits length) :
    Fault.Points families length ⟨cause, .ofExtent t.extent⟩ :=
  Fault.points own fits.1 fits.2

theorem Fails.mono {P Q : Fault → Prop} {α : Type} {result : Except Fault α} (fails : Fails P result)
    (wider : ∀ fault, P fault → Q fault) : Fails Q result :=
  fun fault failed => wider fault (fails fault failed)

theorem Fault.Points.mono {families more : List Cause.Family} {length : Nat} {fault : Fault}
    (points : fault.Points families length) (wider : families ⊆ more) : fault.Points more length :=
  ⟨wider points.1, points.2⟩

theorem scanFrom_stray {cursor at' : Cursor} {cs : List Char} {c : Char}
    (stray : (scanFrom cursor cs).stray = some (c, at')) :
    at'.offset + 1 ≤ cursor.offset + cs.length := by
  obtain ⟨pieces, after, rfl, _, scanned, _⟩ := exists_row cursor cs
  rw [scanned] at stray
  obtain ⟨d, first, same⟩ := Option.map_eq_some_iff.mp stray
  obtain ⟨rest, rfl⟩ := List.head?_eq_some_iff.mp first
  cases same
  simp only [advance_offset, List.length_append, List.length_cons]
  omega

theorem lex_points (text : String) : Fails (Fault.Points [.parse] text.length) (lex text) := by
  unfold lex
  split
  · exact .ok _
  · rename_i c cursor scanned
    have bound := scanFrom_stray (congrArg Scan.stray scanned)
    simp only [Cursor.origin, String.length_toList, Nat.zero_add] at bound
    exact .error (Fault.points (.head _) (Nat.le_succ _) bound)

variable {length : Nat} {tokens : List Token}

theorem closingFrom_points {first : Token} (waiting : List Kind) (own : first.Fits length)
    (fits : ∀ t ∈ tokens, t.Fits length) :
    Fails (Fault.Points [.parse] length) (closingFrom first waiting tokens) := by
  fun_induction closingFrom first waiting tokens with
  | case1 => exact .error (Fault.points_token (.head _) own)
  | case2 waiting token later due opens ih => exact (ih (List.forall_mem_cons.mp fits).2).map _
  | case3 token later opens closes => exact .error (Fault.points_token (.head _) (fits _ (.head _)))
  | case4 token later opens closes due outer different =>
    exact .error (Fault.points_token (.head _) (fits _ (.head _)))
  | case5 => exact .ok _
  | case6 token later opens closes due outer same last ih =>
    exact (ih (List.forall_mem_cons.mp fits).2).map _
  | case7 waiting token later opens closes ih => exact (ih (List.forall_mem_cons.mp fits).2).map _

theorem closing_points {first : Token} (fits : ∀ t ∈ first :: tokens, t.Fits length) :
    Fails (Fault.Points [.parse] length) (closing first tokens) :=
  closingFrom_points [] (fits _ (.head _)) fits

-- The parts of a group stand in the text as the whole does.
theorem closing_fits {first : Token} {group : Closing} (closed : closing first tokens = .ok group)
    (fits : ∀ t ∈ first :: tokens, t.Fits length) :
    (∀ t ∈ group.before.tail, t.Fits length) ∧ ∀ t ∈ group.after, t.Fits length := by
  rw [closing_split closed, List.forall_mem_append, List.forall_mem_cons] at fits
  exact ⟨fun t listed => fits.1 t (List.mem_of_mem_tail listed), fits.2.2⟩

theorem attributeSite_points (text : String) (behind : Option Token) (hash : Token) {group : Closing}
    (fits : ∀ t ∈ group.before.tail, t.Fits length) :
    Fails (Fault.Points [.parse] length) (attributeSite text behind hash group) := by
  rw [attributeSite_eq]
  refine Fails.map ?_ _
  have rest : ∀ t ∈ (attributePath group.before.tail).2, t.Fits length :=
    fun t listed => fits t ((attributePath_suffix _).mem listed)
  unfold attributeArgument
  split
  · exact .ok _
  · rename_i token later same
    extract_lets cut
    split
    · exact (closing_points (same ▸ rest)).map _
    · exact .ok _

theorem leadingAttributes_points (text : String) (behind : Option Token)
    (fits : ∀ t ∈ tokens, t.Fits length) :
    Fails (Fault.Points [.parse] length) (leadingAttributes text behind tokens) := by
  fun_induction leadingAttributes text behind tokens with
  | case1 => exact .ok _
  | case2 token later doc ih => exact ih (List.forall_mem_cons.mp fits).2
  | case3 => exact .ok _
  | case4 token doc hash second rest square fault failed =>
    exact .error (closing_points (List.forall_mem_cons.mp fits).2 fault failed)
  | case5 token doc hash second rest square group closed fault failed =>
    have inside := (closing_fits closed (List.forall_mem_cons.mp fits).2).1
    exact .error (attributeSite_points text behind token inside fault failed)
  | case6 token doc hash second rest square group closed site found ih =>
    exact (ih (closing_fits closed (List.forall_mem_cons.mp fits).2).2).map _
  | case7 => exact .ok _
  | case8 => exact .ok _

theorem takeItem_points (found : Option ItemKeyword) (fits : ∀ t ∈ tokens, t.Fits length) :
    Fails (Fault.Points [.parse] length) (takeItem found tokens) := by
  fun_induction takeItem found tokens with
  | case1 => exact .ok _
  | case2 => exact .ok _
  | case3 found token later semicolon opener fault failed =>
    exact .error (closing_points fits fault failed)
  | case4 => exact .ok _
  | case5 found token later semicolon opener group closed own ends =>
    rename_i ih
    exact (ih (closing_fits closed fits).2).map _
  | case6 token later semicolon flat keyword ih => exact (ih (List.forall_mem_cons.mp fits).2).map _
  | case7 token later semicolon flat silent ih => exact (ih (List.forall_mem_cons.mp fits).2).map _
  | case8 token later semicolon flat keyword meant ih =>
    exact (ih (List.forall_mem_cons.mp fits).2).map _

theorem leadingAttributes_fits {text : String} {behind : Option Token} {sites : List AttributeSite}
    {rest : List Token} (led : leadingAttributes text behind tokens = .ok (sites, rest))
    (fits : ∀ t ∈ tokens, t.Fits length) : ∀ t ∈ rest, t.Fits length := by
  obtain ⟨front, rfl⟩ := leadingAttributes_split led
  exact (List.forall_mem_append.mp fits).2

theorem takeItem_fits {found : Option ItemKeyword} {s : Stretch}
    (taken : takeItem found tokens = .ok s) (fits : ∀ t ∈ tokens, t.Fits length) :
    (∀ t ∈ s.rest, t.Fits length) ∧
      ∀ inside close, s.inside = some (inside, close) → ∀ t ∈ inside, t.Fits length := by
  rw [(takeItem_split taken).1, List.forall_mem_append] at fits
  refine ⟨fits.2, fun inside close within t listed => fits.1 t ?_⟩
  obtain ⟨_, front, _, own⟩ := takeItem_encloses taken inside close within
  rw [own]
  simp [listed]

theorem outlineLevel_points (text : String) (behind : Option Token)
    (fits : ∀ t ∈ tokens, t.Fits length) :
    Fails (Fault.Points [.parse] length) (outlineLevel text behind tokens) := by
  fun_induction outlineLevel text behind tokens with
  | case1 => exact .ok _
  | case2 behind first others fault failed =>
    exact .error (leadingAttributes_points text behind fits fault failed)
  | case3 => exact .ok _
  | case4 behind first others sites token later led bracket rest inner fault failed =>
    have after := leadingAttributes_fits led fits
    obtain ⟨lead, split⟩ := innerBracket?_split inner
    rw [split, List.forall_mem_append] at after
    exact .error (closing_points after.2 fault failed)
  | case5 behind first others sites token later led bracket rest inner group closed ih =>
    have after := leadingAttributes_fits led fits
    obtain ⟨lead, split⟩ := innerBracket?_split inner
    rw [split, List.forall_mem_append] at after
    exact ih (closing_fits closed after.2).2
  | case6 behind first others sites token later led inner closes =>
    exact .error (Fault.points_token (.head _) (leadingAttributes_fits led fits token (.head _)))
  | case7 behind first others sites token later led inner flat fault failed =>
    exact .error (takeItem_points none (leadingAttributes_fits led fits) fault failed)
  | case8 behind first others sites token later led inner flat s taken here inside =>
    rename_i ih
    exact (ih (takeItem_fits taken (leadingAttributes_fits led fits)).1).map _
  | case9 behind first others sites token later led inner flat s taken inside close found fault failed
      ih =>
    have within := (takeItem_fits taken (leadingAttributes_fits led fits)).2 inside close found
    exact .error (ih within fault failed)
  | case10 behind first others sites token later led inner flat s taken here inside close found within
      outlined ihInside =>
    rename_i ih
    exact (ih (takeItem_fits taken (leadingAttributes_fits led fits)).1).map _

theorem ofText_points (text : String) :
    Fails (Fault.Points [.parse] text.length) (Outline.ofText text) := by
  unfold Outline.ofText
  cases lexed : lex text with
  | error fault => exact .error (lex_points text fault lexed)
  | ok tokens => exact outlineLevel_points text none (lex_fits lexed)

-- A token of a text begins in front of the blanks at the end.
def Token.Begins (text : String) (t : Token) : Prop :=
  t.Fits text.length ∧ t.extent.start < (Text.trimEnd text.toList).length

theorem targetFault_points {text : String} {token : Token} (begins : token.Begins text) :
    (targetFault text (some token)).Points [.parse, .target] text.length := by
  have most := Text.length_trimEnd_le text.toList
  rw [String.length_toList] at most
  exact Fault.points (.tail _ (.head _)) (Nat.le_of_lt begins.2) most

theorem checkTarget_points {text : String} (begins : ∀ t ∈ tokens, t.Begins text) :
    Fails (Fault.Points [.parse, .target] text.length) (checkTarget text tokens) := by
  have later {t : Token} {rest : List Token} (begins : ∀ u ∈ t :: rest, u.Begins text) :
      ∀ u ∈ rest, u.Begins text := (List.forall_mem_cons.mp begins).2
  have unclosed {t : Token} {rest : List Token} {fault : Fault} (begins : ∀ u ∈ t :: rest, u.Begins text)
      (failed : closing t rest = .error fault) : fault.Points [.parse, .target] text.length :=
    (closing_points (fun u listed => (begins u listed).1) fault failed).mono (by simp)
  have behind {t : Token} {rest : List Token} {group : Closing} (begins : ∀ u ∈ t :: rest, u.Begins text)
      (closed : closing t rest = .ok group) : ∀ u ∈ group.after, u.Begins text := by
    intro u listed
    refine begins u ?_
    rw [closing_split closed]
    simp [listed]
  fun_induction checkTarget text tokens with
  | case1 => exact .error (Fault.points (.tail _ (.head _)) (Nat.le_refl _) (Nat.le_refl _))
  | case2 token rest doc ih => exact ih (later begins)
  | case3 token rest doc ih => exact ih (later begins)
  | case4 token rest word ih => exact ih (later begins)
  | case5 => exact .ok _
  | case6 => exact .ok _
  | case7 token hash => exact .error (targetFault_points (begins token (.head _)))
  | case8 token hash second rest square group closed ih => exact ih (behind (later begins) closed)
  | case9 token hash second rest square fault failed => exact .error (unclosed (later begins) failed)
  | case10 token hash second rest square =>
    exact .error (targetFault_points (begins token (.head _)))
  | case11 token word ih => exact ih (by simp)
  | case12 token word second rest round group closed ih => exact ih (behind (later begins) closed)
  | case13 token word second rest round fault failed => exact .error (unclosed (later begins) failed)
  | case14 token word second rest round ih => exact ih (later begins)
  | case15 token => exact .error (targetFault_points (begins _ (.head _)))

theorem syntaxFault_points {text : String} (fits : ∀ t ∈ tokens, t.Fits text.length) (left : Nat) :
    (syntaxFault text tokens left).Points [.parse] text.length := by
  unfold syntaxFault
  split
  · rename_i token later behind
    have listed : token ∈ tokens := List.mem_of_mem_drop (behind ▸ List.mem_cons_self)
    exact Fault.points (.head _) (fits token listed).1 (fits token listed).2
  · exact Fault.points (.head _) (Nat.le_refl _) (Nat.le_refl _)

theorem wordAfter_some {word : Option Token} {t found : Token} (kept : wordAfter word t = some found) :
    word = some found ∨ found = t := by
  unfold wordAfter at kept
  split at kept
  · exact .inr (Option.some.inj kept).symm
  · split at kept
    · exact .inl kept
    · cases kept

-- The words in front of functions are tokens.
theorem mem_modifiersFrom {place : Place Region} {word : Option Token} {m : Modifier}
    (listed : m ∈ modifiersFrom place word tokens) :
    ∃ t, (word = some t ∨ t ∈ tokens) ∧ m = t.modifier := by
  induction tokens generalizing place word with
  | nil => cases listed
  | cons t later ih =>
    rw [modifiersFrom] at listed
    split at listed
    · obtain ⟨found, kept | behind, same⟩ := ih listed
      · rcases wordAfter_some kept with own | rfl
        · exact ⟨found, .inl own, same⟩
        · exact ⟨found, .inr (.head _), same⟩
      · exact ⟨found, .inr (.tail _ behind), same⟩
    · split at listed
      · rcases List.mem_append.mp listed with here | behind
        · obtain ⟨found, own, same⟩ := Option.map_eq_some_iff.mp (Option.mem_toList.mp here)
          exact ⟨found, .inl own, same.symm⟩
        · obtain ⟨found, none | after, same⟩ := ih behind
          · cases none
          · exact ⟨found, .inr (.tail _ after), same⟩
      · cases listed

theorem read_points (text : String) :
    Fails (Fault.Points [.parse, .target] text.length) (Declaration.read text) := by
  unfold Declaration.read
  have parse {fault : Fault} (points : fault.Points [.parse] text.length) :
      fault.Points [.parse, .target] text.length := points.mono (by simp)
  refine ((lex_points text).mono fun _ => parse).bind fun tokens lexed => ?_
  have fits := lex_fits lexed
  have begins : ∀ t ∈ tokens, t.Begins text :=
    fun t listed => ⟨fits t listed, lex_lt_trimEnd lexed listed⟩
  refine (checkTarget_points begins).bind fun _ _ => ?_
  refine (Fails.mapError fun left => parse (syntaxFault_points fits left)).bind fun d found => ?_
  split
  · rename_i modifier stray
    have derived := ((read_eq_ok_iff declarations_ranked).mp (mapError_eq_ok_iff.mp found)).derives
    have listed := List.mem_of_find?_eq_some stray
    rw [← modifiersFrom_declaration derived] at listed
    obtain ⟨t, none | present, rfl⟩ := mem_modifiersFrom listed
    · cases none
    · exact .error (Fault.points_token (.head _) (fits t present))
  · exact .ok _

end Deasync
