import Deasync.Proofs.Nesting
import Deasync.Proofs.OutlineContext

namespace Deasync

open Grammar

-- From the beginning of the first of some tokens to the end of the last.
def Spans (own : List Token) (start stop : Nat) : Prop :=
  ∃ first last, own.head? = some first ∧ own.getLast? = some last ∧ start = first.extent.start ∧
    stop = last.extent.stop

theorem Spans.bounds {own : List Token} {start stop least most : Nat} (spans : Spans own start stop)
    (row : InRow least most own) : least ≤ start ∧ start < stop ∧ stop ≤ most := by
  obtain ⟨first, last, begins, ends, rfl, rfl⟩ := spans
  exact row.spanned begins ends

-- Documentation and attributes in front of `next`.
inductive AttributeRow (next : Option Token) : List Token → List AttributeSite → Prop where
  | nothing : AttributeRow next [] []
  | doc {token : Token} {later : List Token} {sites : List AttributeSite} : token.kind.isDoc →
      AttributeRow next later sites → AttributeRow next (token :: later) sites
  | site {own later : List Token} {site : AttributeSite} {sites : List AttributeSite} :
      Bracketed [.hash] own → Spans own site.start site.stop →
      (∀ token, later.head?.or next = some token → site.nextStart = token.extent.start) →
      AttributeRow next later sites → AttributeRow next (own ++ later) (site :: sites)

-- An item: documentation and attributes, and its tokens from the first other one on.
structure OutlineItem.Laid (item : OutlineItem) (row body : List Token) : Prop where
  spans : Spans (row ++ body) item.start item.stop
  attributes : AttributeRow body.head? row item.attributes
  filled : body ≠ []
  bare : Unattributed body

-- The tokens of a level and the items in them. What stands between the braces of a module is a level of its
-- own, and its items come in front of the module.
inductive Layout : List Token → List OutlineItem → Prop where
  | trailing {next : Option Token} {row : List Token} {sites : List AttributeSite} :
      AttributeRow next row sites → Layout row []
  | inner {next : Option Token} {row own later : List Token} {sites : List AttributeSite}
      {items : List OutlineItem} : AttributeRow next row sites → Bracketed [.hash, .bang] own →
      Layout later items → Layout (row ++ own ++ later) items
  | item {row body later : List Token} {item : OutlineItem} {items : List OutlineItem} :
      item.Laid row body → (item.keyword = some .submodule → Unbraced body) → Layout later items →
      Layout (row ++ body ++ later) (item :: items)
  | submodule {row body head inside later : List Token} {opener close : Token} {item : OutlineItem}
      {within items : List OutlineItem} : item.Laid row body → item.keyword = some .submodule →
      Braced body head opener inside close → head ≠ [] → Layout inside within → Layout later items →
      Layout (row ++ body ++ later) (within ++ item :: items)

variable {text : String} {behind : Option Token}

theorem attributeSite_spans {hash : Token} {group : Closing} {site : AttributeSite}
    (found : attributeSite text behind hash group = .ok site) :
    Spans ([hash] ++ (group.before ++ [group.closer])) site.start site.stop ∧
      ∀ token, group.after.head?.or behind = some token → site.nextStart = token.extent.start := by
  rw [attributeSite] at found
  obtain ⟨argument, _, rfl⟩ := exists_of_map_ok found
  refine ⟨⟨hash, group.closer, rfl, ?_, rfl, rfl⟩, fun token standing => ?_⟩
  · rw [← List.append_assoc, List.getLast?_concat]
  · simp only [standing]

theorem Led.attributeRow {tokens rest : List Token} {sites : List AttributeSite}
    (led : Led text behind tokens sites rest) :
    ∃ row, tokens = row ++ rest ∧ AttributeRow (rest.head?.or behind) row sites := by
  induction led with
  | done => exact ⟨[], rfl, .nothing⟩
  | @doc token later rest sites doc _ ih =>
    obtain ⟨row, rfl, attributes⟩ := ih
    exact ⟨token :: row, rfl, .doc doc attributes⟩
  | @attributed hash bracket later rest group site sites mark square closed found _ ih =>
    obtain ⟨row, after, attributes⟩ := ih
    obtain ⟨own, split, bracketed, tokens⟩ := bracketed_of_closing [hash] square closed
    obtain ⟨spans, next⟩ := attributeSite_spans found
    rw [after, List.head?_append, Option.or_assoc] at next
    rw [← tokens] at spans
    refine ⟨own ++ row, ?_, .site (by simpa [kindsOf, mark] using bracketed) spans next attributes⟩
    rw [List.append_assoc, ← after, ← split]
    rfl

theorem laid_outlineItem {first token : Token} {others later : List Token}
    {sites : List AttributeSite} {s : Stretch}
    (led : Led text behind (first :: others) sites (token :: later))
    (taken : Taken none (token :: later) s) :
    ∃ row, first :: others = row ++ s.tokens ++ s.rest ∧
      (outlineItem first sites s).Laid row s.tokens := by
  obtain ⟨row, split, attributes⟩ := led.attributeRow
  obtain ⟨_, _, _, bare, _⟩ := led.split
  obtain ⟨stretch, filled⟩ := taken.split
  have kept := filled (List.cons_ne_nil _ _)
  rw [stretch] at split bare
  have head : s.tokens.head? = some token := by
    have begins := congrArg List.head? stretch
    rwa [List.head?_append_of_ne_nil _ kept, List.head?_cons, eq_comm] at begins
  refine ⟨row, by rw [split, List.append_assoc], ⟨?_, head ▸ attributes, kept, bare.of_append⟩⟩
  have last := List.getLast?_eq_getLast_of_ne_nil kept
  refine ⟨first, s.tokens.getLast kept, ?_, ?_, rfl, ?_⟩
  · have begins := congrArg List.head? split
    rwa [← List.append_assoc, List.head?_append_of_ne_nil _ (by simp [kept]), List.head?_cons,
      eq_comm] at begins
  · rw [List.getLast?_append_of_ne_nil _ kept, last]
  · rw [outlineItem, last, Option.getD_some]

theorem Levelled.layout {tokens : List Token} {o : Outline} (level : Levelled text behind tokens o) :
    Layout tokens o.items := by
  induction level with
  | nothing => exact .trailing (.nothing : AttributeRow none [] [])
  | trailing _ led =>
    obtain ⟨row, split, attributes⟩ := led.attributeRow
    rw [split, List.append_nil]
    exact .trailing attributes
  | inner led found closed _ ih =>
    obtain ⟨row, rfl, attributes⟩ := led.attributeRow
    obtain ⟨hash, bang, rfl, mark, exclaims, square⟩ := innerBracket?_eq_some_iff.mp found
    obtain ⟨own, split, bracketed, _⟩ := bracketed_of_closing [hash, bang] square closed
    have kinds : kindsOf [hash, bang] = [.hash, .bang] := by simp [kindsOf, mark, exclaims]
    rw [kinds] at bracketed
    have whole := Layout.inner attributes bracketed ih
    rw [List.append_assoc, ← split] at whole
    exact whole
  | item led _ _ taken closed _ ih =>
    obtain ⟨row, split, laid⟩ := laid_outlineItem led taken
    rw [split]
    exact .item laid (taken.unbraced closed) ih
  | submodule led _ _ taken found _ _ ihInside ihRest =>
    obtain ⟨row, split, laid⟩ := laid_outlineItem led taken
    obtain ⟨head, opener, braced, word, filled⟩ := taken.braced found
    rw [split]
    have module := Layout.submodule laid word braced (filled rfl) ihInside ihRest
    simpa [Outline.append] using module

-- Where the attributes of an item stand.
structure OutlineItem.Sited (item : OutlineItem) (row body : List Token) : Prop where
  apart : item.attributes.Pairwise fun a b => a.stop ≤ b.start
  within : ∀ site ∈ item.attributes, item.start ≤ site.start ∧ site.start < site.stop ∧
    ∀ token ∈ body, site.stop ≤ token.extent.start
  followed : ∀ site ∈ item.attributes, ∃ before own next later,
    row ++ body = before ++ own ++ next :: later ∧ Bracketed [.hash] own ∧
      Spans own site.start site.stop ∧ site.nextStart = next.extent.start

theorem AttributeRow.places {next : Option Token} {row : List Token} {sites : List AttributeSite}
    {start stop : Nat} (attributes : AttributeRow next row sites) (most : start ≤ stop)
    (standing : InRow start stop row) : sites.Pairwise (fun a b => a.stop ≤ b.start) ∧
      ∀ site ∈ sites, start ≤ site.start ∧ site.start < site.stop ∧ site.stop ≤ stop := by
  induction attributes generalizing start stop with
  | nothing => exact ⟨.nil, by simp⟩
  | @doc token later sites _ _ ih =>
    have standing : InRow start stop ([token] ++ later) := standing
    obtain ⟨middle, least, below, _, right⟩ := standing.split most
    obtain ⟨apart, bounds⟩ := ih below right
    refine ⟨apart, fun site listed => ?_⟩
    have bound := bounds site listed
    omega
  | @site own later site sites _ spans _ _ ih =>
    obtain ⟨middle, least, below, left, right⟩ := standing.split most
    obtain ⟨apart, bounds⟩ := ih below right
    have here := spans.bounds left
    refine ⟨List.pairwise_cons.mpr ⟨fun other listed => ?_, apart⟩,
      List.forall_mem_cons.mpr ⟨by omega, fun other listed => ?_⟩⟩
    · have bound := bounds other listed
      omega
    · have bound := bounds other listed
      omega

theorem AttributeRow.followed {row body : List Token} {sites : List AttributeSite}
    {site : AttributeSite} (attributes : AttributeRow body.head? row sites) (filled : body ≠ [])
    (listed : site ∈ sites) : ∃ before own next later,
      row ++ body = before ++ own ++ next :: later ∧ Bracketed [.hash] own ∧
        Spans own site.start site.stop ∧ site.nextStart = next.extent.start := by
  induction attributes with
  | nothing => cases listed
  | @doc token later sites _ _ ih =>
    obtain ⟨before, own, next, rest, split, found⟩ := ih listed
    exact ⟨token :: before, own, next, rest, by rw [List.cons_append, split]; rfl, found⟩
  | @site own later other sites bracketed spans following _ ih =>
    rcases List.mem_cons.mp listed with rfl | listed
    · obtain ⟨next, rest, begins⟩ := List.exists_cons_of_ne_nil (l := later ++ body) (by simp [filled])
      refine ⟨[], own, next, rest, by rw [List.append_assoc, begins]; rfl, bracketed, spans, ?_⟩
      exact following next (by rw [← List.head?_append, begins]; rfl)
    · obtain ⟨before, its, next, rest, split, found⟩ := ih listed
      exact ⟨own ++ before, its, next, rest, by rw [List.append_assoc, split]; simp, found⟩

theorem OutlineItem.Laid.sited {item : OutlineItem} {row body : List Token} {start stop : Nat}
    (laid : item.Laid row body) (standing : InRow start stop (row ++ body)) :
    item.Sited row body := by
  obtain ⟨first, last, begins, ends, begin, _⟩ := id laid.spans
  have bounds := laid.spans.bounds standing
  have from_start : InRow item.start stop (row ++ body) :=
    { standing with from_start := fun t listed => begin ▸ standing.begins begins listed }
  obtain ⟨middle, _, _, left, right⟩ := from_start.split (by omega)
  obtain ⟨apart, places⟩ := laid.attributes.places (by omega) left
  refine ⟨apart, fun site listed => ?_, fun site => laid.attributes.followed laid.filled⟩
  obtain ⟨least, filled, most⟩ := places site listed
  exact ⟨least, filled, fun token own => Nat.le_trans most (right.from_start token own)⟩

theorem Layout.laid {tokens : List Token} {items : List OutlineItem} {item : OutlineItem}
    (layout : Layout tokens items) (listed : item ∈ items) :
    ∃ front row body after, tokens = front ++ (row ++ body) ++ after ∧ item.Laid row body := by
  induction layout with
  | trailing => cases listed
  | @inner _ lead own _ _ _ _ _ _ ih =>
    obtain ⟨front, row, body, after, rfl, laid⟩ := ih listed
    exact ⟨lead ++ own ++ front, row, body, after, by simp, laid⟩
  | @item lead own later other items laid _ _ ih =>
    rcases List.mem_cons.mp listed with rfl | listed
    · exact ⟨[], lead, own, later, rfl, laid⟩
    · obtain ⟨front, row, body, after, rfl, laid⟩ := ih listed
      exact ⟨lead ++ own ++ front, row, body, after, by simp, laid⟩
  | @submodule lead own head inside later opener close other within items laid _ braced _ _ _ ihInside
      ihRest =>
    rcases List.mem_append.mp listed with listed | listed
    · obtain ⟨front, row, body, after, rfl, laid⟩ := ihInside listed
      refine ⟨lead ++ head ++ opener :: front, row, body, after ++ close :: later, ?_, laid⟩
      rw [braced.split]
      simp
    · rcases List.mem_cons.mp listed with rfl | listed
      · exact ⟨[], lead, own, later, rfl, laid⟩
      · obtain ⟨front, row, body, after, rfl, laid⟩ := ihRest listed
        exact ⟨lead ++ own ++ front, row, body, after, by simp, laid⟩

theorem Layout.sited {tokens : List Token} {items : List OutlineItem} {item : OutlineItem}
    {start stop : Nat} (layout : Layout tokens items) (standing : InRow start stop tokens)
    (listed : item ∈ items) : ∃ front row body after, tokens = front ++ (row ++ body) ++ after ∧
      InRow start stop (row ++ body) ∧ item.Laid row body ∧ item.Sited row body := by
  obtain ⟨front, row, body, after, rfl, laid⟩ := layout.laid listed
  have part : row ++ body <:+: front ++ (row ++ body) ++ after := ⟨front, after, rfl⟩
  have inside := standing.sublist part.sublist
  exact ⟨front, row, body, after, rfl, inside, laid, laid.sited inside⟩

-- Between the braces that end a module.
def OutlineItem.Inside (tokens : List Token) (a b : OutlineItem) : Prop :=
  ∃ front own after head opener inside close, tokens = front ++ own ++ after ∧
    Spans own b.start b.stop ∧ Braced own head opener inside close ∧
    b.start < opener.extent.start ∧ opener.extent.stop ≤ a.start ∧ a.stop ≤ close.extent.start

theorem OutlineItem.Inside.more {tokens : List Token} {a b : OutlineItem}
    (inside : a.Inside tokens b) (before behind : List Token) :
    a.Inside (before ++ tokens ++ behind) b := by
  obtain ⟨front, own, after, head, opener, within, close, rfl, found⟩ := inside
  exact ⟨before ++ front, own, after ++ behind, head, opener, within, close, by simp, found⟩

-- How an item stands to one behind it in an outline of some tokens.
def OutlineItem.Apart (tokens : List Token) (a b : OutlineItem) : Prop :=
  a.stop ≤ b.start ∨ b.keyword = some .submodule ∧ a.Inside tokens b

theorem OutlineItem.Apart.more {tokens : List Token} {a b : OutlineItem} (apart : a.Apart tokens b)
    (before behind : List Token) : a.Apart (before ++ tokens ++ behind) b :=
  apart.imp_right fun both => ⟨both.1, both.2.more before behind⟩

theorem Braced.places {own head inside : List Token} {opener close : Token} {start stop least most : Nat}
    (braced : Braced own head opener inside close) (filled : head ≠ []) (spans : Spans own start stop)
    (standing : InRow least most own) : start < opener.extent.start ∧
      opener.extent.stop ≤ close.extent.start ∧ close.extent.stop = stop ∧
      InRow opener.extent.stop close.extent.start inside := by
  obtain ⟨first, last, begins, ends, rfl, rfl⟩ := spans
  rw [braced.split] at begins ends standing
  obtain ⟨front, behind, across⟩ := List.pairwise_append.mp standing.apart
  obtain ⟨_, _, ahead⟩ := List.pairwise_append.mp front
  obtain ⟨apart, row⟩ := List.pairwise_cons.mp (List.pairwise_append.mp front).2.1
  have order (t : Token) (listed : t ∈ opener :: inside) : t.extent.stop ≤ close.extent.start :=
    across t (List.mem_append_right _ listed) close (.head _)
  refine ⟨?_, order opener (.head _), ?_, row, fun t listed => standing.filled t (by simp [listed]),
    apart, fun t listed => order t (.tail _ listed)⟩
  · rw [List.append_assoc, List.head?_append_of_ne_nil _ filled] at begins
    have listed := List.mem_of_head? begins
    have less := standing.filled first (by simp [listed])
    have next := ahead first listed opener (.head _)
    omega
  · rw [List.getLast?_concat, Option.some.injEq] at ends
    rw [ends]

theorem Layout.apart {tokens : List Token} {items : List OutlineItem} {start stop : Nat}
    (layout : Layout tokens items) (most : start ≤ stop) (standing : InRow start stop tokens) :
    (∀ item ∈ items, start ≤ item.start ∧ item.start < item.stop ∧ item.stop ≤ stop) ∧
      items.Pairwise (OutlineItem.Apart tokens) := by
  induction layout generalizing start stop with
  | trailing => exact ⟨by simp, .nil⟩
  | @inner _ lead own later _ items _ _ _ ih =>
    obtain ⟨middle, least, below, _, right⟩ := standing.split most
    obtain ⟨bounds, apart⟩ := ih below right
    refine ⟨fun item listed => ?_, apart.imp fun both => ?_⟩
    · have bound := bounds item listed
      omega
    · simpa using both.more (lead ++ own) []
  | @item row body later item items laid _ _ ih =>
    obtain ⟨middle, least, below, left, right⟩ := standing.split most
    have here := laid.spans.bounds left
    obtain ⟨bounds, apart⟩ := ih below right
    refine ⟨List.forall_mem_cons.mpr ⟨by omega, fun other listed => ?_⟩,
      List.pairwise_cons.mpr ⟨fun other listed => .inl ?_, apart.imp fun both => ?_⟩⟩
    · have bound := bounds other listed
      omega
    · have bound := bounds other listed
      omega
    · simpa using both.more (row ++ body) []
  | @submodule row body head inside later opener close item within items laid word braced filled _ _
      ihInside ihRest =>
    obtain ⟨middle, least, below, left, right⟩ := standing.split most
    have here := laid.spans.bounds left
    obtain ⟨bounds, apart⟩ := ihRest below right
    have whole := braced.more row
    obtain ⟨opened, room, closed, inner⟩ := whole.places (by simp [filled]) laid.spans left
    obtain ⟨boundsInside, apartInside⟩ := ihInside room inner
    have bounded (x : OutlineItem) (listed : x ∈ within) :
        start ≤ x.start ∧ x.start < x.stop ∧ x.stop ≤ middle := by
      have bound := boundsInside x listed
      have brace := left.filled close (by rw [whole.split]; simp)
      have first := left.filled opener (by rw [whole.split]; simp)
      omega
    constructor
    · intro other listed
      rcases List.mem_append.mp listed with listed | listed
      · have bound := bounded other listed
        omega
      · rcases List.mem_cons.mp listed with rfl | listed
        · omega
        · have bound := bounds other listed
          omega
    · refine List.pairwise_append.mpr ⟨apartInside.imp fun both => ?_,
        List.pairwise_cons.mpr ⟨fun other listed => .inl ?_, apart.imp fun both => ?_⟩, ?_⟩
      · have wider := both.more (row ++ head ++ [opener]) (close :: later)
        rw [braced.split]
        simpa using wider
      · have bound := bounds other listed
        omega
      · simpa using both.more (row ++ body) []
      · intro x listed y later
        rcases List.mem_cons.mp later with rfl | later
        · have bound := boundsInside x listed
          exact .inr ⟨word, [], row ++ body, _, row ++ head, opener, inside, close, rfl, laid.spans,
            whole, opened, bound.1, bound.2.2⟩
        · have bound := bounded x listed
          have other := bounds y later
          exact .inl (by omega)

theorem outline_layout {text : String} {o : Outline} (outlined : Outline.ofText text = .ok o) :
    ∃ tokens, lex text = .ok tokens ∧ Layout tokens o.items ∧
      o.items.Pairwise (OutlineItem.Apart tokens) ∧
      ∀ item ∈ o.items, ∃ front row body after, tokens = front ++ (row ++ body) ++ after ∧
        item.Laid row body ∧ item.Sited row body := by
  unfold Outline.ofText at outlined
  cases lexed : lex text with
  | error fault =>
    rw [lexed] at outlined
    cases outlined
  | ok tokens =>
    rw [lexed] at outlined
    have layout := (levelled_of_outlineLevel outlined).layout
    have standing := lex_inRow lexed
    refine ⟨tokens, rfl, layout, (layout.apart (Nat.zero_le _) standing).2, fun item listed => ?_⟩
    obtain ⟨front, row, body, after, split, _, laid, sited⟩ := layout.sited standing listed
    exact ⟨front, row, body, after, split, laid, sited⟩

def layeredText : String :=
  "/// a\n#![b] #[c] /// d\n#[e(f)] pub mod g \x7b #![h] #[i] struct J; mod k; \x7d use l; #[m]"

theorem outline_layout_layered : ∃ o, Outline.ofText layeredText = .ok o ∧ o.items.length = 4 ∧
    ∃ tokens, lex layeredText = .ok tokens ∧ Layout tokens o.items ∧
      o.items.Pairwise (OutlineItem.Apart tokens) ∧
      ∀ item ∈ o.items, ∃ front row body after, tokens = front ++ (row ++ body) ++ after ∧
        item.Laid row body ∧ item.Sited row body := by
  have outlined : (Outline.ofText layeredText).toOption.any (·.items.length = 4) := by decide +kernel
  obtain ⟨o, found, items⟩ := (Option.any_eq_true _ _).mp outlined
  exact ⟨o, toOption_eq_some found, of_decide_eq_true items, outline_layout (toOption_eq_some found)⟩

end Deasync
