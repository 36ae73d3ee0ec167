import Deasync.Token

namespace Deasync

inductive Sym (N : Type) where
  | tok (kinds : List Kind)
  | ref (n : N)
  | maybe (s : Sym N)
  deriving Repr, DecidableEq

def Sym.Val {N : Type} (V : N → Type) : Sym N → Type
  | tok _ => Token
  | ref n => V n
  | maybe s => Option (s.Val V)

def Values {N : Type} (V : N → Type) : List (Sym N) → Type
  | [] => Unit
  | s :: rest => s.Val V × Values V rest

-- One way to read a nonterminal. `build` is given the text, the tokens that were read from it, and the values of
-- the right-hand side.
structure Production {N : Type} (V : N → Type) (n : N) where
  rhs : List (Sym N)
  build : String → List Token → Values V rhs → V n

-- A grammar, with its nonterminals numbered: what a nonterminal can begin with, before it has read a token, has a
-- smaller number than itself. Productions are listed in order of preference.
structure Grammar (N : Type) where
  Val : N → Type
  count : Nat
  rank : N → Nat
  atRank : Nat → N
  rank_lt : ∀ n, rank n < count
  rank_atRank : ∀ r, r < count → rank (atRank r) = r
  atRank_rank : ∀ n, atRank (rank n) = n
  productions : (n : N) → List (Production Val n)

namespace Grammar

variable {N : Type} (G : Grammar N)

theorem rank_injective {m n : N} (same : G.rank m = G.rank n) : m = n := by
  rw [← G.atRank_rank m, same, G.atRank_rank]

mutual

inductive Derives (text : String) : (n : N) → (w : List Token) → (v : G.Val n) → Prop where
  | production {n : N} {p : Production G.Val n} {w : List Token} {vs : Values G.Val p.rhs} :
      p ∈ G.productions n → DerivesAll text p.rhs w vs → Derives text n w (p.build text w vs)

inductive DerivesSym (text : String) : (s : Sym N) → (w : List Token) → (v : s.Val G.Val) → Prop where
  | tok {kinds : List Kind} {t : Token} : t.kind ∈ kinds → DerivesSym text (.tok kinds) [t] t
  | ref {n : N} {w : List Token} {v : G.Val n} : Derives text n w v → DerivesSym text (.ref n) w v
  | absent {s : Sym N} : DerivesSym text (.maybe s) [] none
  | present {s : Sym N} {w : List Token} {v : s.Val G.Val} :
      DerivesSym text s w v → DerivesSym text (.maybe s) w (some v)

inductive DerivesAll (text : String) :
    (rhs : List (Sym N)) → (w : List Token) → (vs : Values G.Val rhs) → Prop where
  | nil : DerivesAll text [] [] ()
  | cons {s : Sym N} {rest : List (Sym N)} {w u : List Token} {v : s.Val G.Val}
      {vs : Values G.Val rest} :
      DerivesSym text s w v → DerivesAll text rest u vs → DerivesAll text (s :: rest) (w ++ u) (v, vs)

end

end Grammar

end Deasync
