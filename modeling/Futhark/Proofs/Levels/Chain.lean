import Futhark.Proofs.Sound.Exact
import Futhark.Proofs.ReadBack.Atom
import Futhark.Proofs.ReadBack.Fragment

/-!
# Precedence climbing

The main result about operators (`precedence_climbing`). In every tree that is read, the operators
climb: what is on top of an operand binds tighter than the operator around it, or is repeated on the
side to which its level groups. And a chain of names with infix operators between them is read, as a
tree whose operands and operators are those of the chain in order, and the only such tree in which
the operators climb.
-/

namespace Futhark

open Futhark.Parser

variable {σ : Type} {stream : TokenStream} {length i j : Nat}

/-! ### Chains -/

/-- **A chain of operands**: names with operators between them. -/
structure OperatorChain where
  first : String
  /-- The operators, each with the name behind it. -/
  rest : List (String × String)
deriving DecidableEq, Repr

namespace OperatorChain

/-- Two chains with an operator between them. -/
def join (c : OperatorChain) (symbol : String) (d : OperatorChain) : OperatorChain :=
  ⟨c.first, c.rest ++ (symbol, d.first) :: d.rest⟩

/-- **The text of a chain**, with a space between any two tokens. -/
def text (c : OperatorChain) : String :=
  c.first ++ String.join (c.rest.map fun link => " " ++ link.1 ++ " " ++ link.2)

example : text ⟨"a", [("+", "b"), ("mod", "c")]⟩ = "a + b mod c" := by decide

/-- The names of a chain are names, and its operators are infix operators. -/
structure Lexical (c : OperatorChain) : Prop where
  first : IsName c.first
  rest : ∀ link ∈ c.rest,
    IsOperator link.1 ∧ (Operator.classify link.1).isSome ∧ IsName link.2

end OperatorChain

/-- **In-order reading** of an expression that consists of names and operators only. -/
def Expr.chain? : Expr → Option OperatorChain
  | name q => if q.qualifiers = [] then some ⟨q.name.name, []⟩ else none
  | binary o left right _ => do return (← left.chain?).join o.symbol (← right.chain?)
  | _ => none

namespace Expr

variable {e : Expr} {c : OperatorChain}

theorem chain?_name {q : QualName} (h : (name q).chain? = some c) :
    q.qualifiers = [] ∧ c = ⟨q.name.name, []⟩ := by
  unfold chain? at h
  split_ifs at h with hq
  exact ⟨hq, (Option.some.inj h).symm⟩

theorem chain?_binary {o : OperatorName} {left right : Expr} {span : Span}
    (h : (binary o left right span).chain? = some c) :
    ∃ cl cr, left.chain? = some cl ∧ right.chain? = some cr ∧ c = cl.join o.symbol cr := by
  unfold chain? at h
  cases hl : left.chain? with
  | none => simp [hl] at h
  | some cl =>
    cases hr : right.chain? with
    | none => simp [hl, hr] at h
    | some cr => exact ⟨cl, cr, rfl, rfl, by simpa [hl, hr] using h.symm⟩

/-- **Induction on expressions that are read as chains.** -/
theorem chain?_induction {motive : Expr → OperatorChain → Prop}
    (hname : ∀ q : QualName, q.qualifiers = [] → motive (name q) ⟨q.name.name, []⟩)
    (hbinary : ∀ o left right span cl cr, left.chain? = some cl → right.chain? = some cr →
      motive left cl → motive right cr → motive (binary o left right span) (cl.join o.symbol cr))
    (h : e.chain? = some c) : motive e c := by
  induction e using chain?.induct generalizing c with
  | case1 q hq =>
    obtain ⟨-, rfl⟩ := chain?_name h
    exact hname q hq
  | case2 q hq => exact absurd (chain?_name h).1 hq
  | case3 o left right span ihl ihr =>
    obtain ⟨cl, cr, hl, hr, rfl⟩ := chain?_binary h
    exact hbinary o left right span cl cr hl hr (ihl hl) (ihr hr)
  | case4 e hne hne' =>
    cases e with
    | name q => exact absurd rfl (hne q)
    | binary o left right span => exact absurd rfl (hne' o left right span)
    | _ => exact absurd h nofun

/-- Only a name is read as a chain without operators. -/
theorem chain?_nil {a : String} (h : e.chain? = some ⟨a, []⟩) :
    ∃ q, e = name q ∧ q.qualifiers = [] ∧ q.name.name = a := by
  cases e with
  | name q =>
    obtain ⟨hq, hc⟩ := chain?_name h
    exact ⟨q, rfl, hq, (congrArg OperatorChain.first hc).symm⟩
  | binary o left right span =>
    obtain ⟨cl, cr, -, -, hc⟩ := chain?_binary h
    have hrest : [] = cl.rest ++ (o.symbol, cr.first) :: cr.rest := congrArg OperatorChain.rest hc
    exact absurd hrest (by simp)
  | _ => exact absurd h nofun

/-- Only an operator with its operands is read as a chain with operators. -/
theorem chain?_cons (h : e.chain? = some c) (hne : c.rest ≠ []) :
    ∃ o left right span, e = binary o left right span := by
  cases e with
  | name q =>
    obtain ⟨-, rfl⟩ := chain?_name h
    exact absurd rfl hne
  | binary o left right span => exact ⟨o, left, right, span, rfl⟩
  | _ => exact absurd h nofun

/-! ### Uniqueness -/

/-- **Operators in an operand.** If the operator at the top of an operand may be there, so may all
the others in it. -/
theorem takes_of_climbs {side : Associativity} {k : OperatorClass}
    (hclimbs : (Node.expr e).Everywhere Node.Climbs) (hc : e.chain? = some c)
    (htop : ∀ o ∈ e.operator?, ∃ k', o.class? = some k' ∧ k.Takes side k') :
    ∀ link ∈ c.rest, ∃ k', Operator.classify link.1 = some k' ∧ k.Takes side k' := by
  refine chain?_induction (motive := fun e c => (Node.expr e).Everywhere Node.Climbs →
    (∀ o ∈ e.operator?, ∃ k', o.class? = some k' ∧ k.Takes side k') →
    ∀ link ∈ c.rest, ∃ k', Operator.classify link.1 = some k' ∧ k.Takes side k')
    ?_ ?_ hc hclimbs htop
  · exact fun q _ _ _ => List.forall_mem_nil _
  · intro o left right span cl cr _ _ ihl ihr hclimbs htop
    obtain ⟨k₁, hk₁, hleft, hright⟩ := hclimbs.here
    obtain ⟨k₁', hk₁', htakes⟩ := htop o rfl
    obtain rfl : k₁ = k₁' := Option.some.inj (hk₁.symm.trans hk₁')
    refine List.forall_mem_append.mpr ⟨ihl (hclimbs.child (by simp [Node.children, nodes])) ?_,
      List.forall_mem_cons.mpr ⟨⟨k₁, hk₁, htakes⟩,
        ihr (hclimbs.child (by simp [Node.children, nodes])) ?_⟩⟩
    · intro o' ho'
      obtain ⟨k', hk', h'⟩ := hleft o' ho'
      exact ⟨k', hk', htakes.trans h'⟩
    · intro o' ho'
      obtain ⟨k', hk', h'⟩ := hright o' ho'
      exact ⟨k', hk', htakes.trans h'⟩

end Expr

/-- Two chains with the same result are joined at the same operator, if no operator of one may be in
an operand of the other. -/
theorem OperatorChain.join_inj {cl cr cl' cr' : OperatorChain} {o o' : String}
    (h : cl.join o cr = cl'.join o' cr')
    (hleft : ∀ a, (o, a) ∈ cl'.rest → ∀ a', (o', a') ∉ cr.rest)
    (hright : ∀ a, (o', a) ∈ cl.rest → ∀ a', (o, a') ∉ cr'.rest) :
    cl = cl' ∧ o = o' ∧ cr = cr' := by
  obtain ⟨first, ls⟩ := cl
  obtain ⟨first', ls'⟩ := cl'
  obtain ⟨b, rs⟩ := cr
  obtain ⟨b', rs'⟩ := cr'
  obtain ⟨rfl, hrest⟩ : first = first' ∧ ls ++ (o, b) :: rs = ls' ++ (o', b') :: rs' := by
    simpa [join] using h
  rcases List.append_eq_append_iff.mp hrest with ⟨as, rfl, has⟩ | ⟨as, rfl, has⟩
  · cases as with
    | nil => simp_all
    | cons link as =>
      obtain ⟨rfl, rfl⟩ : (o, b) = link ∧ rs = as ++ (o', b') :: rs' := by simpa using has
      exact absurd (by simp) (hleft b (by simp) b')
  · cases as with
    | nil => simp_all
    | cons link as =>
      obtain ⟨rfl, rfl⟩ : (o', b') = link ∧ rs' = as ++ (o, b) :: rs := by simpa using has
      exact absurd (by simp) (hright b' (by simp) b)

/-- **Operators around an operator.** All operators to the left of the one at the top of an
expression may be in its left operand, and all those to the right of it in its right operand. -/
theorem Expr.takes_around {o : OperatorName} {left right : Expr} {span : Span}
    {cl cr : OperatorChain}
    (hclimbs : (Node.expr (.binary o left right span)).Everywhere Node.Climbs)
    (hl : left.chain? = some cl) (hr : right.chain? = some cr) :
    ∃ k, Operator.classify o.symbol = some k ∧
      (∀ link ∈ cl.rest, ∃ k', Operator.classify link.1 = some k' ∧ k.Takes .left k') ∧
      ∀ link ∈ cr.rest, ∃ k', Operator.classify link.1 = some k' ∧ k.Takes .right k' := by
  obtain ⟨k, hk, hleft, hright⟩ := hclimbs.here
  refine ⟨k, hk, takes_of_climbs (hclimbs.child ?_) hl hleft,
    takes_of_climbs (hclimbs.child ?_) hr hright⟩ <;> simp [Node.children, nodes]

/-- Two operators cannot be in each other's operands. -/
theorem Operator.not_crossed {symbol symbol' : String} {k k' : OperatorClass}
    (hk : classify symbol = some k) (hk' : classify symbol' = some k')
    (hright : ∃ k₁, classify symbol' = some k₁ ∧ k.Takes .right k₁)
    (hleft : ∃ k₁, classify symbol = some k₁ ∧ k'.Takes .left k₁) : False := by
  obtain ⟨_, hk₁, hright⟩ := hright
  obtain ⟨_, hk₂, hleft⟩ := hleft
  obtain rfl := Option.some.inj (hk'.symm.trans hk₁)
  obtain rfl := Option.some.inj (hk.symm.trans hk₂)
  exact hright.not_takes (associativity_of_classify hk) (associativity_of_classify hk') hleft

/-- **Uniqueness.** Two expressions in which the operators climb and that are read as the same chain
are the same, places apart. -/
theorem Expr.core_eq_of_climbs {e e' : Expr} {c : OperatorChain}
    (hclimbs : (Node.expr e).Everywhere Node.Climbs)
    (hclimbs' : (Node.expr e').Everywhere Node.Climbs) (hc : e.chain? = some c)
    (hc' : e'.chain? = some c) : e'.core = e.core := by
  refine chain?_induction (motive := fun e c => (Node.expr e).Everywhere Node.Climbs → ∀ e',
    (Node.expr e').Everywhere Node.Climbs → e'.chain? = some c → e'.core = e.core)
    ?_ ?_ hc hclimbs e' hclimbs' hc'
  · intro q hq _ e' _ hc'
    obtain ⟨q', rfl, hq', hname⟩ := chain?_nil hc'
    simp [core, QualName.core, Identifier.core, hq, hq', hname]
  · intro o left right span cl cr hl hr ihl ihr hclimbs e' hclimbs' hc'
    obtain ⟨o', left', right', span', rfl⟩ := chain?_cons hc' (by simp [OperatorChain.join])
    obtain ⟨cl', cr', hl', hr', hjoin⟩ := chain?_binary hc'
    obtain ⟨k, hk, hleft, hright⟩ := takes_around hclimbs hl hr
    obtain ⟨k', hk', hleft', hright'⟩ := takes_around hclimbs' hl' hr'
    obtain ⟨rfl, hsymbol, rfl⟩ := OperatorChain.join_inj hjoin
      (fun _ ha _ ha' => Operator.not_crossed hk hk' (hright _ ha') (hleft' _ ha))
      (fun _ ha _ ha' => Operator.not_crossed hk' hk (hright' _ ha') (hleft _ ha))
    have hcoreLeft := ihl (hclimbs.child (by simp [Node.children, nodes])) left'
      (hclimbs'.child (by simp [Node.children, nodes])) hl'
    have hcoreRight := ihr (hclimbs.child (by simp [Node.children, nodes])) right'
      (hclimbs'.child (by simp [Node.children, nodes])) hr'
    rw [core, core, hcoreLeft, hcoreRight, OperatorName.core, OperatorName.core, hsymbol]

/-! ### Chains are read -/

namespace OperatorChain

/-- The tokens of an operator and the name behind it. -/
def linkPieces (link : String × String) : List Piece :=
  [⟨space, .operator link.1⟩, ⟨space, .identifier link.2⟩]

/-- The tokens of a chain. -/
def phrase (c : OperatorChain) : Phrase := ⟨.identifier c.first, c.rest.flatMap linkPieces⟩

theorem length_linkPieces (links : List (String × String)) :
    (links.flatMap linkPieces).length = 2 * links.length := by
  induction links with
  | nil => rfl
  | cons link links ih =>
    rw [List.flatMap_cons, List.length_append, ih, List.length_cons, linkPieces]
    simp only [List.length_cons, List.length_nil]
    omega

theorem length_phrase (c : OperatorChain) : c.phrase.length = 2 * c.rest.length + 1 := by
  rw [phrase, Phrase.length, length_linkPieces]

theorem toList_text (c : OperatorChain) : c.text.toList = c.phrase.chars := by
  have hlinks : ∀ links : List (String × String),
      (String.join (links.map fun link => " " ++ link.1 ++ " " ++ link.2)).toList =
        spell (links.flatMap linkPieces) := by
    intro links
    induction links with
    | nil => rfl
    | cons link links ih =>
      rw [List.map_cons, String.join_cons, String.toList_append, ih, List.flatMap_cons,
        spell_append, linkPieces]
      simp [TokenKind.spelling]
  rw [text, String.toList_append, hlinks]
  rfl

/-- The tokens of a chain are read back from its text. -/
theorem readsBack_phrase {c : OperatorChain} (hc : c.Lexical) : c.phrase.ReadsBack [] := by
  have hends : ∀ links : List (String × String), Ends (spell (links.flatMap linkPieces) ++ []) := by
    intro links
    cases links with
    | nil => exact ends_nil
    | cons link links => simp [linkPieces, endChars]
  have hlinks : ∀ links : List (String × String),
      (∀ link ∈ links, IsOperator link.1 ∧ (Operator.classify link.1).isSome ∧ IsName link.2) →
      ReadsBack (links.flatMap linkPieces) [] := by
    intro links hlexical
    induction links with
    | nil => exact .nil
    | cons link links ih =>
      obtain ⟨⟨hoperator, -, hname⟩, hlexical⟩ := List.forall_mem_cons.mp hlexical
      refine .cons isGap_space ?_ (.cons isGap_space ?_ (ih hlexical))
      · exact TokenKind.fits_operator hoperator (.cons rfl)
      · exact TokenKind.fits_identifier hname (hends links).name
  exact fun gap hgap => .cons hgap (TokenKind.fits_identifier hc.first (hends c.rest).name)
    (hlinks c.rest hc.rest)

/-- The first operator of what is left of a chain is looser than `power`. -/
def TooLoose (power : Nat) (links : List (String × String)) : Prop :=
  ∀ link ∈ links.head?, ∀ k, Operator.classify link.1 = some k → k.power.left < power

/-- **Reading a chain.** A parser reads the beginning of a chain, and stops before the first
operator that is looser than `power`. -/
def IsRead (stream : TokenStream) (p : Parser σ Expr) (power i : Nat) (c : OperatorChain)
    (j : Nat) : Prop :=
  ∃ e taken rest k, c.rest = taken ++ rest ∧ Runs stream i p e k ∧
    stream.Spells k (rest.flatMap linkPieces) j ∧ e.chain? = some ⟨c.first, taken⟩ ∧
    TooLoose power rest

/-- **Chains are read** by a nest, as long as they have less than `size` operators. -/
def IsReadBy (stream : TokenStream) (nest : Nest σ) (size : Nat) : Prop :=
  ∀ (c : OperatorChain) (power : Nat) (gap : List Trivia) (i j : Nat), c.Lexical →
    c.rest.length < size → stream.Spells i (c.phrase.after gap) j → stream.kindAt j = .finish →
    IsRead stream (nest.binary power) power i c j

end OperatorChain

namespace Grammar

open OperatorChain

variable {nest : Nest σ} {size k : Nat} {gap : List Trivia} {links : List (String × String)}

/-- What follows an operand in a chain. -/
theorem closesAtoms_of_links (h : stream.Spells i (links.flatMap linkPieces) j)
    (hj : stream.kindAt j = .finish) : closesAtoms (stream.kindAt i) = true := by
  cases links with
  | nil =>
    obtain rfl : i = j := h
    rw [hj]
    rfl
  | cons link links =>
    have hoperator : stream.kindAt i = .operator link.1 := h.1.kind
    rw [hoperator]
    rfl

/-- A name in a chain is an operand. -/
theorem runs_operand_name (nest : Nest σ) {a : String} (h : stream.HasPiece i ⟨gap, .identifier a⟩)
    (hclose : closesAtoms (stream.kindAt (i + 1)) = true) :
    ∃ e, Runs stream i (operand nest) e (i + 1) ∧ e.chain? = some ⟨a, []⟩ := by
  have hspells : stream.Spells i ((qualPhrase ⟨[], ⟨a, noSpan⟩, noSpan⟩).after gap) (i + 1) :=
    ⟨h, rfl⟩
  obtain ⟨q, hq, hcore⟩ :=
    runs_postfixAtom_name nest hspells (postfixEnds_of_closesAtoms hclose)
  refine ⟨.name q, runs_operand_of_application h.kind (Or.inl rfl)
    (runs_application_of_atom h.kind rfl rfl hq hclose), ?_⟩
  have hqualifiers : q.qualifiers = [] :=
    List.map_eq_nil_iff.mp (congrArg QualName.qualifiers hcore)
  have hname : q.name.name = a := congrArg (Identifier.name ∘ QualName.name) hcore
  rw [Expr.chain?, if_pos hqualifiers, hname]

/-- Where the next operator is too loose, there is no step. -/
theorem runs_binaryStep_none {power : Nat} {left : Expr} (hloose : TooLoose power links)
    (h : stream.Spells k (links.flatMap linkPieces) j) (hj : stream.kindAt j = .finish) :
    Runs stream k (binaryStep nest power left) none k := by
  cases links with
  | nil =>
    obtain rfl : k = j := h
    exact Runs.kindOf hj (.pure _)
  | cons link links =>
    have hoperator : stream.kindAt k = .operator link.1 := h.1.kind
    refine Runs.kindOf hoperator ?_
    dsimp only
    split
    · exact .pure _
    · rename_i class' hclass
      rw [if_pos (hloose link rfl class' hclass)]
      exact .pure _

/-- **One step in a chain**: an operator that is tight enough, and its right operand. -/
theorem runs_binaryStep_some {power : Nat} {left : Expr} {c : OperatorChain}
    {link : String × String} {class' : OperatorClass} (hleft : left.chain? = some c)
    (hclass : Operator.classify link.1 = some class') (hpower : ¬ class'.power.left < power)
    (h : stream.Spells k ((link :: links).flatMap linkPieces) j)
    (hright : IsRead stream (nest.binary class'.power.right) class'.power.right (k + 1)
      ⟨link.2, links⟩ j) :
    ∃ e taken rest m, links = taken ++ rest ∧
      Runs stream k (binaryStep nest power left) (some e) m ∧ k < m ∧
      stream.Spells m (rest.flatMap linkPieces) j ∧
      e.chain? = some ⟨c.first, c.rest ++ link :: taken⟩ := by
  obtain ⟨right, taken, rest, m, hsplit, hruns, hspells, hchain, -⟩ := hright
  have hsplit : links = taken ++ rest := hsplit
  have hlt : k < m := by
    have hstart := h.eq_add
    have hend := hspells.eq_add
    rw [length_linkPieces, List.length_cons, hsplit, List.length_append] at hstart
    rw [length_linkPieces] at hend
    omega
  obtain ⟨hoperator, hname, -⟩ := h
  refine ⟨.binary ⟨link.1, (stream.tokenAt k).span⟩ left right (left.span.merge right.span), taken,
    rest, m, hsplit, ?_, hlt, hspells, ?_⟩
  · exact runs_binaryStep_of_operator left hclass hpower hoperator hname.kind rfl hruns
  · simp [Expr.chain?, hleft, hchain, join]

/-- **Steps in a chain**, for as long as the operators are tight enough. -/
theorem chain_binaryStep (hnest : IsReadBy stream nest size) (power : Nat) {left : Expr}
    {c : OperatorChain} (hleft : left.chain? = some c)
    (hlexical : ∀ link ∈ links,
      IsOperator link.1 ∧ (Operator.classify link.1).isSome ∧ IsName link.2)
    (hsize : links.length ≤ size) (h : stream.Spells k (links.flatMap linkPieces) j)
    (hj : stream.kindAt j = .finish) :
    ∃ e taken rest m, links = taken ++ rest ∧
      Chain stream (binaryStep nest power) k left m e ∧
      stream.Spells m (rest.flatMap linkPieces) j ∧
      e.chain? = some ⟨c.first, c.rest ++ taken⟩ ∧ TooLoose power rest := by
  -- The right operand takes a part of the links, and the loop goes on with fewer of them.
  induction hn : links.length using Nat.strong_induction_on generalizing links left c k with
  | _ n ih =>
  have hstop : TooLoose power links → ∃ e taken rest m, links = taken ++ rest ∧
      Chain stream (binaryStep nest power) k left m e ∧
      stream.Spells m (rest.flatMap linkPieces) j ∧
      e.chain? = some ⟨c.first, c.rest ++ taken⟩ ∧ TooLoose power rest :=
    fun hloose => ⟨left, [], links, k, rfl, .nil, h, by rw [List.append_nil, hleft], hloose⟩
  cases links with
  | nil => exact hstop nofun
  | cons link links =>
    obtain ⟨⟨-, hclass, hname⟩, hlinks⟩ := List.forall_mem_cons.mp hlexical
    obtain ⟨class', hclass⟩ := Option.isSome_iff_exists.mp hclass
    by_cases hpower : class'.power.left < power
    · refine hstop ?_
      rintro _ ⟨⟩ k' hk'
      obtain rfl : class' = k' := Option.some.inj (hclass.symm.trans hk')
      exact hpower
    · rw [List.length_cons] at hn hsize
      have hright := hnest ⟨link.2, links⟩ class'.power.right space (k + 1) j ⟨hname, hlinks⟩
        hsize h.2 hj
      obtain ⟨e₁, taken₁, rest₁, m₁, rfl, hstep, hlt, hspells, hchain⟩ :=
        runs_binaryStep_some hleft hclass hpower h hright
      rw [List.length_append] at hn hsize
      obtain ⟨e, taken, rest, m, rfl, hsteps, hspells, hchain, hloose⟩ :=
        ih rest₁.length (by omega) hchain (fun l hl => hlinks l (List.mem_append_right _ hl))
          (by omega) hspells rfl
      refine ⟨e, link :: taken₁ ++ taken, rest, m, by simp, .cons hstep hlt hsteps, hspells, ?_,
        hloose⟩
      rw [hchain, List.append_assoc]

/-- **An operation in a chain.** -/
theorem isRead_binary (hnest : IsReadBy stream nest size) {c : OperatorChain} (power : Nat)
    (hc : c.Lexical) (hsize : c.rest.length ≤ size) (h : stream.Spells i (c.phrase.after gap) j)
    (hj : stream.kindAt j = .finish) : IsRead stream (binary nest power) power i c j := by
  obtain ⟨hname, hlinks⟩ := h
  obtain ⟨first, hfirst, hchain⟩ :=
    runs_operand_name nest hname (closesAtoms_of_links hlinks hj)
  obtain ⟨e, taken, rest, m, hsplit, hsteps, hspells, hchain, hloose⟩ :=
    chain_binaryStep hnest power hchain hc.rest hsize hlinks hj
  exact ⟨e, taken, rest, m, hsplit,
    hfirst.bind (.repeatFrom hsteps (runs_binaryStep_none hloose hspells hj)), hspells, hchain,
    hloose⟩

/-- **Chains are read**, with as many levels of nesting left as they have operators. -/
theorem isReadBy_nestWithin (resolver : Option (Resolver σ)) (limit levels : Nat) :
    IsReadBy stream (nestWithin resolver limit levels) levels := by
  induction levels with
  | zero => exact fun _ _ _ _ _ _ hsize => absurd hsize (Nat.not_lt_zero _)
  | succ levels ih =>
    exact fun _ _ _ _ _ hc hsize h hj => isRead_binary ih _ hc (Nat.le_of_lt_succ hsize) h hj

end Grammar

/-! ### The main result -/

namespace OperatorChain

/-- **A chain is read** from its text, under a nesting limit that is not below the number of its
tokens. -/
theorem parse_text {c : OperatorChain} (hc : c.Lexical) :
    ∃ stream, TokenStream.tokenize c.text = .ok stream ∧
      ∀ limit, stream.tokens.length ≤ limit →
        ∃ e, parseFragmentWithin limit .expression c.text = .ok e ∧ e.chain? = some c := by
  obtain ⟨stream, hstream, hspells⟩ :=
    exists_spells_of_readsBack c.toList_text (readsBack_phrase hc)
  refine ⟨stream, hstream, fun limit hlimit => ?_⟩
  have hlength : stream.tokens.length = 2 * c.rest.length + 1 := by
    rw [hspells.eq_add, Phrase.length_after, length_phrase, Nat.zero_add]
  obtain ⟨levels, rfl⟩ : ∃ levels, limit = levels + 1 := ⟨limit - 1, by omega⟩
  have hfinish : stream.kindAt stream.tokens.length = .finish := by
    rw [TokenStream.kindAt, TokenStream.tokenAt_of_le (Nat.le_refl _)]
    exact (TokenStream.scanned_of_tokenize hstream).2.finish_kind
  obtain ⟨e, taken, rest, k, hsplit, hruns, hrest, hchain, hloose⟩ :=
    Grammar.isRead_binary (Grammar.isReadBy_nestWithin (none : Option (Resolver Unit)) (levels + 1)
      levels) 0 hc (by omega) hspells hfinish
  -- No operator is too loose for a whole expression, so all of them have been taken.
  obtain rfl : rest = [] := by
    cases rest with
    | nil => rfl
    | cons link rest =>
      have hlink := (hc.rest link (by rw [hsplit]; simp)).2.1
      obtain ⟨k, hk⟩ := Option.isSome_iff_exists.mp hlink
      exact absurd (hloose link rfl k hk) (Nat.not_lt_zero _)
  obtain rfl : k = stream.tokens.length := hrest
  have hends : ExprEnds stream stream.tokens.length := exprEnds_of_closes (by rw [hfinish]; rfl)
  refine ⟨e, parseFragmentWithin_of_runs hstream
    (Grammar.runs_expression_of_range
      (Grammar.runs_range_of_binary hruns hends.toRangeEnds) hends), ?_⟩
  rw [hchain]
  rw [List.append_nil] at hsplit
  rw [← hsplit]

end OperatorChain

/-- **Precedence climbing.**

* In every program and every fragment, the operators climb everywhere.
* The text of a chain is read, under a nesting limit that is not below the number of its tokens, as
  an expression with the names and operators of the chain in order. The operators climb in it, and
  in no other expression with the same names and operators, places apart. -/
theorem precedence_climbing :
    (∀ {σ : Type} (options : ParseOptions σ) (imports : σ) (source : String) (program : Program),
      (Program.parseWith options imports source).result = .ok program →
        ∀ d ∈ program.declarations, (Node.decl d).Everywhere Node.Climbs) ∧
    (∀ (limit : Nat) (n : Nonterminal) (source : String) (tree : n.Tree),
      parseFragmentWithin limit n source = .ok tree → (n.node tree).Everywhere Node.Climbs) ∧
    ∀ c : OperatorChain, c.Lexical →
      ∃ stream, TokenStream.tokenize c.text = .ok stream ∧
        ∀ limit, stream.tokens.length ≤ limit →
          ∃ e, parseFragmentWithin limit .expression c.text = .ok e ∧ e.chain? = some c ∧
            (Node.expr e).Everywhere Node.Climbs ∧
            ∀ e' : Expr, e'.chain? = some c → (Node.expr e').Everywhere Node.Climbs →
              e'.core = e.core := by
  refine ⟨?_, ?_, ?_⟩
  · intro σ options imports source program h d hd
    exact (sound_of_parseWith h d hd).mono fun _ hn => hn.ranked.climbs
  · intro limit n source tree h
    exact (sound_of_parseFragmentWithin h).mono fun _ hn => hn.ranked.climbs
  · intro c hc
    obtain ⟨stream, hstream, hparse⟩ := c.parse_text hc
    refine ⟨stream, hstream, fun limit hlimit => ?_⟩
    obtain ⟨e, he, hchain⟩ := hparse limit hlimit
    have hclimbs : (Node.expr e).Everywhere Node.Climbs :=
      (sound_of_parseFragmentWithin (n := .expression) he).mono fun _ hn => hn.ranked.climbs
    exact ⟨e, he, hchain, hclimbs, fun e' hchain' hclimbs' =>
      Expr.core_eq_of_climbs hclimbs hclimbs' hchain hchain'⟩

/-- In `a + b * c` the sum is at the top, and the product is its right operand. -/
theorem precedence_climbing_sum_of_product :
    let c : OperatorChain := ⟨"a", [("+", "b"), ("*", "c")]⟩
    let name (text : String) : Expr := .name ⟨[], ⟨text, default⟩, default⟩
    let product := Expr.binary ⟨"*", default⟩ (name "b") (name "c") default
    let sum := Expr.binary ⟨"+", default⟩ (name "a") product default
    c.Lexical ∧ ∃ stream e, TokenStream.tokenize "a + b * c" = .ok stream ∧
      parseFragmentWithin stream.tokens.length .expression "a + b * c" = .ok e ∧
      sum.core = e.core := by
  intro c name product sum
  have hc : c.Lexical := ⟨by decide +kernel, by decide +kernel⟩
  have hname (text : String) : (Node.expr (name text)).Everywhere Node.Climbs := by
    simp [name, Node.everywhere_iff, Node.children, Expr.nodes, Node.Climbs, Expr.Climbs]
  have hoperator (o : OperatorName) : (Node.operator o).Everywhere Node.Climbs := by
    simp [Node.everywhere_iff, Node.children, Node.Climbs]
  have hproduct : (Node.expr product).Everywhere Node.Climbs :=
    .intro ⟨.leftAt .mult, rfl, by simp [name, Expr.operator?], by simp [name, Expr.operator?]⟩
      (by simp [product, Node.children, Expr.nodes, hname, hoperator])
  have hsum : (Node.expr sum).Everywhere Node.Climbs :=
    .intro ⟨.leftAt .add, rfl, by simp [name, Expr.operator?], fun o ho =>
        ⟨.leftAt .mult, Option.some.inj ho ▸ rfl, Or.inl (by decide)⟩⟩
      (by simp [sum, Node.children, Expr.nodes, hname, hoperator, hproduct])
  obtain ⟨stream, hstream, hparse⟩ := precedence_climbing.2.2 c hc
  obtain ⟨e, he, -, -, hunique⟩ := hparse _ le_rfl
  exact ⟨hc, stream, e, hstream, he, hunique sum (by decide +kernel) hsum⟩

end Futhark
