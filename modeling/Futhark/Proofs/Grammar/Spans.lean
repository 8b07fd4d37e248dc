import Futhark.Proofs.Grammar.Ensures
import Futhark.Proofs.Tree.Level

/-!
# The places of nodes

A node that is read when the cursor moves from token `i` to token `j` has the text from the start of
token `i` to the end of token `j - 1`. `Spans stream i span j` says so of a span, and
`Read stream i n j` of a node, along with what holds everywhere below it: each node is well formed,
has parts of the right ranks, and lies inside its parent.

Spans are put together with `Span.merge`. Since the tokens of a text come one after the other,
merging two spans that start and end in order gives the span from the start of the first to the end
of the second; this is the only thing that the proofs about the grammar need to know.
-/

namespace Futhark

/-! ### Order of tokens -/

namespace Token

theorem Laid.bounds {offset : Nat} {ts : List Token} (h : Laid offset ts) :
    ∀ t ∈ ts, offset ≤ t.span.start ∧ t.span.start < t.span.stop := by
  induction ts generalizing offset with
  | nil => exact nofun
  | cons t ts ih =>
    obtain ⟨hstart, -, hne, hrest⟩ := h
    intro u hu
    rcases List.mem_cons.mp hu with rfl | hu
    · exact ⟨hstart, hne⟩
    · obtain ⟨hu, hu'⟩ := ih hrest u hu
      exact ⟨by omega, hu'⟩

theorem Laid.pairwise {offset : Nat} {ts : List Token} (h : Laid offset ts) :
    ts.Pairwise fun t u => t.span.stop ≤ u.span.start := by
  induction ts generalizing offset with
  | nil => exact .nil
  | cons t ts ih =>
    obtain ⟨-, -, -, hrest⟩ := h
    exact .cons (fun u hu => (hrest.bounds u hu).1) (ih hrest)

end Token

namespace TokenStream

variable {stream : TokenStream} {length i j : Nat}

/-- The text of a token is not empty. -/
theorem Scanned.start_lt_stop (hs : stream.Scanned length) (hi : i < stream.tokens.length) :
    (stream.tokenAt i).span.start < (stream.tokenAt i).span.stop := by
  rw [tokenAt_of_lt hi]
  exact (hs.laid.bounds _ (List.getElem_mem hi)).2

/-- A token ends before the next ones start. -/
theorem Scanned.stop_le_start (hs : stream.Scanned length) (hij : i < j)
    (hj : j < stream.tokens.length) :
    (stream.tokenAt i).span.stop ≤ (stream.tokenAt j).span.start := by
  rw [tokenAt_of_lt (hij.trans hj), tokenAt_of_lt hj]
  exact List.pairwise_iff_getElem.mp hs.laid.pairwise i j _ hj hij

/-- Tokens start in order. -/
theorem Scanned.start_mono (hs : stream.Scanned length) (hij : i ≤ j)
    (hj : j < stream.tokens.length) :
    (stream.tokenAt i).span.start ≤ (stream.tokenAt j).span.start := by
  rcases hij.eq_or_lt with rfl | hlt
  · exact le_rfl
  · have h₁ := hs.start_lt_stop (hlt.trans hj)
    have h₂ := hs.stop_le_start hlt hj
    omega

/-- Tokens end in order. -/
theorem Scanned.stop_mono (hs : stream.Scanned length) (hij : i ≤ j)
    (hj : j < stream.tokens.length) :
    (stream.tokenAt i).span.stop ≤ (stream.tokenAt j).span.stop := by
  rcases hij.eq_or_lt with rfl | hlt
  · exact le_rfl
  · have h₁ := hs.start_lt_stop hj
    have h₂ := hs.stop_le_start hlt hj
    omega

end TokenStream

/-! ### Spans of several tokens -/

/-- **Place of tokens.** The span of the tokens from `i` up to, but without, `j`. -/
structure Spans (stream : TokenStream) (i : Nat) (span : Span) (j : Nat) : Prop where
  lt : i < j
  bound : j ≤ stream.tokens.length
  start : span.start = (stream.tokenAt i).span.start
  stop : span.stop = (stream.tokenAt (j - 1)).span.stop

namespace Spans

variable {stream : TokenStream} {length : Nat} {i j k l : Nat} {s t : Span}

theorem token (hi : i < stream.tokens.length) :
    Spans stream i (stream.tokenAt i).span (i + 1) := ⟨Nat.lt_succ_self i, hi, rfl, rfl⟩

section

variable (hs : stream.Scanned length)

include hs

theorem token_of_kind (hk : stream.kindAt i ≠ .finish) :
    Spans stream i (stream.tokenAt i).span (i + 1) := token (hs.lt_of_kindAt hk)

/-- **Merging in order.** -/
theorem merge (h : Spans stream i s j) (h' : Spans stream k t l) (hik : i ≤ k) (hjl : j ≤ l) :
    Spans stream i (s.merge t) l := by
  have hj := h.lt
  have hl := h'.lt
  have hb := h'.bound
  have hstart := hs.start_mono hik (by omega)
  have hstop := hs.stop_mono (i := j - 1) (j := l - 1) (by omega) (by omega)
  refine ⟨by omega, hb, ?_, ?_⟩
  · rw [Span.merge, h.start, h'.start, Nat.min_eq_left hstart]
  · rw [Span.merge, h.stop, h'.stop, Nat.max_eq_right hstop]

/-- Merging with a place further on. -/
theorem join (h : Spans stream i s j) (h' : Spans stream k t l) (hjk : j ≤ k) :
    Spans stream i (s.merge t) l :=
  h.merge hs h' (h.lt.le.trans hjk) (hjk.trans h'.lt.le)

/-- What is read between the ends of a place lies inside it. -/
theorem contains (h : Spans stream i s j) (h' : Spans stream k t l) (hik : i ≤ k) (hlj : l ≤ j) :
    s.contains t = true := by
  have hb := h.bound
  have hl := h'.lt
  have hstart := hs.start_mono hik (by omega)
  have hstop := hs.stop_mono (i := l - 1) (j := j - 1) (by omega) (by omega)
  rw [Span.contains, h.start, h.stop, h'.start, h'.stop, Bool.and_eq_true, decide_eq_true_eq,
    decide_eq_true_eq]
  exact ⟨hstart, hstop⟩

/-- A token before a place or behind it lies outside of it. -/
theorem not_contains (h : Spans stream i s j) (hk : k < stream.tokens.length)
    (hout : k < i ∨ j ≤ k) : s.contains (stream.tokenAt k).span = false := by
  have hlt := hs.start_lt_stop hk
  have hij := h.lt
  have hj := h.bound
  rw [Span.contains, h.start, h.stop, Bool.and_eq_false_iff, decide_eq_false_iff_not,
    decide_eq_false_iff_not]
  rcases hout with hbefore | hbehind
  · have hstop := hs.stop_le_start hbefore (by omega)
    omega
  · have hstop := hs.stop_le_start (i := j - 1) (by omega) hk
    omega

end

end Spans

/-! ### Nodes that have been read -/

/-- **A sound node** is well formed, has parts of the right ranks, and its children lie inside
it. -/
structure Node.Sound (n : Node) : Prop where
  wellFormed : n.WellFormed
  ranked : n.Ranked
  nested : ∀ c ∈ n.children, n.span.contains c.span = true

/-- **A node that has been read**: it has the place of the tokens from `i` to `j`, and it and all
the nodes below it are sound. -/
structure Read (stream : TokenStream) (i : Nat) (n : Node) (j : Nat) : Prop where
  spans : Spans stream i n.span j
  sound : n.Everywhere Node.Sound

/-- A node that has been read somewhere between the tokens `i` and `j`. -/
def Inside (stream : TokenStream) (i : Nat) (n : Node) (j : Nat) : Prop :=
  ∃ k l, i ≤ k ∧ Read stream k n l ∧ l ≤ j

/-- Nodes that have all been read somewhere between the tokens `i` and `j`. -/
abbrev InsideAll (stream : TokenStream) (i : Nat) (ns : List Node) (j : Nat) : Prop :=
  ∀ c ∈ ns, Inside stream i c j

variable {stream : TokenStream} {length : Nat} {i j k l : Nat} {n : Node} {ns ms : List Node}

namespace Read

theorem lt (h : Read stream i n j) : i < j := h.spans.lt

theorem le (h : Read stream i n j) : i ≤ j := h.spans.lt.le

theorem inside (h : Read stream k n l) (hik : i ≤ k) (hlj : l ≤ j) : Inside stream i n j :=
  ⟨k, l, hik, h, hlj⟩

/-- **Making a node** from what has been read between its ends. Most nodes have no parts of which a
rank is asked. -/
theorem node (hs : stream.Scanned length) (hspan : Spans stream i n.span j) (hwf : n.WellFormed)
    (hchildren : InsideAll stream i n.children j) (hranked : n.Ranked) : Read stream i n j := by
  refine ⟨hspan, ⟨hwf, hranked, fun c hc => ?_⟩, fun c hc => ?_⟩
  · obtain ⟨k, l, hik, hread, hlj⟩ := hchildren c hc
    exact hspan.contains hs hread.spans hik hlj
  · obtain ⟨_, _, _, hread, _⟩ := hchildren c hc
    exact hread.sound

/-- A node without children. -/
theorem leaf (hspan : Spans stream i n.span j) (hwf : n.WellFormed) (hnil : n.children = [])
    (hranked : n.Ranked) : Read stream i n j := by
  refine ⟨hspan, ⟨hwf, hranked, ?_⟩, ?_⟩ <;> · rw [hnil]; exact nofun

end Read

namespace Inside

theorem mono (h : Inside stream k n l) (hik : i ≤ k) (hlj : l ≤ j) : Inside stream i n j := by
  obtain ⟨k', l', hk, hread, hl⟩ := h
  exact ⟨k', l', hik.trans hk, hread, hl.trans hlj⟩

end Inside

namespace InsideAll

theorem nil : InsideAll stream i [] j := nofun

theorem cons (h : Inside stream i n j) (hall : InsideAll stream i ns j) :
    InsideAll stream i (n :: ns) j := List.forall_mem_cons.mpr ⟨h, hall⟩

theorem one (h : Inside stream i n j) : InsideAll stream i [n] j := cons h nil

theorem two {m : Node} (h : Inside stream i n j) (h' : Inside stream i m j) :
    InsideAll stream i [n, m] j := cons h (one h')

theorem append (h : InsideAll stream i ns j) (h' : InsideAll stream i ms j) :
    InsideAll stream i (ns ++ ms) j := List.forall_mem_append.mpr ⟨h, h'⟩

theorem mono (h : InsideAll stream k ns l) (hik : i ≤ k) (hlj : l ≤ j) :
    InsideAll stream i ns j := fun c hc => (h c hc).mono hik hlj

/-- A part that may be left out. -/
theorem option {α : Type} {node : α → Node} {o : Option α}
    (h : ∀ a ∈ o, Inside stream i (node a) j) : InsideAll stream i (o.toList.map node) j := by
  cases o with
  | none => exact nil
  | some a => exact one (h a rfl)

end InsideAll

/-! ### Lists of nodes -/

/-- Nodes one after the other between the tokens `i` and `j`, where the last one ends at `j`. -/
abbrev ReadMany {α : Type} (stream : TokenStream) (node : α → Node) (i : Nat) (as : List α)
    (j : Nat) : Prop :=
  Parser.Many (fun k a l => ∃ m, k ≤ m ∧ Read stream m (node a) l) i as j

namespace ReadMany

variable {α : Type} {node : α → Node} {as : List α} {a : α}

theorem inside (h : ReadMany stream node i as j) (ha : a ∈ as) : Inside stream i (node a) j := by
  obtain ⟨k, l, hik, ⟨m, hkm, hread⟩, hl⟩ :=
    h.of_mem (fun _ _ _ ⟨_, hm, hread⟩ => hm.trans hread.le) ha
  exact hread.inside (hik.trans hkm) hl

theorem insideAll (h : ReadMany stream node k as l) (hik : i ≤ k) (hlj : l ≤ j) :
    InsideAll stream i (as.map node) j := by
  intro c hc
  obtain ⟨a, ha, rfl⟩ := List.mem_map.mp hc
  exact (h.inside ha).mono hik hlj

/-- The last node ends at the end. -/
theorem getLast? (h : ReadMany stream node i as j) :
    as.getLast? = none ∧ j = i ∨
      ∃ a k, as.getLast? = some a ∧ i ≤ k ∧ Read stream k (node a) j := by
  rcases Parser.Many.getLast? (fun _ _ _ ⟨_, hm, hread⟩ => hm.trans hread.le) h with
    hnone | ⟨a, k, ha, hik, m, hkm, hread⟩
  · exact Or.inl hnone
  · exact Or.inr ⟨a, m, ha, hik.trans hkm, hread⟩

/-- Nodes that have been read with a property each. -/
theorem of_many {P : α → Prop} (h : Parser.Many (fun k a l =>
      ∃ m, k ≤ m ∧ Read stream m (node a) l ∧ P a) i as j) :
    ReadMany stream node i as j ∧ ∀ a ∈ as, P a := by
  have hle : ∀ k a l, (∃ m, k ≤ m ∧ Read stream m (node a) l ∧ P a) → k ≤ l :=
    fun _ _ _ ⟨_, hm, hread, _⟩ => hm.trans hread.le
  refine ⟨(h.mono (fun _ _ _ _ ⟨m, hm, hread, _⟩ => ⟨m, hm, hread⟩) hle).1, fun a ha => ?_⟩
  obtain ⟨-, -, -, ⟨-, -, -, hP⟩, -⟩ := h.of_mem hle ha
  exact hP

/-- Merging the spans of all nodes, one by one, with what comes before them. -/
theorem foldl (hs : stream.Scanned length) {span : α → Span} (hspan : ∀ a, (node a).span = span a)
    {s : Span} (h₀ : Spans stream k s i) (h : ReadMany stream node i as j) :
    Spans stream k (as.foldl (fun s a => s.merge (span a)) s) j := by
  induction h with
  | nil => exact h₀
  | snoc init last ih =>
    obtain ⟨m, hm, hread⟩ := last
    rw [List.foldl_append, List.foldl_cons, List.foldl_nil, ← hspan]
    exact ih.join hs hread.spans hm

end ReadMany

end Futhark
