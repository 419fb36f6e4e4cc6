import Dataflow.Graph.Walk

/-!
# Equality of graphs up to keys

Two graphs are equal up to keys if their nodes can be paired so that paired nodes have the same
content and the same outputs and inputs, slot by slot. The pairing is found from the sources: once
two sources are paired, everything behind them is paired by output slot, and the inputs are compared
at the end. Which source goes with which is tried out in turn.
-/

namespace Dataflow.Graph

variable {α : Type}

/-- Pairs of a node of one graph and a node of another. -/
abbrev Pairing := List (NodeId × NodeId)

/-- The partner of a node of the first graph. -/
def Pairing.forward? (m : Pairing) (a : NodeId) : Option NodeId :=
  (m.find? (·.1 == a)).map Prod.snd

/-- The partner of a node of the second graph. -/
def Pairing.backward? (m : Pairing) (b : NodeId) : Option NodeId :=
  (m.find? (·.2 == b)).map Prod.fst

/-- The key of every paired node of the first graph. -/
def Pairing.lefts (m : Pairing) : List NodeId := m.map Prod.fst

/-- A node without a partner is not among the paired ones. -/
theorem Pairing.not_mem_lefts {m : Pairing} {a : NodeId} (h : m.forward? a = none) :
    a ∉ m.lefts := by
  simp only [forward?, Option.map_eq_none_iff, List.find?_eq_none, beq_iff_eq] at h
  simp only [lefts, List.mem_map, not_exists, not_and]
  exact fun p hp => h p hp

/-- Whether two nodes have the same content and as many outputs and inputs as each other. -/
def Vertex.alike (same : α → α → Bool) (v w : Vertex α) : Bool :=
  same v.content w.content && v.outs.length == w.outs.length && v.ins.length == w.ins.length

/-- Pairs the stacked nodes and everything behind them, output by output; none if two of them do
not fit. -/
def extendPairing (same : α → α → Bool) (g h : Graph α) (stack : List (NodeId × NodeId))
    (m : Pairing) : Option Pairing :=
  match stack with
  | [] => some m
  | (a, b) :: rest =>
    match _ : m.forward? a, m.backward? b with
    | some b', _ => if b' = b then extendPairing same g h rest m else none
    | none, some _ => none
    | none, none =>
      match _ : g.vertices[a]?, h.vertices[b]? with
      | some v, some w =>
        if Vertex.alike same v w then
          extendPairing same g h ((v.outs.zip w.outs).reverse ++ rest) ((a, b) :: m)
        else none
      | _, _ => none
termination_by g.pending Vertex.outs (stack.map Prod.fst) m.lefts
decreasing_by
  · simp only [pending, List.map_cons, List.length_cons]; omega
  · rename_i hf hv _
    have h1 := pending_visit Vertex.outs (rest.map Prod.fst) hv
      (Pairing.not_mem_lefts hf)
    refine Nat.lt_of_le_of_lt ?_ h1
    simp only [pending, Pairing.lefts, List.map_cons, List.map_append, List.length_append,
      List.length_map, List.length_reverse, List.length_zip]
    omega

/-- Whether every node is paired and paired nodes have paired inputs, in the same order. -/
def inputsAgree (g h : Graph α) (m : Pairing) : Bool :=
  m.length == g.size &&
    m.all fun (a, b) => (g.predecessors a).map m.forward? == (h.predecessors b).map some

/-- Every way to take one element out of a list. -/
def picks {β : Type} : List β → List (β × List β)
  | [] => []
  | b :: rest => (b, rest) :: (picks rest).map fun (c, others) => (c, b :: others)

/-- Whether the sources `as` can be paired with some of `bs` so that a full pairing results. -/
def pairSources (same : α → α → Bool) (g h : Graph α) :
    (as bs : List NodeId) → Pairing → Bool
  | [], _, m => inputsAgree g h m
  | a :: rest, bs, m =>
    (picks bs).any fun (b, others) =>
      match extendPairing same g h [(a, b)] m with
      | some m' => pairSources same g h rest others m'
      | none => false

/-- Whether two graphs are equal up to keys, contents being compared by `same`. -/
def isIsomorphic (same : α → α → Bool) (g h : Graph α) : Bool :=
  g.size == h.size && g.sources.length == h.sources.length &&
    pairSources same g h g.sources h.sources []

end Dataflow.Graph
