import SpokenGrammar.Graph.Edge
import SpokenGrammar.Token.Basic

namespace SpokenGrammar

structure Graph where
  tokens : List Token
  edges : List Edge
  distinct : Distinct edges

namespace Graph

def empty : Graph where
  tokens := []
  edges := []
  distinct := distinct_nil

instance : Inhabited Graph := ⟨empty⟩

instance : BEq Graph where
  beq g h := g.tokens == h.tokens && g.edges == h.edges

def ofEdges (tokens : List Token) (edges : List Edge) : Graph where
  tokens
  edges := mergeEdges edges
  distinct := distinct_mergeEdges edges

theorem ofEdges_edges (g : Graph) : ofEdges g.tokens g.edges = g := by
  simp [ofEdges, mergeEdges_of_distinct g.distinct]

def isEmpty (g : Graph) : Bool :=
  g.edges.isEmpty

def successors (g : Graph) (node : Nat) : List Nat :=
  (g.edges.filter (·.source = node)).map Edge.target

theorem mem_successors {g : Graph} {i j : Nat} :
    j ∈ g.successors i ↔ (i, j) ∈ g.edges.map Edge.ends := by
  simp only [successors, List.mem_map, List.mem_filter, decide_eq_true_eq, Edge.ends,
    Prod.mk.injEq]
  constructor
  · rintro ⟨e, ⟨he, hi⟩, hj⟩
    exact ⟨e, he, hi, hj⟩
  · rintro ⟨e, he, hi, hj⟩
    exact ⟨e, ⟨he, hi⟩, hj⟩

def weight (g : Graph) (i j : Nat) : Float :=
  ((g.edges.find? (·.ends = (i, j))).map Edge.value).getD 1

def touches (g : Graph) (node : Nat) : Bool :=
  g.edges.any fun e => e.source = node || e.target = node

def source (g : Graph) : Nat :=
  let targets := g.edges.map Edge.target
  (((sortedEnds g.edges).find? fun x => !targets.contains x.1).map (·.1)).getD 0

def sink (g : Graph) : Nat :=
  let sources := g.edges.map Edge.source
  (((sortedEnds g.edges).find? fun x => !sources.contains x.2).map (·.2)).getD 0

theorem source_of_isEmpty {g : Graph} (h : g.isEmpty = true) : g.source = 0 := by
  have h : g.edges = [] := by simpa [isEmpty] using h
  simp [source, sortedEnds, h]

theorem sink_of_isEmpty {g : Graph} (h : g.isEmpty = true) : g.sink = 0 := by
  have h : g.edges = [] := by simpa [isEmpty] using h
  simp [sink, sortedEnds, h]

end Graph

end SpokenGrammar
