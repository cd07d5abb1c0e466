import SpokenGrammar.Graph.Basic

namespace SpokenGrammar

def Edge.bridge (x y : Edge) : Edge where
  source := x.source
  target := y.target
  weight := chained x.weight y.weight

def Edge.touches (e : Edge) (node : Nat) : Bool :=
  e.source = node || e.target = node

theorem Distinct.filter {es : List Edge} (h : Distinct es) (p : Edge → Bool) :
    Distinct (es.filter p) :=
  h.sublist (List.filter_sublist.map _)

def bridges (es : List Edge) (node : Nat) : List Edge :=
  (es.filter (·.target = node)).flatMap fun x =>
    (es.filter (·.source = node)).map fun y => x.bridge y

namespace Graph

def elideNode (g : Graph) (node : Nat) : Graph where
  tokens := g.tokens
  edges := addEdges (g.edges.filter (!·.touches node)) (bridges g.edges node)
  distinct := (g.distinct.filter _).addEdges _

def inner (g : Graph) : List Nat :=
  let source := g.source
  let sink := g.sink
  (g.tokens.zipIdx.filter fun (t, i) =>
    t.isStructural && i != source && i != sink && g.touches i).map (·.2)

def elide (g : Graph) : Graph :=
  g.inner.foldl elideNode g

theorem tokens_foldl_elideNode (g : Graph) (nodes : List Nat) :
    (nodes.foldl elideNode g).tokens = g.tokens := by
  induction nodes generalizing g with
  | nil => rfl
  | cons n nodes ih => exact ih _

theorem tokens_elide (g : Graph) : g.elide.tokens = g.tokens :=
  tokens_foldl_elideNode ..

end Graph

end SpokenGrammar
