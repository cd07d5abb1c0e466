import Mathlib.Data.List.Nodup
import SpokenGrammar.Graph.Splice
import SpokenGrammar.Proofs.Graph.Elide
import SpokenGrammar.Proofs.Graph.Reweighing

namespace SpokenGrammar

theorem addEdge_of_getElem? {e : Edge} {es : List Edge} {i : Nat} (hes : Distinct es)
    (hi : (es.map Edge.ends)[i]? = some e.ends) :
    addEdge e es = es.modify i fun k => { k with weight := heavier k.weight e.weight } := by
  induction es generalizing i with
  | nil => simp at hi
  | cons k rest ih =>
    obtain ⟨hk, hrest⟩ := List.nodup_cons.mp hes
    rw [addEdge_cons]
    cases i with
    | zero =>
      have hends : k.ends = e.ends := by simpa using hi
      rw [if_pos hends]
      rfl
    | succ i =>
      have hi : (rest.map Edge.ends)[i]? = some e.ends := by simpa using hi
      have hne : k.ends ≠ e.ends := fun hends => hk (by
        rw [hends]
        exact List.mem_of_getElem? hi)
      rw [if_neg hne, ih hrest hi]
      rfl

theorem getElem?_snoc_eq_some_iff {α : Type} {l : List α} {a b : α} {i : Nat} :
    (l ++ [a])[i]? = some b ↔ l[i]? = some b ∨ i = l.length ∧ a = b := by
  rw [List.getElem?_append]
  split
  · have hne : i ≠ l.length := by omega
    simp [hne]
  · rename_i hle
    rw [List.getElem?_eq_none (not_lt.mp hle), List.getElem?_singleton]
    have hlast : i - l.length = 0 ↔ i = l.length := by omega
    simp [hlast]

/-- The edges kept so far, and the place among them of each pair of ends. -/
structure Index where
  place : Std.HashMap (Nat × Nat) Nat := ∅
  kept : List Edge := []

namespace Index

variable {m : Index}

def add (m : Index) (e : Edge) : Index :=
  match m.place[e.ends]? with
  | some i =>
    { m with kept := m.kept.modify i fun k => { k with weight := heavier k.weight e.weight } }
  | none => { place := m.place.insert e.ends m.kept.length, kept := m.kept ++ [e] }

def Finds (m : Index) : Prop :=
  ∀ (x : Nat × Nat) (i : Nat), m.place[x]? = some i ↔ (m.kept.map Edge.ends)[i]? = some x

theorem finds_empty : Finds {} := by
  simp [Finds]

namespace Finds

variable (hm : m.Finds)
include hm

theorem distinct : Distinct m.kept := by
  rw [Distinct, List.nodup_iff_injective_get]
  intro i j hij
  have hi := (hm _ i).mpr (List.getElem?_eq_getElem i.isLt)
  have hj := (hm _ j).mpr (List.getElem?_eq_getElem j.isLt)
  rw [← List.get_eq_getElem, hij, List.get_eq_getElem, hj] at hi
  exact Fin.ext (Option.some.inj hi).symm

theorem place_eq_none_iff {x : Nat × Nat} :
    m.place[x]? = none ↔ x ∉ m.kept.map Edge.ends := by
  rw [List.mem_iff_getElem?, Option.eq_none_iff_forall_ne_some, not_exists]
  exact forall_congr' fun i => not_congr (hm x i)

theorem kept_add (e : Edge) : (m.add e).kept = addEdge e m.kept := by
  cases hplace : m.place[e.ends]? with
  | none =>
    rw [add, hplace, addEdge_of_not_mem (hm.place_eq_none_iff.mp hplace)]
  | some i =>
    rw [add, hplace, addEdge_of_getElem? hm.distinct ((hm _ i).mp hplace)]

theorem add (e : Edge) : (m.add e).Finds := by
  intro x i
  rw [hm.kept_add, ends_addEdge]
  cases hplace : m.place[e.ends]? with
  | none =>
    have hnew := hm.place_eq_none_iff.mp hplace
    rw [if_neg hnew, Index.add, hplace, Std.HashMap.getElem?_insert, getElem?_snoc_eq_some_iff,
      ← hm x i, List.length_map]
    by_cases hx : e.ends = x
    · subst hx
      simp [hplace, eq_comm]
    · simp [hx]
  | some k =>
    have hold : e.ends ∈ m.kept.map Edge.ends := List.mem_of_getElem? ((hm _ k).mp hplace)
    rw [if_pos hold, Index.add, hplace]
    exact hm x i

theorem kept_foldl (new : List Edge) : (new.foldl Index.add m).kept = addEdges m.kept new := by
  induction new generalizing m with
  | nil => rfl
  | cons e new ih =>
    rw [List.foldl_cons, ih (hm.add e), hm.kept_add]
    rfl

end Finds

end Index

def dedup (es : List Edge) : List Edge :=
  (es.foldl Index.add {}).kept

theorem dedup_eq (es : List Edge) : dedup es = mergeEdges es := by
  rw [dedup, Index.finds_empty.kept_foldl, mergeEdges_eq]

/-- The targets of the edges out of each node that has any, and the weights that are set. -/
structure Tables where
  children : Std.HashMap Nat (List Nat) := ∅
  weights : Std.HashMap (Nat × Nat) Float := ∅

namespace Tables

variable {t : Tables} {es : List Edge}

def enter (t : Tables) (e : Edge) : Tables where
  children := t.children.alter e.source fun js => some (js.getD [] ++ [e.target])
  weights := e.weight.elim t.weights (t.weights.insert e.ends)

theorem children_enter (t : Tables) (e : Edge) (i : Nat) :
    (t.enter e).children[i]? =
      if e.source = i then some (t.children[i]?.getD [] ++ [e.target]) else t.children[i]? := by
  rw [enter, Std.HashMap.getElem?_alter]
  by_cases hi : e.source = i
  · simp [hi]
  · simp [hi]

theorem weights_enter (t : Tables) (e : Edge) (x : Nat × Nat) :
    (t.enter e).weights[x]? = if e.ends = x then e.weight.or t.weights[x]? else t.weights[x]? := by
  rw [enter]
  cases e.weight with
  | none => simp
  | some w => simp [Std.HashMap.getElem?_insert]

theorem children_foldl (t : Tables) (es : List Edge) (i : Nat) :
    (es.foldl enter t).children[i]?.getD [] =
      t.children[i]?.getD [] ++ (es.filter (·.source = i)).map Edge.target := by
  induction es generalizing t with
  | nil => simp
  | cons e es ih =>
    rw [List.foldl_cons, ih, children_enter]
    by_cases hi : e.source = i
    · simp [hi]
    · simp [hi]

theorem mem_children_foldl (t : Tables) (es : List Edge) (i : Nat) :
    i ∈ (es.foldl enter t).children ↔ i ∈ t.children ∨ ∃ e ∈ es, e.source = i := by
  induction es generalizing t with
  | nil => simp
  | cons e es ih =>
    rw [List.foldl_cons, ih, List.exists_mem_cons_iff, ← or_assoc]
    refine or_congr_left ?_
    rw [← Std.HashMap.isSome_getElem?_iff_mem, ← Std.HashMap.isSome_getElem?_iff_mem,
      children_enter]
    by_cases hi : e.source = i
    · simp [hi]
    · simp [hi]

theorem weights_foldl (hes : Distinct es) (t : Tables) (x : Nat × Nat) :
    (es.foldl enter t).weights[x]? =
      ((es.find? (·.ends = x)).bind Edge.weight).or t.weights[x]? := by
  induction es generalizing t with
  | nil => simp
  | cons e es ih =>
    obtain ⟨he, hes⟩ := List.nodup_cons.mp hes
    rw [List.foldl_cons, ih hes, weights_enter]
    by_cases hx : e.ends = x
    · have hnone : es.find? (·.ends = x) = none := by
        rw [List.find?_eq_none]
        intro d hd hends
        exact he (List.mem_map.mpr ⟨d, hd, (of_decide_eq_true hends).trans hx.symm⟩)
      rw [hnone, List.find?_cons_of_pos (by simpa using hx), if_pos hx]
      rfl
    · rw [List.find?_cons_of_neg (by simpa using hx), if_neg hx]

end Tables

structure Tabled extends Graph, Tables

theorem addEdges_append (es new new' : List Edge) :
    addEdges es (new ++ new') = addEdges (addEdges es new) new' :=
  List.foldl_append

theorem bridges_of_untouched {es : List Edge} {n : Nat} (h : ¬ es.any (·.touches n) = true) :
    bridges es n = [] := by
  have hnone : es.filter (·.target = n) = [] := by
    rw [List.filter_eq_nil_iff]
    intro e he htarget
    exact h (List.any_eq_true.mpr ⟨e, he, by simp [Edge.touches, of_decide_eq_true htarget]⟩)
  rw [bridges, hnone]
  rfl

namespace Graph

theorem elideNode_of_untouched {g : Graph} {n : Nat} (h : ¬ g.Touched n) : g.elideNode n = g := by
  have hany : ¬ g.edges.any (·.touches n) = true := mt touches_iff.mp h
  have hkept : g.edges.filter (!·.touches n) = g.edges := by
    rw [List.filter_eq_self]
    intro e he
    simpa using fun htouch => hany (List.any_eq_true.mpr ⟨e, he, htouch⟩)
  have hedges : (g.elideNode n).edges = g.edges := by
    change addEdges (g.edges.filter (!·.touches n)) (bridges g.edges n) = g.edges
    rw [bridges_of_untouched hany, hkept]
    rfl
  rw [← (g.elideNode n).ofEdges_edges, hedges]
  exact g.ofEdges_edges

theorem foldl_elideNode_filter {g : Graph} {keep : Nat → Bool} (nodes : List Nat)
    (h : ∀ n, g.Touched n → keep n = true) :
    (nodes.filter keep).foldl elideNode g = nodes.foldl elideNode g := by
  induction nodes generalizing g with
  | nil => rfl
  | cons n nodes ih =>
    cases hn : keep n with
    | true =>
      rw [List.filter_cons_of_pos hn, List.foldl_cons, List.foldl_cons]
      exact ih fun i hi => h i (touched_of_elideNode hi)
    | false =>
      have huntouched : ¬ g.Touched n := fun htouched => by simp [h n htouched] at hn
      rw [List.filter_cons_of_neg (by simp [hn]), List.foldl_cons,
        elideNode_of_untouched huntouched, ih h]

end Graph

namespace Tabled

variable {s host guest : Tabled} {g : Graph}

def make (tokens : List Token) (edges : List Edge) : Tabled where
  tokens
  edges := dedup edges
  distinct := dedup_eq edges ▸ distinct_mergeEdges edges
  toTables := (dedup edges).foldl Tables.enter {}

def of (g : Graph) : Tabled :=
  make g.tokens g.edges

def successors (s : Tabled) (node : Nat) : List Nat :=
  s.children[node]?.getD []

def weight (s : Tabled) (i j : Nat) : Float :=
  s.weights[(i, j)]?.getD 1

def splice (host guest : Tabled) (position : Nat) : Except Fault Tabled :=
  if host.isEmpty then .error .emptyHost
  else if guest.isEmpty then .error .emptyGuest
  else
    let offset := host.tokens.length
    if position < offset then
      let entry := guest.source + offset
      let exit := guest.sink + offset
      .ok (make (host.tokens ++ guest.tokens)
        (host.edges.map (Edge.detour position entry exit) ++ guest.edges.map (Edge.shift offset)))
    else .error (.positionOutOfRange position (offset - 1))

def bypass (es : List Edge) (node : Nat) : List Edge :=
  let rest := es.filter (!·.touches node)
  if es.any (·.touches node) then dedup (rest ++ bridges es node) else rest

def elide (s : Tabled) : Tabled :=
  let source := s.source
  let sink := s.sink
  let nodes := (s.tokens.zipIdx.filter fun (t, i) =>
    t.isStructural && i != source && i != sink).map (·.2)
  make s.tokens (nodes.foldl bypass s.edges)

def applyWeights (s : Tabled) (delimiter : Char) : Except Fault Tabled :=
  (s.tokens.mapM (Token.takeWeight delimiter)).map fun parts =>
    if parts.all (·.2.isNone) then s
    else make (parts.map (·.1)) (s.edges.map (Edge.weighTarget (parts.map (·.2))))

inductive Derived : Tabled → Prop where
  | make {tokens : List Token} {edges : List Edge} : Derived (make tokens edges)
  | splice {host guest s : Tabled} {position : Nat} :
      Derived host → Derived guest → host.splice guest position = .ok s → Derived s
  | elide {s : Tabled} : Derived s → Derived s.elide
  | applyWeights {s u : Tabled} {delimiter : Char} :
      Derived s → s.applyWeights delimiter = .ok u → Derived u

theorem toGraph_make (tokens : List Token) (edges : List Edge) :
    (make tokens edges).toGraph = Graph.ofEdges tokens edges := by
  simp only [make, Graph.ofEdges, dedup_eq]

theorem toGraph_of (g : Graph) : (of g).toGraph = g :=
  (toGraph_make _ _).trans g.ofEdges_edges

theorem make_eq (tokens : List Token) (edges : List Edge) :
    make tokens edges = of (Graph.ofEdges tokens edges) := by
  have hsame : dedup (mergeEdges edges) = dedup edges := by
    rw [dedup_eq, dedup_eq, mergeEdges_of_distinct (distinct_mergeEdges edges)]
  simp only [of, make, Graph.ofEdges, hsame]

theorem splice_of (host guest : Graph) (position : Nat) :
    (of host).splice (of guest) position = (host.splice guest position).map of := by
  simp only [splice, Graph.splice, toGraph_of, make_eq]
  split
  · rfl
  · split
    · rfl
    · split
      · rfl
      · rfl

theorem bypass_edges (g : Graph) (node : Nat) :
    bypass g.edges node = (g.elideNode node).edges := by
  have hrest : Distinct ([] ++ g.edges.filter (!·.touches node)) := g.distinct.filter _
  change _ = addEdges (g.edges.filter (!·.touches node)) (bridges g.edges node)
  rw [bypass]
  split
  · rw [dedup_eq, mergeEdges_eq, addEdges_append, addEdges_of_distinct hrest]
    rfl
  · rename_i hany
    rw [bridges_of_untouched hany]
    rfl

theorem elide_of (g : Graph) : (of g).elide = of g.elide := by
  have hinner : g.inner = ((g.tokens.zipIdx.filter fun (t, i) =>
      t.isStructural && i != g.source && i != g.sink).map (·.2)).filter (g.touches ·) := by
    rw [List.filter_map, List.filter_filter, Graph.inner]
    congr 2
    funext x
    exact Bool.and_comm _ _
  rw [elide, toGraph_of, List.foldl_hom Graph.edges bypass_edges, of, Graph.tokens_elide,
    Graph.elide, hinner, Graph.foldl_elideNode_filter _ fun _ => Graph.touches_iff.mpr]

theorem applyWeights_of (g : Graph) (delimiter : Char) :
    (of g).applyWeights delimiter = (g.applyWeights delimiter).map of := by
  rw [applyWeights, Graph.applyWeights, toGraph_of]
  cases hparts : g.tokens.mapM (Token.takeWeight delimiter) with
  | error f => rfl
  | ok parts =>
    refine congrArg Except.ok ?_
    change (if parts.all (·.2.isNone) = true then of g else make _ _) =
      make (parts.map (·.1)) (g.edges.map (Edge.weighTarget (parts.map (·.2))))
    split
    · rename_i hnone
      have hbare : ∀ i, g.annotation? i = none := by
        intro i
        rcases Graph.parts_cases hparts i with ⟨hi, -⟩ | ⟨t, span, rest, w, -, -, hi⟩
        · exact hi
        · cases List.all_eq_true.mp hnone _ (List.mem_of_getElem? hi)
      have hsame := Graph.applyWeights_of_bare hbare delimiter
      rw [Graph.applyWeights, hparts] at hsame
      exact congrArg of (Except.ok.inj hsame).symm
    · rfl

theorem Derived.exists_of (h : Derived s) : ∃ g, s = of g := by
  induction h with
  | make => exact ⟨_, make_eq _ _⟩
  | splice _ _ hs ihhost ihguest =>
    obtain ⟨host, rfl⟩ := ihhost
    obtain ⟨guest, rfl⟩ := ihguest
    rw [splice_of] at hs
    obtain ⟨g, -, rfl⟩ := Attempt.map_eq_ok.mp hs
    exact ⟨g, rfl⟩
  | elide _ ih =>
    obtain ⟨g, rfl⟩ := ih
    exact ⟨g.elide, elide_of g⟩
  | applyWeights _ hu ih =>
    obtain ⟨g, rfl⟩ := ih
    rw [applyWeights_of] at hu
    obtain ⟨r, -, rfl⟩ := Attempt.map_eq_ok.mp hu
    exact ⟨r, rfl⟩

theorem toTables_of (g : Graph) : (of g).toTables = g.edges.foldl Tables.enter {} := by
  change (dedup g.edges).foldl Tables.enter {} = _
  rw [dedup_eq, mergeEdges_of_distinct g.distinct]

theorem successors_of (g : Graph) (i : Nat) : (of g).successors i = g.successors i := by
  rw [successors, toTables_of, Tables.children_foldl]
  simp [Graph.successors]

theorem weights_of (g : Graph) (x : Nat × Nat) :
    (of g).weights[x]? = (g.edges.find? (·.ends = x)).bind Edge.weight := by
  rw [toTables_of, Tables.weights_foldl g.distinct]
  simp

theorem weight_of (g : Graph) (i j : Nat) : (of g).weight i j = g.weight i j := by
  rw [weight, weights_of, Graph.weight]
  cases g.edges.find? (·.ends = (i, j)) <;> rfl

theorem Derived.lookups_agree (h : Derived s) :
    (∀ i, s.successors i = s.toGraph.successors i) ∧
    (∀ i j, s.weight i j = s.toGraph.weight i j) ∧
    (∀ i, i ∈ s.children ↔ ∃ e ∈ s.edges, e.source = i) ∧
    ∀ x, s.weights[x]? = (s.edges.find? (·.ends = x)).bind Edge.weight := by
  obtain ⟨g, rfl⟩ := h.exists_of
  rw [toGraph_of]
  refine ⟨successors_of g, weight_of g, fun i => ?_, weights_of g⟩
  rw [toTables_of, Tables.mem_children_foldl]
  simp

end Tabled

end SpokenGrammar
