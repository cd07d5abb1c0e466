import SpokenGrammar.Proofs.Graph.Bridging
import SpokenGrammar.Proofs.Graph.Enumeration
import SpokenGrammar.Proofs.Repetition

namespace SpokenGrammar

variable {es out : List Edge} {x : Nat × Nat}

def parallel (es : List Edge) (x : Nat × Nat) : List Edge :=
  es.filter (·.ends = x)

theorem parallel_ne_nil : parallel es x ≠ [] ↔ x ∈ es.map Edge.ends := by
  simp [parallel]

theorem parallel_snoc (es : List Edge) (e : Edge) (x : Nat × Nat) :
    parallel (es ++ [e]) x = parallel es x ++ if e.ends = x then [e] else [] := by
  simp [parallel, List.filter_append, List.filter_singleton]

def heaviest : List Edge → Option Float
  | [] => none
  | e :: es => es.foldl (fun w d => heavier w d.weight) e.weight

theorem heaviest_snoc (hes : es ≠ []) (e : Edge) :
    heaviest (es ++ [e]) = heavier (heaviest es) e.weight := by
  cases es with
  | nil => exact absurd rfl hes
  | cons d es => exact List.foldl_append

theorem foldl_heavier_eq_none {w : Option Float} :
    es.foldl (fun w d => heavier w d.weight) w = none ↔ w = none ∧ ∀ d ∈ es, d.weight = none := by
  induction es generalizing w with
  | nil => simp
  | cons d es ih => rw [List.foldl_cons, ih, heavier_eq_none, List.forall_mem_cons, and_assoc]

theorem heaviest_eq_none : heaviest es = none ↔ ∀ d ∈ es, d.weight = none := by
  cases es with
  | nil => simp [heaviest]
  | cons e es => rw [heaviest, foldl_heavier_eq_none, List.forall_mem_cons]

theorem getD_heavier (a b : Option Float) :
    (heavier a b).getD 1 = greater (a.getD 1) (b.getD 1) := by
  cases a with
  | some a => rfl
  | none =>
    cases b with
    | some b => rfl
    | none => decide

theorem getD_heaviest (e : Edge) (es : List Edge) :
    (heaviest (e :: es)).getD 1 = (es.map Edge.value).foldl greater e.value := by
  -- As an unset weight counts as 1, it does not matter that edges without weights leave it unset.
  have hstep : ∀ (w : Option Float) (d : Edge),
      greater (w.getD 1) d.value = (heavier w d.weight).getD 1 :=
    fun w d => (getD_heavier w d.weight).symm
  rw [List.foldl_map]
  exact (List.foldl_hom (fun w : Option Float => w.getD 1) hstep).symm

structure Merged (es out : List Edge) : Prop where
  ends : out.map Edge.ends = (es.map Edge.ends).eraseDups
  weight : ∀ e ∈ out, e.weight = heaviest (parallel es e.ends)

namespace Merged

theorem nil : Merged [] [] :=
  ⟨rfl, by simp⟩

theorem mem_ends (h : Merged es out) : x ∈ out.map Edge.ends ↔ x ∈ es.map Edge.ends := by
  rw [h.ends, List.mem_eraseDups]

theorem distinct (h : Merged es out) : Distinct out := by
  rw [Distinct, h.ends]
  exact nodup_eraseDups _

theorem addEdge (h : Merged es out) (e : Edge) : Merged (es ++ [e]) (addEdge e out) where
  ends := by
    rw [ends_addEdge, List.map_append, List.map_singleton]
    split
    · rename_i he
      rw [eraseDups_snoc_of_mem (h.mem_ends.mp he), h.ends]
    · rename_i he
      rw [eraseDups_snoc_of_not_mem (mt h.mem_ends.mpr he), h.ends]
  weight := by
    intro d hd
    rw [parallel_snoc]
    rcases mem_addEdge h.distinct hd with ⟨hd, hne⟩ | ⟨hnew, rfl⟩ | ⟨k, hk, hends, rfl⟩
    · rw [if_neg (Ne.symm hne), List.append_nil]
      exact h.weight d hd
    · have hnone : parallel es d.ends = [] := by
        rwa [h.mem_ends, ← parallel_ne_nil, not_not] at hnew
      rw [hnone, if_pos rfl]
      rfl
    · have hsome : parallel es k.ends ≠ [] :=
        parallel_ne_nil.mpr (h.mem_ends.mp (List.mem_map_of_mem hk))
      change heavier k.weight e.weight =
        heaviest (parallel es k.ends ++ if e.ends = k.ends then [e] else [])
      rw [if_pos hends.symm, heaviest_snoc hsome, h.weight k hk]

theorem addEdges (h : Merged es out) (new : List Edge) :
    Merged (es ++ new) (addEdges out new) := by
  induction new generalizing es out with
  | nil => rwa [List.append_nil]
  | cons e new ih =>
    have hrest := ih (h.addEdge e)
    rwa [List.append_assoc] at hrest

end Merged

theorem merged_mergeEdges (es : List Edge) : Merged es (mergeEdges es) := by
  rw [mergeEdges_eq]
  exact Merged.nil.addEdges es

theorem parallel_edges_merge (es : List Edge) :
    (mergeEdges es).map Edge.ends = (es.map Edge.ends).eraseDups ∧
    ((mergeEdges es).map Edge.ends).Nodup ∧
    (∀ x, x ∈ (mergeEdges es).map Edge.ends ↔ x ∈ es.map Edge.ends) ∧
    (∀ e ∈ mergeEdges es,
      (e.weight = none ↔ ∀ d ∈ parallel es e.ends, d.weight = none) ∧
      (∀ d, parallel es e.ends = [d] → e.weight = d.weight) ∧
      ∀ d ds, parallel es e.ends = d :: ds → e.weight ≠ none →
        e.weight = some ((ds.map Edge.value).foldl greater d.value)) ∧
    mergeEdges (mergeEdges es) = mergeEdges es ∧
    ∀ (tokens : List Token) (i : Nat), ((Graph.ofEdges tokens es).successors i).Nodup ∧
      ((Graph.ofEdges tokens es).successors i).map (i, ·) =
        ((mergeEdges es).map Edge.ends).filter (·.1 = i) := by
  have hmerged := merged_mergeEdges es
  refine ⟨hmerged.ends, hmerged.distinct, fun x => hmerged.mem_ends, fun e he => ?_,
    mergeEdges_of_distinct hmerged.distinct,
    fun tokens i => ⟨Graph.nodup_successors _ i, Graph.map_successors _ i⟩⟩
  rw [hmerged.weight e he]
  refine ⟨heaviest_eq_none, ?_, ?_⟩
  · intro d hd
    rw [hd]
    rfl
  · intro d ds hds hset
    obtain ⟨w, hw⟩ := Option.ne_none_iff_exists'.mp hset
    rw [hds] at hw ⊢
    rw [← getD_heaviest, hw]
    rfl

theorem parallel_edges_merge_of_repeated :
    let es : List Edge := [⟨0, 1, none⟩, ⟨1, 2, none⟩, ⟨0, 1, some 0.5⟩, ⟨0, 3, some 0.25⟩,
      ⟨0, 1, none⟩, ⟨1, 2, none⟩]
    (mergeEdges es).map Edge.ends = [(0, 1), (1, 2), (0, 3)] ∧
    (∃ e ∈ mergeEdges es, e.ends = (0, 1) ∧ e.weight = some 1) ∧
    (∃ e ∈ mergeEdges es, e.ends = (1, 2) ∧ e.weight = none) ∧
    (∃ e ∈ mergeEdges es, e.ends = (0, 3) ∧ e.weight = some 0.25) ∧
    (Graph.ofEdges [] es).successors 0 = [1, 3] := by
  intro es
  obtain ⟨hends, -, hmem, hweight, -, hsuccessors⟩ := parallel_edges_merge es
  have hexists : ∀ x ∈ es.map Edge.ends, ∃ e ∈ mergeEdges es, e.ends = x :=
    fun x hx => List.mem_map.mp ((hmem x).mpr hx)
  obtain ⟨a, ha, haends⟩ := hexists (0, 1) (by decide)
  obtain ⟨b, hb, hbends⟩ := hexists (1, 2) (by decide)
  obtain ⟨c, hc, hcends⟩ := hexists (0, 3) (by decide)
  refine ⟨hends, ⟨a, ha, haends, ?_⟩, ⟨b, hb, hbends, ?_⟩, ⟨c, hc, hcends, ?_⟩, ?_⟩
  · obtain ⟨hunset, -, hgreatest⟩ := hweight a ha
    rw [haends] at hunset hgreatest
    have hset : a.weight ≠ none := fun h => by
      simpa using hunset.mp h ⟨0, 1, some 0.5⟩ (by simp [parallel, es, Edge.ends])
    rw [hgreatest _ _ rfl hset]
    decide
  · obtain ⟨hunset, -, -⟩ := hweight b hb
    rw [hunset, hbends]
    simp [parallel, es, Edge.ends]
  · obtain ⟨-, hsingle, -⟩ := hweight c hc
    rw [hcends] at hsingle
    exact hsingle ⟨0, 3, some 0.25⟩ rfl
  · obtain ⟨-, horder⟩ := hsuccessors [] 0
    rw [hends] at horder
    exact (List.map_injective_iff.mpr (Prod.mk_right_injective 0)) (horder.trans rfl)

end SpokenGrammar
