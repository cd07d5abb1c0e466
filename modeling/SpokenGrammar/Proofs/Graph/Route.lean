import Mathlib.Computability.Language
import Mathlib.Data.List.Perm.Subperm
import Mathlib.Data.Finset.Lattice.Fold
import Mathlib.Logic.Relation
import SpokenGrammar.Graph.Basic

namespace SpokenGrammar

inductive Route (next : Nat → Nat → Prop) : Nat → Nat → List Nat → Prop where
  | here (i : Nat) : Route next i i [i]
  | step {i j k : Nat} {p : List Nat} : next i j → Route next j k p → Route next i k (i :: p)

namespace Route

variable {next : Nat → Nat → Prop} {i j k : Nat} {p q : List Nat}

theorem last_eq (r : Route next i j p) : p.getLast? = some j := by
  induction r with
  | here i => rfl
  | step _ r ih => rw [List.getLast?_cons, ih]; rfl

theorem snoc (r : Route next i j p) (h : next j k) : Route next i k (p ++ [k]) := by
  induction r with
  | here i => exact .step h (.here k)
  | step hij _ ih => exact .step hij (ih h)

theorem exists_snoc (r : Route next i k p) :
    (i = k ∧ p = [k]) ∨ ∃ j q, Route next i j q ∧ next j k ∧ p = q ++ [k] := by
  induction r with
  | here i => exact .inl ⟨rfl, rfl⟩
  | @step i j k p h _ ih =>
    right
    rcases ih with ⟨rfl, rfl⟩ | ⟨l, q, hq, hl, rfl⟩
    · exact ⟨i, [i], .here i, h, rfl⟩
    · exact ⟨l, i :: q, .step h hq, hl, rfl⟩

theorem mono {next' : Nat → Nat → Prop} (hnext : ∀ i j, next i j → next' i j)
    (r : Route next i j p) : Route next' i j p := by
  induction r with
  | here i => exact .here i
  | step hij _ ih => exact .step (hnext _ _ hij) ih

theorem trans (r : Route next i j p) (r' : Route next j k (j :: q)) : Route next i k (p ++ q) := by
  induction r with
  | here i => exact r'
  | step h _ ih => exact .step h (ih r')

theorem exists_tail (r : Route next i j p) : ∃ q, p = i :: q := by
  cases r with
  | here i => exact ⟨[], rfl⟩
  | step _ r => exact ⟨_, rfl⟩

theorem reflTransGen_of_mem (r : Route next i j p) (hk : k ∈ p) :
    Relation.ReflTransGen next i k := by
  induction r with
  | here i =>
    rcases List.mem_singleton.mp hk with rfl
    exact .refl
  | step h _ ih =>
    rcases List.mem_cons.mp hk with rfl | hk
    · exact .refl
    · exact .head h (ih hk)

theorem next_of_infix (r : Route next i j p) {k l : Nat} (h : [k, l] <:+: p) : next k l := by
  induction r with
  | here i =>
    have hlen := h.length_le
    simp at hlen
  | step hij r ih =>
    rcases List.infix_cons_iff.mp h with h | h
    · obtain ⟨q, rfl⟩ := r.exists_tail
      obtain ⟨rfl, rfl, -⟩ : k = _ ∧ l = _ ∧ [] <+: q := by simpa using h
      exact hij
    · exact ih h

theorem pairwise (r : Route next i j p) : p.Pairwise (Relation.TransGen next) := by
  induction r with
  | here i => exact List.pairwise_singleton ..
  | step h r ih => exact .cons (fun k hk => .head' h (r.reflTransGen_of_mem hk)) ih

theorem nodup (hacyclic : ∀ i, ¬ Relation.TransGen next i i) (r : Route next i j p) : p.Nodup := by
  refine r.pairwise.imp ?_
  rintro a b hab rfl
  exact hacyclic a hab

end Route

namespace Graph

variable {g : Graph} {s t i j : Nat}

def Joins (g : Graph) (i j : Nat) : Prop :=
  (i, j) ∈ g.edges.map Edge.ends

def Touched (g : Graph) (i : Nat) : Prop :=
  ∃ j, g.Joins i j ∨ g.Joins j i

theorem touches_iff : g.touches i = true ↔ g.Touched i := by
  simp only [touches, List.any_eq_true, Bool.or_eq_true, decide_eq_true_eq, Touched, Joins,
    List.mem_map, Edge.ends, Prod.mk.injEq]
  constructor
  · rintro ⟨e, he, h | h⟩
    · exact ⟨e.target, .inl ⟨e, he, h, rfl⟩⟩
    · exact ⟨e.source, .inr ⟨e, he, rfl, h⟩⟩
  · rintro ⟨j, ⟨e, he, h, -⟩ | ⟨e, he, -, h⟩⟩
    · exact ⟨e, he, .inl h⟩
    · exact ⟨e, he, .inr h⟩

theorem mem_successors_iff : j ∈ g.successors i ↔ g.Joins i j :=
  mem_successors

theorem map_successors (g : Graph) (i : Nat) :
    (g.successors i).map (i, ·) = (g.edges.map Edge.ends).filter (·.1 = i) := by
  rw [successors, List.map_map, List.filter_map]
  refine List.map_congr_left fun e he => ?_
  obtain ⟨-, hi⟩ := List.mem_filter.mp he
  rw [Function.comp_apply, Edge.ends, of_decide_eq_true hi]

theorem joins_of_mem_edges {e : Edge} (he : e ∈ g.edges) : g.Joins e.source e.target :=
  List.mem_map_of_mem he

theorem joins_ofEdges {tokens : List Token} {es : List Edge} :
    (ofEdges tokens es).Joins i j ↔ (i, j) ∈ es.map Edge.ends :=
  mem_ends_mergeEdges

def paths (g : Graph) : Language Nat :=
  {p | Route g.Joins g.source g.sink p}

theorem mem_paths {p : List Nat} : p ∈ g.paths ↔ Route g.Joins g.source g.sink p :=
  Iff.rfl

structure Spans (g : Graph) (s t : Nat) : Prop where
  ranked : ∃ rank : Nat → Nat, ∀ i j, g.Joins i j → rank i < rank j
  within : ∀ i j, g.Joins i j → i < g.tokens.length ∧ j < g.tokens.length
  entered : ∀ i, g.Touched i → i ≠ s → ∃ h, g.Joins h i
  exited : ∀ i, g.Touched i → i ≠ t → ∃ j, g.Joins i j
  not_entered : ∀ i, ¬ g.Joins i s
  not_exited : ∀ j, ¬ g.Joins t j
  touched : g.Touched s

end Graph

theorem Route.touched_of_mem {g : Graph} {i j k : Nat} {p : List Nat} (r : Route g.Joins i j p)
    (hi : g.Touched i) (hk : k ∈ p) : g.Touched k := by
  induction r with
  | here i =>
    rcases List.mem_singleton.mp hk with rfl
    exact hi
  | @step i j _ p h r ih =>
    rcases List.mem_cons.mp hk with rfl | hk
    · exact ⟨j, .inl h⟩
    · exact ih ⟨i, .inr h⟩ hk

/-- The nodes of a route but its last are the sources of as many edges. -/
theorem Route.length_le {g : Graph} (hacyclic : ∀ i, ¬ Relation.TransGen g.Joins i i) {i j : Nat}
    {p : List Nat} (r : Route g.Joins i j p) : p.length ≤ g.edges.length + 1 := by
  have hsub : ∀ {i j : Nat} {p : List Nat}, Route g.Joins i j p →
      p.dropLast ⊆ g.edges.map Edge.source := by
    intro i j p r
    induction r with
    | here i => simp
    | @step i j k p h r ih =>
      cases p with
      | nil => cases r
      | cons b p =>
        rw [List.dropLast_cons_cons]
        refine List.cons_subset.mpr ⟨?_, ih⟩
        obtain ⟨e, he, hends⟩ := List.mem_map.mp h
        exact List.mem_map.mpr ⟨e, he, congrArg Prod.fst hends⟩
  have hlen := (((r.nodup hacyclic).sublist p.dropLast_sublist).subperm (hsub r)).length_le
  rw [List.length_dropLast, List.length_map] at hlen
  omega

theorem Graph.acyclic_of_rank {g : Graph} {rank : Nat → Nat}
    (hrank : ∀ i j, g.Joins i j → rank i < rank j) (i : Nat) :
    ¬ Relation.TransGen g.Joins i i := by
  have hrises : ∀ j, Relation.TransGen g.Joins i j → rank i < rank j := by
    intro j hij
    induction hij with
    | single hij => exact hrank i _ hij
    | tail _ hjk ih => exact ih.trans (hrank _ _ hjk)
  exact fun hii => lt_irrefl _ (hrises i hii)

namespace Graph.Spans

variable {g : Graph} {s t i j : Nat}

theorem acyclic (h : g.Spans s t) (i : Nat) : ¬ Relation.TransGen g.Joins i i := by
  obtain ⟨rank, hrank⟩ := h.ranked
  exact acyclic_of_rank hrank i

theorem not_joins_self (h : g.Spans s t) (i : Nat) : ¬ g.Joins i i :=
  fun hi => h.acyclic i (.single hi)

theorem exists_exit (h : g.Spans s t) : ∃ j, g.Joins s j := by
  obtain ⟨j, hj | hj⟩ := h.touched
  · exact ⟨j, hj⟩
  · exact absurd hj (h.not_entered j)

theorem ne (h : g.Spans s t) : s ≠ t := by
  rintro rfl
  obtain ⟨j, hj⟩ := h.exists_exit
  exact h.not_exited j hj

theorem lt_of_touched (h : g.Spans s t) (hi : g.Touched i) : i < g.tokens.length := by
  obtain ⟨j, hj | hj⟩ := hi
  · exact (h.within _ _ hj).1
  · exact (h.within _ _ hj).2

theorem exists_route_from (h : g.Spans s t) (hi : g.Touched i) : ∃ p, Route g.Joins s i p := by
  obtain ⟨rank, hrank⟩ := h.ranked
  -- The rank falls with every step back.
  induction hn : rank i using Nat.strongRecOn generalizing i with
  | ind n ih =>
    by_cases his : i = s
    · exact ⟨[s], his ▸ .here i⟩
    · obtain ⟨k, hk⟩ := h.entered i hi his
      obtain ⟨p, r⟩ := ih (rank k) (hn ▸ hrank _ _ hk) ⟨i, .inl hk⟩ rfl
      exact ⟨p ++ [i], r.snoc hk⟩

theorem exists_rank_bound (h : g.Spans s t) (rank : Nat → Nat) :
    ∃ b, ∀ i, g.Touched i → rank i < b := by
  refine ⟨(Finset.range g.tokens.length).sup rank + 1, fun i hi => ?_⟩
  exact Nat.lt_succ_of_le (Finset.le_sup (Finset.mem_range.mpr (h.lt_of_touched hi)))

theorem exists_route_to (h : g.Spans s t) (hi : g.Touched i) : ∃ p, Route g.Joins i t p := by
  obtain ⟨rank, hrank⟩ := h.ranked
  obtain ⟨b, hb⟩ := h.exists_rank_bound rank
  -- The rank grows with every step and stays below a bound.
  induction hn : b - rank i using Nat.strongRecOn generalizing i with
  | ind n ih =>
    by_cases hit : i = t
    · exact ⟨[t], hit ▸ .here i⟩
    · obtain ⟨j, hj⟩ := h.exited i hi hit
      have htouched : g.Touched j := ⟨i, .inr hj⟩
      have hlt := hrank _ _ hj
      have hbound := hb j htouched
      obtain ⟨p, r⟩ := ih (b - rank j) (by omega) htouched rfl
      exact ⟨i :: p, .step hj r⟩

theorem sink_touched (h : g.Spans s t) : g.Touched t := by
  obtain ⟨p, r⟩ := h.exists_route_to h.touched
  exact r.touched_of_mem h.touched (List.mem_of_getLast? r.last_eq)

theorem isEmpty_eq_false (h : g.Spans s t) : g.isEmpty = false := by
  obtain ⟨j, hj⟩ := h.exists_exit
  rw [isEmpty, List.isEmpty_eq_false_iff]
  rintro hnil
  simp [Joins, hnil] at hj

theorem tokens_ne_nil (h : g.Spans s t) : g.tokens ≠ [] := by
  have hlt := h.lt_of_touched h.touched
  exact List.ne_nil_of_length_pos (by omega)

end Graph.Spans

theorem mem_sortedEnds {es : List Edge} {x : Nat × Nat} :
    x ∈ sortedEnds es ↔ x ∈ es.map Edge.ends :=
  (sortedEnds_perm es).mem_iff

theorem pairwise_sortedEnds (es : List Edge) :
    (sortedEnds es).Pairwise fun x y => (!endsBefore y x) = true := by
  apply List.pairwise_mergeSort
  · intro a b c hab hbc
    simp only [endsBefore, Bool.not_eq_true', Bool.or_eq_false_iff, Bool.and_eq_false_iff,
      decide_eq_false_iff_not] at *
    omega
  · intro a b
    simp only [endsBefore, Bool.or_eq_true, Bool.not_eq_true', Bool.or_eq_false_iff,
      Bool.and_eq_false_iff, decide_eq_false_iff_not]
    omega

theorem exists_find?_sortedEnds {es : List Edge} {p : Nat × Nat → Bool} {y : Nat × Nat}
    (hy : y ∈ es.map Edge.ends) (hp : p y = true) :
    ∃ x ∈ es.map Edge.ends, (sortedEnds es).find? p = some x ∧ p x = true ∧ x.1 ≤ y.1 := by
  have hsome : ((sortedEnds es).find? p).isSome = true :=
    List.find?_isSome.mpr ⟨y, mem_sortedEnds.mpr hy, hp⟩
  obtain ⟨x, hx⟩ := Option.isSome_iff_exists.mp hsome
  obtain ⟨hpx, before, after, hsplit, hbefore⟩ := List.find?_eq_some_iff_append.mp hx
  refine ⟨x, mem_sortedEnds.mp (List.mem_of_find?_eq_some hx), hx, hpx, ?_⟩
  have hmem : y ∈ before ++ x :: after := hsplit ▸ mem_sortedEnds.mpr hy
  rcases List.mem_append.mp hmem with hy | hy
  · have hnot := hbefore y hy
    rw [hp] at hnot
    cases hnot
  · rcases List.mem_cons.mp hy with rfl | hy
    · exact Nat.le_refl _
    · have hsorted : (before ++ x :: after).Pairwise fun x y => (!endsBefore y x) = true :=
        hsplit ▸ pairwise_sortedEnds es
      have hxy := (List.pairwise_cons.mp (List.pairwise_append.mp hsorted).2.1).1 y hy
      simp only [endsBefore, Bool.not_eq_true', Bool.or_eq_false_iff,
        decide_eq_false_iff_not] at hxy
      omega

namespace Graph

variable {g : Graph} {s t i j : Nat}

theorem mem_targets : i ∈ g.edges.map Edge.target ↔ ∃ h, g.Joins h i := by
  simp only [Joins, List.mem_map, Edge.ends, Prod.mk.injEq]
  constructor
  · rintro ⟨e, he, h⟩
    exact ⟨e.source, e, he, rfl, h⟩
  · rintro ⟨h, e, he, -, hi⟩
    exact ⟨e, he, hi⟩

theorem mem_sources : i ∈ g.edges.map Edge.source ↔ ∃ j, g.Joins i j := by
  simp only [Joins, List.mem_map, Edge.ends, Prod.mk.injEq]
  constructor
  · rintro ⟨e, he, h⟩
    exact ⟨e.target, e, he, h, rfl⟩
  · rintro ⟨j, e, he, hi, -⟩
    exact ⟨e, he, hi⟩

theorem source_first (hsj : g.Joins s j) (hs : ∀ i, ¬ g.Joins i s) :
    (∃ k, g.Joins g.source k) ∧ (∀ i, ¬ g.Joins i g.source) ∧ g.source ≤ s := by
  have hp : (!(g.edges.map Edge.target).contains s) = true := by
    have hs' : s ∉ g.edges.map Edge.target := fun hmem =>
      (mem_targets.mp hmem).elim hs
    simpa using hs'
  obtain ⟨x, hx, hfound, hpx, hle⟩ := exists_find?_sortedEnds
    (p := fun x => !(g.edges.map Edge.target).contains x.1) hsj hp
  have hsource : g.source = x.1 := by rw [source, hfound]; rfl
  rw [hsource]
  refine ⟨⟨x.2, hx⟩, fun i hi => ?_, hle⟩
  have hnot : x.1 ∉ g.edges.map Edge.target := by simpa using hpx
  exact hnot (mem_targets.mpr ⟨i, hi⟩)

theorem sink_first (hit : g.Joins i t) (ht : ∀ j, ¬ g.Joins t j) :
    ∃ h ≤ i, g.Joins h g.sink ∧ ∀ j, ¬ g.Joins g.sink j := by
  have hp : (!(g.edges.map Edge.source).contains t) = true := by
    have ht' : t ∉ g.edges.map Edge.source := fun hmem =>
      (mem_sources.mp hmem).elim ht
    simpa using ht'
  obtain ⟨x, hx, hfound, hpx, hle⟩ := exists_find?_sortedEnds
    (p := fun x => !(g.edges.map Edge.source).contains x.2) hit hp
  have hsink : g.sink = x.2 := by rw [sink, hfound]; rfl
  rw [hsink]
  refine ⟨x.1, hle, hx, fun j hj => ?_⟩
  have hnot : x.2 ∉ g.edges.map Edge.source := by simpa using hpx
  exact hnot (mem_sources.mpr ⟨j, hj⟩)

theorem Spans.source_eq (h : g.Spans s t) : g.source = s := by
  obtain ⟨j, hj⟩ := h.exists_exit
  obtain ⟨⟨k, hk⟩, hnone, -⟩ := source_first hj h.not_entered
  by_contra hne
  obtain ⟨i, hi⟩ := h.entered g.source ⟨k, .inl hk⟩ hne
  exact hnone i hi

theorem Spans.exists_entry (h : g.Spans s t) : ∃ i, g.Joins i t := by
  obtain ⟨j, hj | hj⟩ := h.sink_touched
  · exact absurd hj (h.not_exited j)
  · exact ⟨j, hj⟩

theorem Spans.sink_eq (h : g.Spans s t) : g.sink = t := by
  obtain ⟨i, hi⟩ := h.exists_entry
  obtain ⟨k, -, hk, hnone⟩ := sink_first hi h.not_exited
  by_contra hne
  obtain ⟨j, hj⟩ := h.exited g.sink ⟨k, .inr hk⟩ hne
  exact hnone j hj

theorem Spans.mem_paths (h : g.Spans s t) {p : List Nat} :
    p ∈ g.paths ↔ Route g.Joins s t p := by
  rw [Graph.mem_paths, h.source_eq, h.sink_eq]

theorem Spans.exists_path (h : g.Spans s t) (hi : g.Touched i) : ∃ p ∈ g.paths, i ∈ p := by
  obtain ⟨p, r⟩ := h.exists_route_from hi
  obtain ⟨q, r'⟩ := h.exists_route_to hi
  obtain ⟨q, rfl⟩ := r'.exists_tail
  refine ⟨p ++ q, h.mem_paths.mpr (r.trans r'), List.mem_append_left _ ?_⟩
  exact List.mem_of_getLast? r.last_eq

theorem Spans.touched_of_mem (h : g.Spans s t) {p : List Nat} (hp : p ∈ g.paths) (hi : i ∈ p) :
    g.Touched i :=
  (h.mem_paths.mp hp).touched_of_mem h.touched hi

end Graph

end SpokenGrammar
