import Mathlib.Data.Finset.Card
import SpokenGrammar.Proofs.Graph.Route

namespace SpokenGrammar

namespace Graph

variable {g : Graph} {s t i : Nat}

structure Bipolar (g : Graph) : Prop where
  acyclic : ∀ i, ¬ Relation.TransGen g.Joins i i
  within : ∀ e ∈ g.edges, e.source < g.tokens.length ∧ e.target < g.tokens.length
  unentered : ∃! i, g.Touched i ∧ ∀ h, ¬ g.Joins h i
  unexited : ∃! i, g.Touched i ∧ ∀ j, ¬ g.Joins i j

/-- A node ranks by how many nodes lead to it. -/
theorem exists_rank (hacyclic : ∀ i, ¬ Relation.TransGen g.Joins i i) :
    ∃ rank : Nat → Nat, ∀ i j, g.Joins i j → rank i < rank j := by
  classical
  let before (i : Nat) : Finset Nat :=
    (g.edges.map Edge.source).toFinset.filter fun h => Relation.TransGen g.Joins h i
  refine ⟨fun i => (before i).card, fun i j hij => Finset.card_lt_card ?_⟩
  have hsubset : before i ⊆ before j := by
    intro h hh
    obtain ⟨hsource, hhi⟩ := Finset.mem_filter.mp hh
    exact Finset.mem_filter.mpr ⟨hsource, hhi.tail hij⟩
  have hmem : i ∈ before j :=
    Finset.mem_filter.mpr ⟨List.mem_toFinset.mpr (mem_sources.mpr ⟨j, hij⟩), .single hij⟩
  have hnot : i ∉ before i := fun hi => hacyclic i (Finset.mem_filter.mp hi).2
  exact (Finset.ssubset_iff_of_subset hsubset).mpr ⟨i, hmem, hnot⟩

theorem exists_unentered (hacyclic : ∀ i, ¬ Relation.TransGen g.Joins i i)
    (hedges : g.edges ≠ []) : ∃ s j, g.Joins s j ∧ ∀ i, ¬ g.Joins i s := by
  obtain ⟨rank, hrank⟩ := exists_rank hacyclic
  obtain ⟨e, he⟩ := List.exists_mem_of_ne_nil _ hedges
  have hjoins := joins_of_mem_edges he
  generalize e.source = i, e.target = j at hjoins
  -- The rank falls with every step back.
  induction hn : rank i using Nat.strongRecOn generalizing i j with
  | ind n ih =>
    by_cases hentered : ∃ h, g.Joins h i
    · obtain ⟨h, hh⟩ := hentered
      exact ih (rank h) (hn ▸ hrank _ _ hh) h i hh rfl
    · exact ⟨i, j, hjoins, fun h hh => hentered ⟨h, hh⟩⟩

theorem unentered_iff : (g.Touched i ∧ ∀ h, ¬ g.Joins h i) ↔
    i ∈ g.edges.map Edge.source ∧ i ∉ g.edges.map Edge.target := by
  rw [mem_sources, mem_targets, not_exists]
  refine and_congr_left fun hnone => ⟨fun ⟨j, hj⟩ => ?_, fun ⟨j, hj⟩ => ⟨j, .inl hj⟩⟩
  exact ⟨j, hj.resolve_right (hnone j)⟩

theorem unexited_iff : (g.Touched i ∧ ∀ j, ¬ g.Joins i j) ↔
    i ∈ g.edges.map Edge.target ∧ i ∉ g.edges.map Edge.source := by
  rw [mem_sources, mem_targets, not_exists]
  refine and_congr_left fun hnone => ⟨fun ⟨j, hj⟩ => ?_, fun ⟨j, hj⟩ => ⟨j, .inr hj⟩⟩
  exact ⟨j, hj.resolve_left (hnone j)⟩

theorem Bipolar.spans (h : g.Bipolar) : g.Spans g.source g.sink := by
  obtain ⟨s, ⟨hs, hnone⟩, hsource⟩ := h.unentered
  obtain ⟨t, ⟨-, hnone'⟩, hsink⟩ := h.unexited
  have hspan : g.Spans s t := by
    constructor
    · exact exists_rank h.acyclic
    · intro i j hij
      obtain ⟨e, he, hends⟩ := List.mem_map.mp hij
      obtain ⟨rfl, rfl⟩ := Prod.mk.inj hends
      exact h.within e he
    · intro i hi his
      by_contra hentered
      exact his (hsource i ⟨hi, fun h hh => hentered ⟨h, hh⟩⟩)
    · intro i hi hit
      by_contra hexited
      exact hit (hsink i ⟨hi, fun j hj => hexited ⟨j, hj⟩⟩)
    · exact hnone
    · exact hnone'
    · exact hs
  rwa [hspan.source_eq, hspan.sink_eq]

theorem Spans.bipolar (h : g.Spans s t) : g.Bipolar where
  acyclic := by
    obtain ⟨rank, hrank⟩ := h.ranked
    exact acyclic_of_rank hrank
  within := fun e he => h.within _ _ (joins_of_mem_edges he)
  unentered := by
    refine ⟨s, ⟨h.touched, h.not_entered⟩, fun i ⟨hi, hnone⟩ => ?_⟩
    by_contra his
    obtain ⟨k, hk⟩ := h.entered i hi his
    exact hnone k hk
  unexited := by
    refine ⟨t, ⟨h.sink_touched, h.not_exited⟩, fun i ⟨hi, hnone⟩ => ?_⟩
    by_contra hit
    obtain ⟨k, hk⟩ := h.exited i hi hit
    exact hnone k hk

theorem Bipolar.source_eq (h : g.Bipolar) (hi : g.Touched i) (hnone : ∀ h, ¬ g.Joins h i) :
    g.source = i :=
  h.unentered.unique ⟨h.spans.touched, h.spans.not_entered⟩ ⟨hi, hnone⟩

theorem Bipolar.sink_eq (h : g.Bipolar) (hi : g.Touched i) (hnone : ∀ j, ¬ g.Joins i j) :
    g.sink = i :=
  h.unexited.unique ⟨h.spans.sink_touched, h.spans.not_exited⟩ ⟨hi, hnone⟩

def forked : Graph where
  tokens := [.start, .mark .openGroup, .text "a" none, .mark .alternative, .text "b" none,
    .mark .closeGroup, .mark .terminator, .finish]
  edges := [⟨0, 1, none⟩, ⟨1, 2, some 3⟩, ⟨1, 4, none⟩, ⟨2, 5, none⟩, ⟨4, 5, none⟩, ⟨5, 6, none⟩,
    ⟨6, 7, none⟩]
  distinct := by simp [Distinct, Edge.ends]

theorem joins_forked {i j : Nat} : forked.Joins i j ↔
    (i, j) ∈ [(0, 1), (1, 2), (1, 4), (2, 5), (4, 5), (5, 6), (6, 7)] :=
  Iff.rfl

theorem bipolar_forked : forked.Bipolar where
  acyclic := by
    have hrising : ∀ i j, forked.Joins i j → id i < id j := by
      intro i j hij
      simp only [joins_forked, List.mem_cons, Prod.mk.injEq, List.not_mem_nil, or_false] at hij
      change i < j
      omega
    exact acyclic_of_rank hrising
  within := by simp [forked]
  unentered := by
    refine ⟨0, unentered_iff.mpr (by simp [forked]), fun i hi => ?_⟩
    have hi := unentered_iff.mp hi
    simp [forked] at hi
    omega
  unexited := by
    refine ⟨7, unexited_iff.mpr (by simp [forked]), fun i hi => ?_⟩
    have hi := unexited_iff.mp hi
    simp [forked] at hi
    omega

theorem source_forked : forked.source = 0 := by
  obtain ⟨htouched, hnone⟩ :=
    (unentered_iff (g := forked) (i := 0)).mpr ⟨by decide, by decide⟩
  exact bipolar_forked.source_eq htouched hnone

theorem sink_forked : forked.sink = 7 := by
  obtain ⟨htouched, hnone⟩ :=
    (unexited_iff (g := forked) (i := 7)).mpr ⟨by decide, by decide⟩
  exact bipolar_forked.sink_eq htouched hnone

theorem mem_paths_forked :
    [0, 1, 2, 5, 6, 7] ∈ forked.paths ∧ [0, 1, 4, 5, 6, 7] ∈ forked.paths := by
  have hend : Route forked.Joins 5 7 [5, 6, 7] :=
    .step (by simp [joins_forked]) (.step (by simp [joins_forked]) (.here 7))
  rw [mem_paths, mem_paths, source_forked, sink_forked]
  constructor
  · exact .step (by simp [joins_forked]) (.step (by simp [joins_forked])
      (.step (by simp [joins_forked]) hend))
  · exact .step (by simp [joins_forked]) (.step (by simp [joins_forked])
      (.step (by simp [joins_forked]) hend))

end Graph

end SpokenGrammar
