import SpokenGrammar.Proofs.Graph.Bipolar
import SpokenGrammar.Proofs.Graph.Elide
import SpokenGrammar.Proofs.Rule.Sentences

namespace SpokenGrammar

namespace Graph

variable {g : Graph} {s t : Nat}

theorem spell_cons (g : Graph) (i : Nat) (p : List Nat) :
    g.spell (i :: p) = g.spell [i] ++ g.spell p := by
  rw [spell, spell, spell, List.flatMap_cons, List.flatMap_singleton]

theorem spell_of_not_spared {i : Nat} (hi : g.spared i = false) : g.spell [i] = [] := by
  simp only [spared, Bool.or_eq_false_iff, Bool.not_eq_false', Option.any_eq_true] at hi
  obtain ⟨-, a, ha, hstructural⟩ := hi
  simp [spell, ha, Token.spelling_of_isStructural hstructural]

theorem spell_filter (g : Graph) (p : List Nat) : g.spell (p.filter g.spared) = g.spell p := by
  induction p with
  | nil => rfl
  | cons i p ih =>
    cases hi : g.spared i with
    | false =>
      rw [List.filter_cons_of_neg (by simp [hi]), ih, g.spell_cons i, spell_of_not_spared hi,
        List.nil_append]
    | true => rw [List.filter_cons_of_pos hi, g.spell_cons, ih, ← g.spell_cons]

theorem spell_elide (g : Graph) (p : List Nat) : g.elide.spell p = g.spell p := by
  rw [spell, spell, tokens_elide]

theorem Spans.spells_elide_iff (h : g.Spans s t) (P : List Char → Prop) :
    (∃ p ∈ g.elide.paths, P (g.elide.spell p)) ↔ ∃ p ∈ g.paths, P (g.spell p) := by
  simp only [h.mem_paths_elide_iff, spell_elide]
  constructor
  · rintro ⟨_, ⟨p, hp, rfl⟩, hP⟩
    exact ⟨p, hp, by rwa [← g.spell_filter p]⟩
  · rintro ⟨p, hp, hP⟩
    exact ⟨_, ⟨p, hp, rfl⟩, by rwa [g.spell_filter p]⟩

theorem elide_keeps_paths (hg : g.Bipolar) :
    g.elide.tokens = g.tokens ∧ g.elide.source = g.source ∧ g.elide.sink = g.sink ∧
    (∀ i, g.elide.Touched i → ∀ a, g.tokens[i]? = some a → a.isStructural = true →
      i = g.source ∨ i = g.sink) ∧
    (∀ p, p ∈ g.elide.paths ↔ ∃ q ∈ g.paths, p = q.filter g.spared) ∧
    ∀ r : Rule, r.graph = g → ∀ s : String,
      (∃ p ∈ r.elide.graph.paths, r.elide.record p = s) ↔ ∃ p ∈ g.paths, r.record p = s := by
  have hspan := hg.spans
  refine ⟨tokens_elide g, hspan.elide.source_eq, hspan.elide.sink_eq, ?_,
    fun p => hspan.mem_paths_elide_iff, ?_⟩
  · intro i hi a ha hstructural
    have hspared := hspan.reduced_elide i hi
    rw [hspan.spared_elide, spared, ha, Option.any_some, hstructural] at hspared
    simpa using hspared
  · rintro r rfl s
    simp only [Rule.record_eq]
    exact hspan.spells_elide_iff (String.ofList · = s)

theorem spared_forked : forked.spared = fun i =>
    i = 0 || i = 7 || !(forked.tokens[i]?).any Token.isStructural := by
  funext i
  rw [spared, source_forked, sink_forked]

theorem elide_keeps_paths_of_forked :
    forked.elide.source = 0 ∧ forked.elide.sink = 7 ∧ ¬ forked.elide.Touched 5 ∧
    [0, 2, 7] ∈ forked.elide.paths ∧ [0, 4, 7] ∈ forked.elide.paths := by
  obtain ⟨-, hsource, hsink, htouched, hpaths, -⟩ := elide_keeps_paths bipolar_forked
  rw [source_forked] at hsource htouched
  rw [sink_forked] at hsink htouched
  refine ⟨hsource, hsink, fun h => ?_, (hpaths _).mpr ⟨_, mem_paths_forked.1, ?_⟩,
    (hpaths _).mpr ⟨_, mem_paths_forked.2, ?_⟩⟩
  · have hend := htouched 5 h (.mark .closeGroup) rfl rfl
    omega
  · rw [spared_forked]
    rfl
  · rw [spared_forked]
    rfl

theorem elide_idempotent (hg : g.Bipolar) :
    g.elide.elide.tokens = g.elide.tokens ∧ g.elide.elide.edges = g.elide.edges ∧
    (∀ i, g.elide.elide.successors i = g.elide.successors i) ∧
    ∀ i j, g.elide.elide.weight i j = g.elide.weight i j := by
  have hsame := hg.spans.elide_elide
  exact ⟨by rw [hsame], by rw [hsame], fun i => by rw [hsame], fun i j => by rw [hsame]⟩

theorem elide_idempotent_of_forked :
    forked.elide.elide.edges = forked.elide.edges ∧
    forked.elide.elide.edges.map Edge.ends = [(0, 2), (0, 4), (2, 7), (4, 7)] ∧
    forked.elide.elide.successors 0 = [2, 4] := by
  obtain ⟨-, hedges, hsuccessors, -⟩ := elide_idempotent bipolar_forked
  have hinner : forked.inner = [1, 5, 6] := by
    rw [inner, source_forked, sink_forked]
    rfl
  rw [hedges, hsuccessors, elide, hinner]
  exact ⟨rfl, rfl, rfl⟩

end Graph

end SpokenGrammar
