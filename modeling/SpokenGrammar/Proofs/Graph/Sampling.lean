import SpokenGrammar.Proofs.Graph.Bipolar
import SpokenGrammar.Proofs.Graph.Derived
import SpokenGrammar.Proofs.Graph.Enumeration
import SpokenGrammar.Proofs.Graph.RandomWalk

namespace SpokenGrammar

namespace Graph

variable {g : Graph} {i j : Nat} {p : List Nat}

theorem Admits.exists_edge (h : g.Admits i j) (hfork : 2 ≤ (g.successors i).length) :
    ∃ e ∈ g.edges, e.ends = (i, j) ∧ e.value.isFinite = true ∧ 0 < e.value := by
  obtain ⟨e, he, hends⟩ := List.mem_map.mp h.1
  obtain ⟨rfl, rfl⟩ := Prod.mk.inj hends
  have husable := h.2 hfork
  rw [weight_of_mem he] at husable
  exact ⟨e, he, rfl, isUsable_iff.mp husable⟩

theorem Bars.not_usable (h : g.Bars i) {e : Edge} (he : e ∈ g.edges) (hi : e.source = i) :
    ¬ (e.value.isFinite = true ∧ 0 < e.value) := by
  subst hi
  have hnone := h.2 e.target (joins_of_mem_edges he)
  rw [weight_of_mem he] at hnone
  rw [← isUsable_iff, hnone]
  exact Bool.false_ne_true

theorem randomPath_sound (h : g.Bipolar) (supply : Supply) :
    (∃ p rest, g.randomPath.run supply = (.ok p, rest) ∧
      (∃ ps, g.allPaths none = .ok ps ∧ p ∈ ps) ∧
      ∀ i j, [i, j] <:+: p → 2 ≤ (g.successors i).length →
        ∃ e ∈ g.edges, e.ends = (i, j) ∧ e.value.isFinite = true ∧ 0 < e.value) ∨
    ∃ p i rest, g.randomPath.run supply = (.error .zeroWeights, rest) ∧
      g.Drawn supply p i rest ∧ 2 ≤ (g.successors i).length ∧
      ∀ e ∈ g.edges, e.source = i → ¬ (e.value.isFinite = true ∧ 0 < e.value) := by
  rcases h.spans.run_randomPath supply with ⟨p, rest, hrun, hd⟩ | ⟨p, i, rest, hrun, hd, hbars⟩
  · have r := h.spans.route_of_drawn hd
    obtain ⟨ps, hps, -, hmem⟩ := h.spans.exists_allPaths
    refine .inl ⟨p ++ [g.sink], rest, hrun, ⟨ps, hps, (hmem _).mpr (route_of_admits r)⟩, ?_⟩
    exact fun i j hij hfork => (r.next_of_infix hij).exists_edge hfork
  · exact .inr ⟨p, i, rest, hrun, hd, hbars.1, fun e he => hbars.not_usable he⟩

theorem randomPath_sound_of_forked :
    let supply : Supply := [191, 255, 255, 255]
    forked.Bipolar ∧
    ((∃ p rest, forked.randomPath.run supply = (.ok p, rest) ∧
      (∃ ps, forked.allPaths none = .ok ps ∧ p ∈ ps) ∧
      ∀ i j, [i, j] <:+: p → 2 ≤ (forked.successors i).length →
        ∃ e ∈ forked.edges, e.ends = (i, j) ∧ e.value.isFinite = true ∧ 0 < e.value) ∨
    ∃ p i rest, forked.randomPath.run supply = (.error .zeroWeights, rest) ∧
      forked.Drawn supply p i rest ∧ 2 ≤ (forked.successors i).length ∧
      ∀ e ∈ forked.edges, e.source = i → ¬ (e.value.isFinite = true ∧ 0 < e.value)) ∧
    (forked.randomPath.run supply).1.toOption = some [0, 1, 2, 5, 6, 7] := by
  intro supply
  refine ⟨bipolar_forked, randomPath_sound bipolar_forked supply, ?_⟩
  unfold randomPath
  rw [source_forked, sink_forked]
  decide +kernel

end Graph

end SpokenGrammar
