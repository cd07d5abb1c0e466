import SpokenGrammar.Graph.RandomWalk
import SpokenGrammar.Proofs.Chance.Choice
import SpokenGrammar.Proofs.Graph.Route

namespace SpokenGrammar

namespace Graph

variable {g : Graph} {s t i j : Nat} {p : List Nat} {supply rest : Supply}

def Admits (g : Graph) (i j : Nat) : Prop :=
  g.Joins i j ∧ (2 ≤ (g.successors i).length → isUsable (g.weight i j) = true)

def Bars (g : Graph) (i : Nat) : Prop :=
  2 ≤ (g.successors i).length ∧ ∀ j, g.Joins i j → isUsable (g.weight i j) = false

/-- The walk drawn from a supply has passed `p` and is at `i`, and `rest` is left of the supply. -/
inductive Drawn (g : Graph) (supply : Supply) : List Nat → Nat → Supply → Prop where
  | source : Drawn g supply [] g.source supply
  | step {p : List Nat} {i j : Nat} {rest rest' : Supply} :
      Drawn g supply p i rest → i ≠ g.sink → (g.randomStep i).run rest = (.ok j, rest') →
      Drawn g supply (p ++ [i]) j rest'

theorem randomStep_fork (hfork : 2 ≤ (g.successors i).length) :
    g.randomStep i = choose (g.successors i) ((g.successors i).map (g.weight i)) := by
  unfold randomStep
  split
  · rename_i hnil
    simp [hnil] at hfork
  · rename_i only hsingle
    simp [hsingle] at hfork
  · rfl

theorem randomStep_single (hj : g.Joins i j) (hsingle : ¬ 2 ≤ (g.successors i).length) :
    g.randomStep i = pure j := by
  have hmem := mem_successors_iff.mpr hj
  have hlen := List.length_pos_of_mem hmem
  obtain ⟨only, honly⟩ := List.length_eq_one_iff.mp (show (g.successors i).length = 1 by omega)
  obtain rfl : j = only := by simpa [honly] using hmem
  unfold randomStep
  rw [honly]

theorem run_randomStep (hj : g.Joins i j) (supply : Supply) :
    (∃ k rest, g.Admits i k ∧ (g.randomStep i).run supply = (.ok k, rest)) ∨
      g.Bars i ∧ (g.randomStep i).run supply = (.error .zeroWeights, supply) := by
  have hmem := mem_successors_iff.mpr hj
  by_cases hfork : 2 ≤ (g.successors i).length
  · have hlen : (g.successors i).length = ((g.successors i).map (g.weight i)).length := by simp
    rw [randomStep_fork hfork]
    by_cases hsome : ∃ w ∈ (g.successors i).map (g.weight i), isUsable w = true
    · obtain ⟨k, w, hkw, husable, hrun⟩ := run_choose_usable hlen hsome supply
      rw [← List.map_prod_left_eq_zip] at hkw
      obtain ⟨k, hk, hkw⟩ := List.mem_map.mp hkw
      obtain ⟨rfl, rfl⟩ := Prod.mk.inj hkw
      exact .inl ⟨k, _, ⟨mem_successors_iff.mp hk, fun _ => husable⟩, hrun⟩
    · have hnone : ∀ w ∈ (g.successors i).map (g.weight i), isUsable w = false := by
        simpa using hsome
      refine .inr ⟨⟨hfork, fun k hk => ?_⟩,
        run_choose_unusable hlen (List.ne_nil_of_mem hmem) hnone supply⟩
      exact hnone _ (List.mem_map_of_mem (mem_successors_iff.mpr hk))
  · refine .inl ⟨j, supply, ⟨hj, fun h => absurd h hfork⟩, ?_⟩
    rw [randomStep_single hj hfork]
    rfl

theorem admits_of_run {rest' : Supply} (hj : g.Joins i j) {k : Nat}
    (hrun : (g.randomStep i).run rest = (.ok k, rest')) : g.Admits i k := by
  rcases run_randomStep hj rest with ⟨l, rest'', hadmits, hrun'⟩ | ⟨-, hrun'⟩
  · cases hrun.symm.trans hrun'
    exact hadmits
  · cases hrun.symm.trans hrun'

theorem route_of_admits (r : Route g.Admits i j p) : Route g.Joins i j p :=
  r.mono fun _ _ hadmits => hadmits.1

namespace Spans

variable (h : g.Spans g.source g.sink)
include h

theorem exists_joins_of_route (r : Route g.Joins g.source i p) (hsink : i ≠ g.sink) :
    ∃ j, g.Joins i j :=
  h.exited i (r.touched_of_mem h.touched (List.mem_of_getLast? r.last_eq)) hsink

theorem route_of_drawn (hd : g.Drawn supply p i rest) : Route g.Admits g.source i (p ++ [i]) := by
  induction hd with
  | source => exact .here _
  | step _ hsink hrun ih =>
    obtain ⟨k, hk⟩ := h.exists_joins_of_route (route_of_admits ih) hsink
    exact ih.snoc (admits_of_run hk hrun)

theorem run_randomWalk {fuel : Nat} (hd : g.Drawn supply p i rest)
    (hfuel : g.edges.length ≤ fuel + p.length) :
    (∃ q rest', (g.randomWalk g.sink fuel i).run rest = (.ok q, rest') ∧
      ∃ p', p ++ i :: q = p' ++ [g.sink] ∧ g.Drawn supply p' g.sink rest') ∨
    ∃ p' k rest', (g.randomWalk g.sink fuel i).run rest = (.error .zeroWeights, rest') ∧
      g.Drawn supply p' k rest' ∧ g.Bars k := by
  induction fuel generalizing p i rest with
  | zero =>
    by_cases hsink : i = g.sink
    · refine .inl ⟨[], rest, ?_, p, by rw [hsink], hsink ▸ hd⟩
      rw [randomWalk, if_pos hsink]
      rfl
    · have r := route_of_admits (h.route_of_drawn hd)
      obtain ⟨j, hj⟩ := h.exists_joins_of_route r hsink
      have hlen := (r.snoc hj).length_le h.acyclic
      simp only [List.length_append, List.length_singleton] at hlen
      omega
  | succ fuel ih =>
    rw [randomWalk]
    by_cases hsink : i = g.sink
    · refine .inl ⟨[], rest, ?_, p, by rw [hsink], hsink ▸ hd⟩
      rw [if_pos hsink]
      rfl
    · rw [if_neg hsink, Draw.run_bind]
      obtain ⟨j, hj⟩ := h.exists_joins_of_route (route_of_admits (h.route_of_drawn hd)) hsink
      rcases run_randomStep hj rest with ⟨k, rest', -, hrun⟩ | ⟨hbars, hrun⟩
      · have hfuel' : g.edges.length ≤ fuel + (p ++ [i]).length := by
          rw [List.length_append, List.length_singleton]
          omega
        rw [hrun]
        dsimp only
        rw [Draw.run_bind]
        rcases ih (hd.step hsink hrun) hfuel' with
          ⟨q, rest'', hq, p', hp', hd'⟩ | ⟨p', l, rest'', hq, hd', hbars⟩
        · refine .inl ⟨k :: q, rest'', by rw [hq]; rfl, p', ?_, hd'⟩
          simpa using hp'
        · exact .inr ⟨p', l, rest'', by rw [hq], hd', hbars⟩
      · exact .inr ⟨p, i, rest, by rw [hrun], hd, hbars⟩

theorem run_randomPath (supply : Supply) :
    (∃ p rest, g.randomPath.run supply = (.ok (p ++ [g.sink]), rest) ∧
      g.Drawn supply p g.sink rest) ∨
    ∃ p i rest, g.randomPath.run supply = (.error .zeroWeights, rest) ∧
      g.Drawn supply p i rest ∧ g.Bars i := by
  have hfuel : g.edges.length ≤ g.stepBound supply + ([] : List Nat).length := by
    have hmul : g.edges.length + 2 ≤ g.stepBound supply := Nat.le_mul_of_pos_left _ (by omega)
    rw [List.length_nil]
    omega
  have htokens : g.tokens.isEmpty = false := by simpa using h.tokens_ne_nil
  have hpath : g.randomPath.run supply =
      ((do return g.source :: (← g.randomWalk g.sink (g.stepBound supply) g.source)) :
        Draw (List Nat)).run supply := by
    unfold randomPath
    rw [htokens]
    rfl
  rw [hpath, Draw.run_bind]
  rcases h.run_randomWalk .source hfuel with ⟨q, rest, hq, p, hp, hd⟩ | ⟨p, i, rest, hq, hd, hbars⟩
  · refine .inl ⟨p, rest, ?_, hd⟩
    rw [hq, ← hp]
    rfl
  · exact .inr ⟨p, i, rest, by rw [hq], hd, hbars⟩

end Spans

theorem Spans.yields_randomPath (h : g.Spans s t) :
    g.randomPath.Yields (· ∈ g.paths) (· = .zeroWeights) := by
  have hspan : g.Spans g.source g.sink := by rwa [h.source_eq, h.sink_eq]
  intro supply
  rcases hspan.run_randomPath supply with ⟨p, rest, hrun, hd⟩ | ⟨p, i, rest, hrun, -⟩
  · rw [hrun]
    exact route_of_admits (hspan.route_of_drawn hd)
  · rw [hrun]

end Graph

end SpokenGrammar
