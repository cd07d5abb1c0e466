import SpokenGrammar.Proofs.Rule.Compiled

namespace SpokenGrammar

namespace Graph

variable {g h host guest : Graph} {s t i j p : Nat}

inductive Derived : Graph → Prop where
  | built {p : Punctuation} {expression : String} {body : List Token} {g : Graph} :
      Token.read p expression = .ok (body ++ [.mark .terminator, .finish]) →
      ofTokens (body ++ [.mark .terminator, .finish]) = .ok g → Derived g
  | weighed {g h : Graph} {delimiter : Char} :
      Derived g → g.applyWeights delimiter = .ok h → Derived h
  | elided {g : Graph} : Derived g → Derived g.elide
  | spliced {host guest g : Graph} {p : Nat} :
      Derived host → Derived guest → host.Touched p → host.splice guest p = .ok g → Derived g

theorem Derived.spanning (hg : g.Derived) : g.Spanning := by
  induction hg with
  | built hread hbuilt =>
    obtain ⟨inner, rfl, hinner⟩ := Token.exists_body_of_terminated hread
    exact ⟨_, _, spans_of_terminated hbuilt hinner⟩
  | weighed _ hweighed ih =>
    obtain ⟨s, t, hspan⟩ := ih
    exact ⟨s, t, hspan.applyWeights hweighed⟩
  | elided _ ih =>
    obtain ⟨s, t, hspan⟩ := ih
    exact ⟨s, t, hspan.elide⟩
  | spliced _ _ htouched hspliced ihhost ihguest =>
    exact spanning_splice ihhost ihguest hspliced htouched

namespace Spans

variable (hspan : g.Spans s t)
include hspan

theorem eq_source_iff : i = g.source ↔ g.Touched i ∧ ∀ h, ¬ g.Joins h i := by
  rw [hspan.source_eq]
  constructor
  · rintro rfl
    exact ⟨hspan.touched, hspan.not_entered⟩
  · rintro ⟨htouched, hnone⟩
    by_contra hne
    obtain ⟨h, hh⟩ := hspan.entered i htouched hne
    exact hnone h hh

theorem eq_sink_iff : i = g.sink ↔ g.Touched i ∧ ∀ j, ¬ g.Joins i j := by
  rw [hspan.sink_eq]
  constructor
  · rintro rfl
    exact ⟨hspan.sink_touched, hspan.not_exited⟩
  · rintro ⟨htouched, hnone⟩
    by_contra hne
    obtain ⟨j, hj⟩ := hspan.exited i htouched hne
    exact hnone j hj

end Spans

theorem weight_of_mem {e : Edge} (he : e ∈ g.edges) : g.weight e.source e.target = e.value := by
  have hsome : (g.edges.find? (·.ends = (e.source, e.target))).isSome = true := by
    rw [List.find?_isSome]
    exact ⟨e, he, by simp [Edge.ends]⟩
  obtain ⟨k, hk⟩ := Option.isSome_iff_exists.mp hsome
  have hends : k.ends = e.ends := by simpa [Edge.ends] using List.find?_some hk
  obtain rfl := List.inj_on_of_nodup_map g.distinct (List.mem_of_find?_eq_some hk) he hends
  rw [weight, hk]
  rfl

theorem weight_of_not_joins (hij : ¬ g.Joins i j) : g.weight i j = 1 := by
  have hnone : g.edges.find? (·.ends = (i, j)) = none := by
    rw [List.find?_eq_none]
    intro e he hends
    exact hij (List.mem_map.mpr ⟨e, he, of_decide_eq_true hends⟩)
  rw [weight, hnone]
  rfl

theorem derived_graphs_span (hg : g.Derived) :
    (∀ e ∈ g.edges, e.source < g.tokens.length ∧ e.target < g.tokens.length) ∧
    (g.edges.map Edge.ends).Nodup ∧
    (∀ i, ¬ Relation.TransGen g.Joins i i) ∧
    (∀ i, i = g.source ↔ g.Touched i ∧ ∀ h, ¬ g.Joins h i) ∧
    (∀ i, i = g.sink ↔ g.Touched i ∧ ∀ j, ¬ g.Joins i j) ∧
    (∀ i, g.Touched i → ∃ p, Route g.Joins g.source g.sink p ∧ i ∈ p) ∧
    (∀ i, (g.successors i).map (i, ·) = (g.edges.map Edge.ends).filter (·.1 = i)) ∧
    (∀ e ∈ g.edges, g.weight e.source e.target = e.weight.getD 1) ∧
    ∀ i j, ¬ g.Joins i j → g.weight i j = 1 := by
  obtain ⟨s, t, hspan⟩ := hg.spanning
  refine ⟨?_, g.distinct, hspan.acyclic, fun i => hspan.eq_source_iff, fun i => hspan.eq_sink_iff,
    ?_, g.map_successors, fun e he => weight_of_mem he, fun i j => weight_of_not_joins⟩
  · exact fun e he => hspan.within e.source e.target (joins_of_mem_edges he)
  · exact fun i hi => hspan.exists_path hi

theorem derived_graphs_span_of_greeting :
    ∃ host weighed guest g : Graph,
      (∃ ts, Token.read {} "/2/ <who> [there] | hi;" = .ok ts ∧ ofTokens ts = .ok host) ∧
      host.applyWeights '/' = .ok weighed ∧
      (∃ ts, Token.read {} "you [all];" = .ok ts ∧ ofTokens ts = .ok guest) ∧
      weighed.splice guest.elide 2 = .ok g ∧ g.elide.Derived ∧
      (∀ e ∈ g.elide.edges, e.source < g.elide.tokens.length ∧ e.target < g.elide.tokens.length) ∧
      (g.elide.edges.map Edge.ends).Nodup ∧
      (∀ i, ¬ Relation.TransGen g.elide.Joins i i) ∧
      (∀ i, i = g.elide.source ↔ g.elide.Touched i ∧ ∀ h, ¬ g.elide.Joins h i) ∧
      (∀ i, i = g.elide.sink ↔ g.elide.Touched i ∧ ∀ j, ¬ g.elide.Joins i j) ∧
      (∀ i, g.elide.Touched i →
        ∃ p, Route g.elide.Joins g.elide.source g.elide.sink p ∧ i ∈ p) ∧
      (∀ i, (g.elide.successors i).map (i, ·) =
        (g.elide.edges.map Edge.ends).filter (·.1 = i)) ∧
      (∀ e ∈ g.elide.edges, g.elide.weight e.source e.target = e.weight.getD 1) ∧
      ∀ i j, ¬ g.elide.Joins i j → g.elide.weight i j = 1 := by
  have hhost : ((Token.read {} "/2/ <who> [there] | hi;").toOption.any fun ts =>
      [Token.mark .terminator, .finish].isSuffixOf ts && ts[2]? == some (.reference "<who>") &&
        (ofTokens ts).toOption.any (fun _ => true) &&
        (ts.mapM (Token.takeWeight '/')).toOption.any fun _ => true) = true := by decide +kernel
  have hguest : ((Token.read {} "you [all];").toOption.any fun ts =>
      [Token.mark .terminator, .finish].isSuffixOf ts &&
        (ofTokens ts).toOption.any fun _ => true) = true := by decide +kernel
  obtain ⟨ts, hts, hhost⟩ := Attempt.exists_of_any hhost
  obtain ⟨us, hus, hguest⟩ := Attempt.exists_of_any hguest
  simp only [Bool.and_eq_true, beq_iff_eq, List.isSuffixOf_iff_suffix] at hhost hguest
  obtain ⟨⟨⟨⟨body, rfl⟩, hreference⟩, hbuilt⟩, hparts⟩ := hhost
  obtain ⟨⟨body', rfl⟩, hbuilt'⟩ := hguest
  obtain ⟨host, hhost, -⟩ := Attempt.exists_of_any hbuilt
  obtain ⟨guest, hguest, -⟩ := Attempt.exists_of_any hbuilt'
  obtain ⟨parts, hparts, -⟩ := Attempt.exists_of_any hparts
  obtain ⟨inner, rfl, hinner⟩ := Token.exists_body_of_terminated hts
  obtain ⟨-, -, -, -, htokens, -⟩ := Assembly.exists_steps_of_ofTokens hhost
  have hstart : ∀ t ∈ inner ++ [.mark .terminator, .finish], t ≠ Token.start :=
    List.forall_mem_append.mpr ⟨hinner, by simp⟩
  have hweighed : ∃ weighed, host.applyWeights '/' = .ok weighed :=
    ⟨_, Attempt.map_eq_ok.mpr ⟨parts, htokens ▸ hparts, rfl⟩⟩
  obtain ⟨weighed, hweighed⟩ := hweighed
  have htouched : weighed.Touched 2 := by
    have hplace : host.tokens[2]? = some (.reference "<who>") := by
      rw [htokens]
      exact hreference
    obtain ⟨j, hj⟩ := touched_ofTokens hhost hstart hplace rfl
    exact ⟨j, hj.imp (joins_applyWeights hweighed _ _).mpr (joins_applyWeights hweighed _ _).mpr⟩
  have hderived : weighed.Derived := .weighed (.built hts hhost) hweighed
  have hderived' : guest.elide.Derived := .elided (.built hus hguest)
  obtain ⟨s, t, hspan⟩ := hderived.spanning
  obtain ⟨u, v, hspan'⟩ := hderived'.spanning
  obtain ⟨g, hg⟩ := splice_eq_ok hspan.isEmpty_eq_false hspan'.isEmpty_eq_false
    (hspan.lt_of_touched htouched)
  have hall : g.elide.Derived := .elided (.spliced hderived hderived' htouched hg)
  exact ⟨host, weighed, guest, g, ⟨_, hts, hhost⟩, hweighed, ⟨_, hus, hguest⟩, hg, hall,
    derived_graphs_span hall⟩

end Graph

end SpokenGrammar
