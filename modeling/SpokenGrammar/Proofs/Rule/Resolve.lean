import SpokenGrammar.Proofs.Graph.Thinning
import SpokenGrammar.Proofs.Rule.Compile
import SpokenGrammar.Proofs.Rule.References
import SpokenGrammar.Proofs.Rule.Splicing

namespace SpokenGrammar

structure Rule.Resolved (ρ : String → Language Char) (name : String) (r : Rule) : Prop where
  spanning : r.graph.Spanning
  settled : r.graph.Settled
  unweighted : r.graph.Unweighted
  language : r.graph.language ρ = ρ name

/-- A graph that spells what `r` does, whose references that an edge touches are the places still
left. -/
structure Stage (ρ : String → Language Char) (r : Rule) (todo : List Nat) (g : Graph) : Prop
    extends Pending r todo g where
  language : g.language ρ = r.graph.language ρ
  unweighted : g.Unweighted
  references : ∀ (i : Nat) (name : String), g.Touched i →
    g.tokens[i]? = some (.reference name) → i ∈ todo

theorem Stage.splice {ρ : String → Language Char} {r guest : Rule} {name : String} {i : Nat}
    {todo : List Nat} {g h : Graph} (hs : Stage ρ r (i :: todo) g)
    (hguest : guest.Resolved ρ name) (htoken : r.graph.tokens[i]? = some (.reference name))
    (hi : i ∉ todo) (hsplice : g.splice guest.graph i = .ok h) : Stage ρ r todo h := by
  refine ⟨hs.toPending.splice hguest.spanning hi hsplice, ?_, ?_, ?_⟩
  · rw [Graph.language_splice hs.spanning hguest.spanning hsplice (hs.token htoken)
      hguest.language, hs.language]
  · intro s weight hmem
    rw [Graph.tokens_splice hsplice] at hmem
    rcases List.mem_append.mp hmem with hmem | hmem
    · exact hs.unweighted s weight hmem
    · exact hguest.unweighted s weight hmem
  · intro j name' hj hname'
    rcases Graph.token_splice_cases hs.spanning hguest.spanning hsplice hj hname' with
      ⟨hji, hj, htoken'⟩ | ⟨y, hy, htoken', rfl⟩
    · exact (List.mem_cons.mp (hs.references j name' hj htoken')).resolve_left hji
    · exact absurd htoken' (hguest.settled y name' hy)

/-- Two stages of one rule, the second thinned. -/
structure Twins (ρ : String → Language Char) (r : Rule) (todo : List Nat) (g h : Graph) : Prop where
  plain : Stage ρ r todo g
  thin : Stage ρ r todo h
  thinned : Graph.Thinned g h

structure Rule.Paired (ρ : String → Language Char) (name : String) (r q : Rule) : Prop where
  plain : r.Resolved ρ name
  thin : q.Resolved ρ name
  thinned : Graph.Thinned r.graph q.graph

namespace Twins

variable {ρ : String → Language Char} {r guest guest' : Rule} {name : String} {i : Nat}
  {todo places : List Nat} {g h : Graph}

theorem exists_splice (ht : Twins ρ r (i :: todo) g h) (hguest : Rule.Paired ρ name guest guest')
    (htoken : r.graph.tokens[i]? = some (.reference name)) (hi : i ∉ todo) :
    ∃ g' h', g.splice guest.graph i = .ok g' ∧ h.splice guest'.graph i = .ok h' ∧
      Twins ρ r todo g' h' := by
  obtain ⟨g', hg'⟩ := ht.plain.toPending.exists_splice hguest.plain.spanning
  obtain ⟨h', hh'⟩ := ht.thin.toPending.exists_splice hguest.thin.spanning
  refine ⟨g', h', hg', hh', ht.plain.splice hguest.plain htoken hi hg',
    ht.thin.splice hguest.thin htoken hi hh', ?_⟩
  exact ht.thinned.splice hguest.thinned ht.plain.spanning ht.thin.spanning
    hguest.plain.spanning hguest.thin.spanning hg' hh' (ht.plain.token htoken) rfl

theorem exists_spliceAll (ht : Twins ρ r (places ++ todo) g h)
    (hguest : Rule.Paired ρ name guest guest')
    (hplaces : ∀ i ∈ places, r.graph.tokens[i]? = some (.reference name))
    (hnodup : (places ++ todo).Nodup) :
    ∃ g' h', Rule.spliceAll guest.graph g places = .ok g' ∧
      Rule.spliceAll guest'.graph h places = .ok h' ∧ Twins ρ r todo g' h' := by
  have hstep : ∀ (i : Nat) (l : List Nat) (g h : Graph),
      (Twins ρ r (i :: l ++ todo) g h ∧ i :: l ⊆ places ∧ (i :: l ++ todo).Nodup) →
      ∃ g' h', g.splice guest.graph i = .ok g' ∧ h.splice guest'.graph i = .ok h' ∧
        Twins ρ r (l ++ todo) g' h' ∧ l ⊆ places ∧ (l ++ todo).Nodup := by
    rintro i l g h ⟨ht, hsub, hnodup⟩
    obtain ⟨hi, hrest⟩ := List.nodup_cons.mp hnodup
    obtain ⟨g', h', hg', hh', ht'⟩ :=
      ht.exists_splice hguest (hplaces i (hsub List.mem_cons_self)) hi
    exact ⟨g', h', hg', hh', ht', fun j hj => hsub (List.mem_cons_of_mem _ hj), hrest⟩
  obtain ⟨g', h', hg', hh', ht', -, -⟩ :=
    Attempt.exists_foldlM₂ (I := fun l g h =>
      Twins ρ r (l ++ todo) g h ∧ l ⊆ places ∧ (l ++ todo).Nodup) hstep
      ⟨ht, List.Subset.refl _, hnodup⟩
  exact ⟨g', h', hg', hh', ht'⟩

end Twins

namespace Rule

variable {ρ : String → Language Char} {r : Rule} {t u : RuleTable} {name : String} {p : Phrase}

theorem Means.called_eq (h : r.Means p) : r.called = r.references := by
  rw [called, List.filter_eq_self]
  intro name hname
  rw [h.legible name hname]
  rfl

theorem Means.twins (h : r.Means p) (ρ : String → Language Char) :
    Twins ρ r (r.references.flatMap r.places) r.graph r.graph := by
  have hpending : Pending r (r.references.flatMap r.places) r.graph :=
    h.called_eq ▸ Pending.start h.spanning
  have hstage : Stage ρ r (r.references.flatMap r.places) r.graph := by
    refine ⟨hpending, rfl, h.unweighted, fun i name hi hname => ?_⟩
    exact List.mem_flatMap.mpr ⟨name, h.referred i name hname, mem_places.mpr ⟨hname, hi⟩⟩
  exact ⟨hstage, hstage, Graph.Thinned.refl _⟩

theorem Means.resolved {g : Graph} (h : r.Means p) (hs : Stage ρ r [] g)
    (hname : p.language ρ = ρ name) : Resolved ρ name { r with graph := g } := by
  refine ⟨hs.spanning, ?_, hs.unweighted, ?_⟩
  · intro i name' hi hname'
    cases hs.references i name' hi hname'
  · exact hs.language.trans ((h.language ρ).trans hname)

theorem Means.exists_resolve (h : r.Means p)
    (hpaired : ∀ name ∈ r.references, ∃ guest guest', t.find name = some guest ∧
      u.find name = some guest' ∧ Paired ρ name guest guest')
    (hname : p.language ρ = ρ name) :
    ∃ g g', r.resolve t = .ok { r with graph := g } ∧ r.resolve u = .ok { r with graph := g' } ∧
      Paired ρ name { r with graph := g } { r with graph := g' } := by
  have hstep : ∀ (name : String) (l : List String) (g g' : Graph),
      (Twins ρ r ((name :: l).flatMap r.places) g g' ∧ name :: l ⊆ r.references ∧
        (name :: l).Nodup) →
      ∃ k k', spliceName t r g name = .ok k ∧ spliceName u r g' name = .ok k' ∧
        Twins ρ r (l.flatMap r.places) k k' ∧ l ⊆ r.references ∧ l.Nodup := by
    rintro name l g g' ⟨htwins, hsub, hnodup⟩
    obtain ⟨guest, guest', hguest, hguest', hpair⟩ := hpaired name (hsub List.mem_cons_self)
    have hplaces := r.nodup_flatMap_places hnodup
    rw [List.flatMap_cons] at htwins hplaces
    obtain ⟨k, k', hk, hk', htwins'⟩ :=
      htwins.exists_spliceAll hpair (fun i hi => (mem_places.mp hi).1) hplaces
    refine ⟨k, k', ?_, ?_, htwins', fun x hx => hsub (List.mem_cons_of_mem _ hx),
      (List.nodup_cons.mp hnodup).2⟩
    · rw [spliceName_found r g hguest]
      exact hk
    · rw [spliceName_found r g' hguest']
      exact hk'
  obtain ⟨g, g', hg, hg', htwins, -, -⟩ :=
    Attempt.exists_foldlM₂ (I := fun l g g' =>
      Twins ρ r (l.flatMap r.places) g g' ∧ l ⊆ r.references ∧ l.Nodup) hstep
      ⟨h.twins ρ, List.Subset.refl _, h.distinct⟩
  refine ⟨g, g', ?_, ?_, h.resolved htwins.plain hname, h.resolved htwins.thin hname,
    htwins.thinned⟩
  · rw [resolve_eq, h.called_eq, hg]
    rfl
  · rw [resolve_eq, h.called_eq, hg']
    rfl

theorem Resolved.elide (h : r.Resolved ρ name) : r.elide.Resolved ρ name := by
  refine ⟨Graph.spanning_elide h.spanning, ?_, ?_, ?_⟩
  · intro i name' hi
    rw [Rule.elide, Graph.tokens_elide]
    exact h.settled i name' (Graph.touched_of_elide hi)
  · intro s weight hmem
    rw [Rule.elide, Graph.tokens_elide] at hmem
    exact h.unweighted s weight hmem
  · exact (Graph.language_elide h.spanning ρ).trans h.language

theorem Paired.elideIf {q : Rule} (h : Paired ρ name r q) (minimize : Bool) :
    Paired ρ name r (if minimize then q.elide else q) := by
  cases minimize with
  | true => exact ⟨h.plain, h.thin.elide, h.thinned.elide h.thin.spanning⟩
  | false => exact h

theorem isPublic_elideIf (r : Rule) (minimize : Bool) :
    (if minimize then r.elide else r).isPublic = r.isPublic := by
  cases minimize <;> rfl

end Rule

end SpokenGrammar
