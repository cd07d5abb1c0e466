import Mathlib.Data.List.Permutation
import SpokenGrammar.Proofs.Grammar.Meaning
import SpokenGrammar.Proofs.Graph.Reweighing
import SpokenGrammar.Proofs.Rule.Compiled

namespace SpokenGrammar

variable {minimize : Bool} {t u : RuleTable} {names : List String} {text : String}
  {source : Source} {settings : Settings}

def Definition.Rejoins (p : Punctuation) (d : Definition) : Prop :=
  ∀ tokens, Token.read p d.expression = .ok tokens → Token.Rejoins 0 tokens

theorem Source.rejoins (h : Source.read text = .ok source) :
    ∀ d ∈ source.rules, d.Rejoins {} := by
  intro d hd tokens htokens
  obtain ⟨body, rfl, -⟩ := exists_body_of_mem_rules h hd htokens
  exact Token.rejoins_of_terminated 0 (.start :: body)

namespace RuleTable

def Grown (t u : RuleTable) : Prop :=
  ∀ name q, u.find name = some q → ∃ r, t.find name = some r ∧ q.references = r.references ∧
    r.graph.tokens <+: q.graph.tokens ∧ q.graph.Composed fun _ _ => True

theorem Grown.resolveAll (hdistinct : ∀ name r, t.find name = some r → r.references.Nodup)
    (h : Grown t u) : Grown t (u.resolveAll minimize names).1 := by
  induction names generalizing u with
  | nil => exact h
  | cons name names ih =>
    cases hfind : u.find name with
    | none =>
      rw [resolveAll_missing minimize hfind]
      exact ih h
    | some q =>
      obtain ⟨r, hr, hreferences, hprefix, hcomposed⟩ := h name q hfind
      have hcompiled : q.Compiled fun _ => True :=
        ⟨hcomposed.imp fun _ _ _ => .inr trivial, hreferences ▸ hdistinct name r hr⟩
      have hguests : ∀ x ∈ q.called, ∀ guest, u.find x = some guest →
          guest.graph.Composed fun _ _ => True := by
        intro x _ guest hguest
        obtain ⟨-, -, -, -, hguest⟩ := h x guest hguest
        exact hguest
      rcases hcompiled.resolve_cases hguests with ⟨g, hg, hcomposed', hprefix'⟩ | ⟨x, -, -, hx⟩
      · rw [resolveAll_resolved minimize hfind hg]
        refine ih fun x p hp => ?_
        by_cases hxn : x = name
        · subst hxn
          rw [find_replace_self hfind] at hp
          obtain rfl := Option.some.inj hp
          cases minimize with
          | true =>
            refine ⟨r, hr, hreferences, ?_, hcomposed'.elide⟩
            rw [if_pos rfl, Rule.elide, Graph.tokens_elide]
            exact hprefix.trans hprefix'
          | false => exact ⟨r, hr, hreferences, hprefix.trans hprefix', hcomposed'⟩
        · rw [find_replace_of_ne hxn] at hp
          exact h x p hp
      · rw [RuleTable.resolveAll, hfind]
        dsimp only
        rw [hx]
        exact h

end RuleTable

namespace Grammar

variable {g : Grammar}

theorem grown_of_load (hsource : Source.read text = .ok source)
    (hrejoins : ∀ d ∈ source.rules, d.Rejoins settings.punctuation)
    (h : load text settings = .ok g) :
    ∃ table, RuleTable.Grown table g.rules ∧
      List.Forall₂ (Definition.Enters settings.punctuation) source.rules table.entries := by
  obtain ⟨source', table, order, hloads, hrules, -⟩ := load_eq_ok.mp h
  obtain rfl := Except.ok.inj (hsource.symm.trans hloads.read)
  have hcompiled : ∀ name r, table.find name = some r → r.Compiled fun _ => True := by
    intro name r hr
    obtain ⟨d, hd, -, hcompile⟩ :=
      (exists_of_forall₂ hloads.entries).1 _ (RuleTable.find_eq_some_iff.mp hr)
    obtain ⟨tokens, -, htokens, -⟩ := Rule.compile_eq_ok hcompile
    obtain ⟨body, rfl, hbody⟩ :=
      Token.exists_body_of_read (Source.expression_ne_nil hsource hd) htokens
    exact Rule.compiled_of_compile hcompile htokens hbody (hrejoins d hd _ htokens).2
      fun _ _ _ => trivial
  have hgrown : RuleTable.Grown table table := fun name r hr =>
    ⟨r, hr, rfl, List.prefix_refl _, (hcompiled name r hr).composed.imp fun _ _ _ => trivial⟩
  have hresult : RuleTable.Grown table (table.resolveAll settings.minimize order).1 :=
    hgrown.resolveAll fun name r hr => (hcompiled name r hr).distinct
  rw [hrules] at hresult
  exact ⟨table, hresult, hloads.entries⟩

theorem branches_reach_sink (hsource : Source.read text = .ok source)
    (hrejoins : ∀ d ∈ source.rules, d.Rejoins settings.punctuation)
    (h : load text settings = .ok g) :
    (∀ name r, g.rules.find name = some r →
      (∀ i p, Route r.graph.Joins r.graph.source i p →
        ∃ q, Route r.graph.Joins i r.graph.sink q) ∧
      (∃ ps, r.graph.allPaths none = .ok ps) ∧
      (∀ limit ps, r.graph.allPaths limit = .ok ps → ∀ i, r.graph.Touched i → ∃ p ∈ ps, i ∈ p) ∧
      (∀ i s weight, r.graph.tokens[i]? = some (.text s weight) → s ≠ "" → r.graph.Touched i) ∧
      ∃ d ∈ source.rules, d.name = name ∧ ∃ raw,
        Rule.compile settings.punctuation d.expression d.isPublic = .ok raw ∧
          raw.graph.tokens <+: r.graph.tokens) ∧
    (∀ supply node, (g.sample.run supply).1 ≠ .error (.deadEnd node)) ∧
    ∀ (α : Type) [Recorder α] (name : String) (supply : Supply) (node : Nat),
      ((g.sampleRule name : Draw α).run supply).1 ≠ .error (.deadEnd node) := by
  obtain ⟨table, hgrown, hentries⟩ := grown_of_load hsource hrejoins h
  have hspanning : ∀ name r, g.rules.find name = some r → r.graph.Spanning := by
    intro name r hr
    obtain ⟨-, -, -, -, hcomposed⟩ := hgrown name r hr
    exact hcomposed.spanning
  refine ⟨?_, ?_, ?_⟩
  · intro name r hr
    obtain ⟨raw, hraw, -, hprefix, hcomposed⟩ := hgrown name r hr
    obtain ⟨d, hd, hname, hcompile⟩ :=
      (exists_of_forall₂ hentries).1 _ (RuleTable.find_eq_some_iff.mp hraw)
    obtain ⟨s, t, hspan⟩ := hcomposed.spanning
    refine ⟨?_, ?_, ?_, hcomposed.manifest, d, hd, hname.symm, raw, hcompile, hprefix⟩
    · intro i p route
      rw [hspan.source_eq] at route
      rw [hspan.sink_eq]
      exact hspan.exists_route_to (route.touched_of_mem hspan.touched
        (List.mem_of_getLast? route.last_eq))
    · obtain ⟨ps, hps, -⟩ := hspan.exists_allPaths
      exact ⟨ps, hps⟩
    · intro limit ps hps i hi
      obtain ⟨p, hp, hmem⟩ := hspan.exists_path hi
      exact ⟨p, (hspan.mem_of_allPaths hps p).mpr hp, hmem⟩
  · intro supply node hdead
    have hyields := yields_sample_of (g := g) fun e he =>
      Rule.yields_sample_of_spanning (hspanning e.1 e.2 (mem_publicRules.mp he).1)
    rcases hyields.of_error hdead with ⟨hchoice, -⟩ | hzero | hempty
    · cases hchoice
    · cases hzero
    · cases hempty
  · intro α _ name supply node hdead
    rw [sampleRule] at hdead
    split at hdead
    · rename_i r hr
      cases (Rule.yields_sample_of_spanning (hspanning name r hr)).of_error hdead
    · cases hdead

theorem branches_reach_sink_of_group :
    let text := "public <x> = (a|b) [c|];"
    let settings : Settings := { punctuation := { terminator := '.' } }
    let rules : List Definition := [⟨true, "<x>", "(a|b) [c|];"⟩]
    Source.read text = .ok ⟨none, [], rules⟩ ∧
      (∀ d ∈ rules, d.Rejoins settings.punctuation) ∧ ∃ g, load text settings = .ok g ∧
      (∀ name r, g.rules.find name = some r →
        (∀ i p, Route r.graph.Joins r.graph.source i p →
          ∃ q, Route r.graph.Joins i r.graph.sink q) ∧
        (∃ ps, r.graph.allPaths none = .ok ps) ∧
        (∀ limit ps, r.graph.allPaths limit = .ok ps →
          ∀ i, r.graph.Touched i → ∃ p ∈ ps, i ∈ p) ∧
        (∀ i s weight, r.graph.tokens[i]? = some (.text s weight) → s ≠ "" → r.graph.Touched i) ∧
        ∃ d ∈ rules, d.name = name ∧ ∃ raw,
          Rule.compile settings.punctuation d.expression d.isPublic = .ok raw ∧
            raw.graph.tokens <+: r.graph.tokens) ∧
      (∀ supply node, (g.sample.run supply).1 ≠ .error (.deadEnd node)) ∧
      ∀ (α : Type) [Recorder α] (name : String) (supply : Supply) (node : Nat),
        ((g.sampleRule name : Draw α).run supply).1 ≠ .error (.deadEnd node) := by
  intro text settings rules
  have hread : Source.read text = .ok ⟨none, [], rules⟩ := by decide +kernel
  have hcheck : (rules.all fun d => (Token.read settings.punctuation d.expression).toOption.all
      fun tokens => decide (Token.Rejoins 0 tokens)) = true := by decide +kernel
  have hrejoins : ∀ d ∈ rules, d.Rejoins settings.punctuation := by
    intro d hd tokens htokens
    have hd := List.all_eq_true.mp hcheck d hd
    rw [htokens] at hd
    exact of_decide_eq_true hd
  have hloads : ((load text settings).toOption.any fun _ => true) = true := by decide +kernel
  obtain ⟨g, hload, -⟩ := Attempt.exists_of_any hloads
  exact ⟨hread, hrejoins, g, hload, branches_reach_sink hread hrejoins hload⟩

theorem branch_lost_without_terminator :
    let text := "public <x> = a|b;"
    let settings : Settings := { punctuation := { terminator := '.' } }
    ∃ g r, load text settings = .ok g ∧ ("<x>", r) ∈ g.publicRules ∧
      (∃ i p, Route r.graph.Joins r.graph.source i p ∧
        ∀ q, ¬ Route r.graph.Joins i r.graph.sink q) ∧
      r.productions none = .ok ["a"] := by
  intro text settings
  let rules : List Definition := [⟨true, "<x>", "a|b;"⟩]
  have hread : Source.read text = .ok ⟨none, [], rules⟩ := by decide +kernel
  have hordered : ((rules.foldlM (Definition.enter settings.punctuation) .empty).toOption.any
      fun table => ({ rules := table } : Grammar).compositionOrder.toOption.any fun levels =>
        decide (["<x>"] = levels.reverse.eraseDups)) = true := by decide +kernel
  have htokens : Token.read settings.punctuation "a|b;" =
      .ok [.start, .text "a" none, .mark .alternative, .text "b;" none, .finish] := by
    decide +kernel
  -- The second alternative stands at node 3, and the sink is where the first one stands.
  have hcheck : ((Graph.ofTokens [.start, .text "a" none, .mark .alternative, .text "b;" none,
      .finish]).toOption.any fun g => g.source == 0 && g.sink == 1 && g.touches 2 == false &&
        g.touches 4 == true && (g.elideNode 4).source == 0 && (g.elideNode 4).sink == 1 &&
        (g.elideNode 4).successors 0 == [1, 3] && (g.elideNode 4).successors 3 == [] &&
        ((g.elideNode 4).allPaths none).toOption.any (· == [[0, 1]])) = true := by cbv
  obtain ⟨table, htable, hordered⟩ := Attempt.exists_of_any hordered
  obtain ⟨levels, hlevels, horder⟩ := Attempt.exists_of_any hordered
  obtain ⟨g, hg, hcheck⟩ := Attempt.exists_of_any hcheck
  simp only [Bool.and_eq_true, beq_iff_eq] at hcheck
  obtain ⟨⟨⟨⟨⟨⟨⟨⟨hstart, hsink⟩, htwo⟩, hfour⟩, hstart'⟩, hsink'⟩, hbranches⟩, hend⟩, hcheck⟩ :=
    hcheck
  obtain ⟨ps, hps, hcheck⟩ := Attempt.exists_of_any hcheck
  obtain rfl := beq_iff_eq.mp hcheck
  have helide : g.elide = g.elideNode 4 := by
    have hinner : g.inner = [4] := by
      simp [Graph.inner, Graph.tokens_of_ofTokens hg, hstart, hsink, htwo, hfour,
        Token.isStructural, List.zipIdx]
    rw [Graph.elide, hinner]
    rfl
  rw [← helide] at hstart' hsink' hbranches hend hps
  obtain ⟨r, hr, hreferences, hgraph⟩ : ∃ r, Rule.compile settings.punctuation "a|b;" true = .ok r ∧
      r.references = [] ∧ r.graph = g :=
    ⟨_, Rule.compile_of_bare true htokens hg (by decide), rfl, rfl⟩
  subst hgraph
  obtain ⟨new, hnew, hentries⟩ := Definition.entries_of_foldlM htable
  have hfind : table.find "<x>" = some r := by
    obtain ⟨⟨name, r'⟩, hmem, rfl, hcompile⟩ :=
      (exists_of_forall₂ hnew).2 _ (List.mem_singleton_self _)
    obtain rfl := Except.ok.inj (hcompile.symm.trans hr)
    rw [RuleTable.find_eq_some_iff, hentries]
    exact hmem
  have hresolve : r.resolve table = .ok r := by
    have hcalled : r.called = [] := by
      rw [Rule.called, hreferences]
      rfl
    rw [Rule.resolve_eq, hcalled]
    rfl
  have hall : table.resolveAll settings.minimize ["<x>"] = (table.replace "<x>" r.elide, .ok ()) :=
    RuleTable.resolveAll_resolved true hfind hresolve
  have hload : load text settings =
      .ok { rules := table.replace "<x>" r.elide, settings } :=
    load_eq_ok.mpr ⟨_, table, ["<x>"], ⟨hread, by decide +kernel, htable, levels, hlevels,
      of_decide_eq_true horder⟩, hall, rfl⟩
  obtain ⟨-, -, -, -, -, hpublic, -⟩ := Rule.compile_eq_ok hr
  refine ⟨_, r.elide, hload, mem_publicRules.mpr ⟨RuleTable.find_replace_self hfind, hpublic⟩,
    ⟨3, [0, 3], ?_, fun q hroute => ?_⟩, ?_⟩
  · change Route r.graph.elide.Joins r.graph.elide.source 3 [0, 3]
    rw [hstart']
    refine .step (Graph.mem_successors_iff.mp ?_) (.here 3)
    rw [hbranches]
    simp
  · change Route r.graph.elide.Joins 3 r.graph.elide.sink q at hroute
    rw [hsink'] at hroute
    cases hroute with
    | step hjoins _ =>
      rw [← Graph.mem_successors_iff, hend] at hjoins
      cases hjoins
  · refine Rule.productions_eq_ok.mpr ⟨_, hps, ?_⟩
    simp only [List.map_singleton, Rule.record, Rule.elide, Graph.tokens_elide,
      Graph.tokens_of_ofTokens hg]
    decide +kernel

end Grammar

end SpokenGrammar
