import SpokenGrammar.Proofs.Grammar.Finishing
import SpokenGrammar.Proofs.Grammar.Loading

namespace SpokenGrammar

variable {settings : Settings} {ds : List Definition} {t : RuleTable}

def Definition.Terminated (d : Definition) : Prop :=
  ∃ tokens, Token.read {} d.expression = .ok tokens ∧ [.mark .terminator, .finish] <:+ tokens

theorem Definition.terminated_of_check {ds : List Definition}
    (h : (ds.all fun d => (Token.read {} d.expression).toOption.any fun tokens =>
      [Token.mark .terminator, .finish].isSuffixOf tokens) = true) : ∀ d ∈ ds, d.Terminated := by
  intro d hd
  obtain ⟨tokens, htokens, hsuffix⟩ := Attempt.exists_of_any (List.all_eq_true.mp h d hd)
  exact ⟨tokens, htokens, List.isSuffixOf_iff_suffix.mp hsuffix⟩

theorem RuleTable.compiled_of_foldlM (hterminated : ∀ d ∈ ds, d.Terminated)
    (h : ds.foldlM (Definition.enter {}) .empty = .ok t) : t.Compiled := by
  obtain ⟨new, hnew, hentries⟩ := Definition.entries_of_foldlM h
  intro name r hr
  have hmem : (name, r) ∈ new := by
    rw [find_eq_some_iff, hentries] at hr
    exact hr
  obtain ⟨d, hd, -, hcompile⟩ := (exists_of_forall₂ hnew).1 _ hmem
  obtain ⟨tokens, htokens, body, rfl⟩ := hterminated d hd
  exact Rule.compiled_of_terminated hcompile htokens

namespace Grammar

variable {g : Grammar}

theorem exists_table_of_foldlM (hpunctuation : settings.punctuation = {})
    (h : ds.foldlM declare { settings } = .ok g) :
    ds.foldlM (Definition.enter {}) .empty = .ok g.rules ∧ g = { rules := g.rules, settings } := by
  rw [foldlM_declare] at h
  obtain ⟨table, htable, rfl⟩ := Attempt.map_eq_ok.mp h
  rw [← hpunctuation]
  exact ⟨htable, rfl⟩

theorem resolution_is_complete (hpunctuation : settings.punctuation = {})
    (hterminated : ∀ d ∈ ds, d.Terminated) (h : ds.foldlM declare { settings } = .ok g) :
    ((∃ name, g.resolve.2 = .error (.selfReference name)) ↔ g.rules.Recursive) ∧
    (¬ g.rules.Recursive →
      ((∃ name, g.resolve.2 = .error (.unknownReference name) ∧ g.rules.Lacks name) ↔
        ∃ name, g.rules.Lacks name) ∧
      ((∀ name, ¬ g.rules.Lacks name) → g.resolve.2 = .ok ())) ∧
    (∀ f, g.resolve.2 = .error f → f.kind ≠ .splicing) ∧
    (g.resolve.2 = .ok () →
      (∀ name r, g.rules.Leads name → g.resolve.1.rules.find name = some r → r.graph.Settled) ∧
      ∀ name, ¬ g.rules.Leads name → g.resolve.1.rules.find name = g.rules.find name) := by
  have ht := RuleTable.compiled_of_foldlM hterminated (exists_table_of_foldlM hpunctuation h).1
  rcases resolve_cases ht (.start g.settings.minimize g.rules) with
    ⟨name, hresolve, hcycle⟩ | ⟨hacyclic, rules, result, hresolve, hunderway, hresult⟩
  · rw [hresolve]
    have hrecursive : g.rules.Recursive := ⟨name, hcycle⟩
    refine ⟨iff_of_true ⟨name, rfl⟩ hrecursive, fun hnot => absurd hrecursive hnot, ?_, ?_⟩
    · intro f hf
      obtain rfl := Except.error.inj hf
      exact FaultKind.noConfusion
    · intro hok
      cases hok
  · rw [hresolve]
    rcases hresult with ⟨rfl, hcomplete, hdone⟩ | ⟨name, hlacks, rfl⟩
    · have hno : ¬ ∃ name, g.rules.Lacks name := fun ⟨name, hlacks⟩ => hcomplete name hlacks
      refine ⟨iff_of_false ?_ hacyclic, fun _ => ⟨iff_of_false ?_ hno, fun _ => rfl⟩, ?_,
        fun _ => ⟨?_, ?_⟩⟩
      · rintro ⟨name, herror⟩
        cases herror
      · rintro ⟨name, herror, -⟩
        cases herror
      · intro f hf
        cases hf
      · intro name r hleads hr
        exact ((hdone.2 name r hleads hr).composed ht).settled
      · intro name hleads
        exact hunderway.find_eq_of_not_leads hleads
    · refine ⟨iff_of_false ?_ hacyclic,
        fun _ => ⟨iff_of_true ⟨name, rfl, hlacks⟩ ⟨name, hlacks⟩, ?_⟩, ?_, ?_⟩
      · rintro ⟨name', herror⟩
        cases herror
      · intro hcomplete
        exact absurd hlacks (hcomplete name)
      · intro f hf
        obtain rfl := Except.error.inj hf
        exact FaultKind.noConfusion
      · intro hok
        cases hok

theorem resolution_is_complete_of_greeting :
    let settings : Settings := {}
    let ds : List Definition := [⟨true, "<greet>", "hi <who> | bye <them>;"⟩,
      ⟨false, "<who>", "you [<all>];"⟩, ⟨false, "<all>", "all;"⟩, ⟨false, "<idle>", "<nobody>;"⟩]
    settings.punctuation = {} ∧ (∀ d ∈ ds, d.Terminated) ∧
      ∃ g, ds.foldlM declare { settings } = .ok g ∧
      ((∃ name, g.resolve.2 = .error (.selfReference name)) ↔ g.rules.Recursive) ∧
      (¬ g.rules.Recursive →
        ((∃ name, g.resolve.2 = .error (.unknownReference name) ∧ g.rules.Lacks name) ↔
          ∃ name, g.rules.Lacks name) ∧
        ((∀ name, ¬ g.rules.Lacks name) → g.resolve.2 = .ok ())) ∧
      (∀ f, g.resolve.2 = .error f → f.kind ≠ .splicing) ∧
      (g.resolve.2 = .ok () →
        (∀ name r, g.rules.Leads name → g.resolve.1.rules.find name = some r → r.graph.Settled) ∧
        ∀ name, ¬ g.rules.Leads name → g.resolve.1.rules.find name = g.rules.find name) := by
  intro settings ds
  have hterminated : ∀ d ∈ ds, d.Terminated := Definition.terminated_of_check (by decide +kernel)
  have hdeclared : ((ds.foldlM declare { settings }).toOption.any fun _ => true) = true := by
    decide +kernel
  obtain ⟨g, hg, -⟩ := Attempt.exists_of_any hdeclared
  exact ⟨rfl, hterminated, g, hg, resolution_is_complete rfl hterminated hg⟩

end Grammar

end SpokenGrammar
