import SpokenGrammar.Proofs.Grammar.Meaning

namespace SpokenGrammar

namespace Grammar

variable {g : Grammar} {ρ : String → Language Char} {supply : Supply}

theorem sample_of_publicRules_eq_nil (h : g.publicRules = []) (supply : Supply) :
    (g.sample.run supply).1 = .error .emptyChoice := by
  rw [sample, h]
  rfl

namespace Resolved

variable (hg : g.Resolved ρ)
include hg

theorem mem_of_sample {texts : List String} {s : String} (htexts : g.productions = .ok texts)
    (hs : (g.sample.run supply).1 = .ok s) : s ∈ texts := by
  rw [hg.mem_productions htexts]
  exact hg.yields_sample.of_ok hs

theorem sample_eq_emptyChoice_iff :
    (g.sample.run supply).1 = .error .emptyChoice ↔ g.publicRules = [] := by
  constructor
  · intro h
    rcases hg.yields_sample.of_error h with ⟨-, hnone⟩ | hzero | hempty
    · exact hnone
    · cases hzero
    · cases hempty
  · intro h
    exact sample_of_publicRules_eq_nil h supply

end Resolved

theorem samples_are_productions {text : String} {settings : Settings}
    (hpunctuation : settings.punctuation = {}) (h : load text settings = .ok g) (supply : Supply) :
    (∀ texts s, g.productions = .ok texts → (g.sample.run supply).1 = .ok s → s ∈ texts) ∧
      ((g.sample.run supply).1 = .error .emptyChoice ↔ g.publicRules = []) ∧
      ∀ f, (g.sample.run supply).1 = .error f →
        f = .emptyChoice ∨ f = .zeroWeights ∨ f = .emptySentence := by
  obtain ⟨source, -, -, -, hmeaning⟩ := exists_source_of_load hpunctuation h
  obtain ⟨hresolved, -⟩ := hmeaning _ (denote_sentences source.rules)
  refine ⟨?_, hresolved.sample_eq_emptyChoice_iff, ?_⟩
  · intro texts s htexts hs
    exact hresolved.mem_of_sample htexts hs
  · intro f hf
    rcases hresolved.yields_sample.of_error hf with ⟨hchoice, -⟩ | hzero | hempty
    · exact .inl hchoice
    · exact .inr (.inl hzero)
    · exact .inr (.inr hempty)

theorem samples_are_productions_of_greeting :
    let text := "public <greet> = ((hi|) <who> | bye [<who>]); <who> = you [all];"
    let settings : Settings := {}
    let supply : Supply := [7, 200, 3, 9]
    settings.punctuation = {} ∧ ∃ g, load text settings = .ok g ∧
      (∀ texts s, g.productions = .ok texts → (g.sample.run supply).1 = .ok s → s ∈ texts) ∧
      ((g.sample.run supply).1 = .error .emptyChoice ↔ g.publicRules = []) ∧
      ∀ f, (g.sample.run supply).1 = .error f →
        f = .emptyChoice ∨ f = .zeroWeights ∨ f = .emptySentence := by
  intro text settings supply
  have hpunctuation : settings.punctuation = {} := rfl
  obtain ⟨g, hload⟩ := exists_load_greeting hpunctuation
  exact ⟨rfl, g, hload, samples_are_productions hpunctuation hload supply⟩

end Grammar

end SpokenGrammar
