import SpokenGrammar.Proofs.Grammar.Meaning

namespace SpokenGrammar

namespace Grammar

variable {text : String} {settings : Settings} {g h : Grammar} {texts : List String}

theorem exists_productions_of_minimize (hpunctuation : settings.punctuation = {})
    (hg : load text { settings with minimize := false } = .ok g)
    (hh : load text { settings with minimize := true } = .ok h)
    (htexts : g.productions = .ok texts) : ∃ texts', h.productions = .ok texts' := by
  obtain ⟨source, table, order, hloads, hplain, hgrammar⟩ := load_eq_ok.mp hg
  obtain ⟨source', table', order', hloads', hthin, hgrammar'⟩ := load_eq_ok.mp hh
  obtain ⟨rfl, rfl, rfl⟩ := hloads.unique hloads'
  rw [hpunctuation] at hloads
  have hmeans := hloads.means (denote_sentences source.rules)
  have hlimit : h.settings.maxPaths = g.settings.maxPaths := by rw [hgrammar, hgrammar']
  rw [exists_productions_iff, hlimit]
  rintro ⟨name, r'⟩ hpublic
  obtain ⟨r, hr, hpair⟩ := hloads.exists_paired hmeans hplain hthin hpublic
  obtain ⟨l, hl⟩ := exists_productions_iff.mp ⟨texts, htexts⟩ _ hr
  exact hpair.exists_productions hl

theorem minimize_invisible (hpunctuation : settings.punctuation = {}) (text : String) :
    ((∃ g, load text { settings with minimize := false } = .ok g) ↔
      ∃ h, load text { settings with minimize := true } = .ok h) ∧
    ∀ g h texts, load text { settings with minimize := false } = .ok g →
      load text { settings with minimize := true } = .ok h →
      g.productions = .ok texts → h.productions = .ok texts := by
  have hplain : ({ settings with minimize := false } : Settings).punctuation = {} := hpunctuation
  have hthin : ({ settings with minimize := true } : Settings).punctuation = {} := hpunctuation
  constructor
  · rw [exists_load_iff hplain, exists_load_iff hthin]
  · intro g h texts hg hh htexts
    obtain ⟨texts', htexts'⟩ := exists_productions_of_minimize hpunctuation hg hh htexts
    obtain ⟨source, hsource, -, -, hmeaning⟩ := exists_source_of_load hplain hg
    obtain ⟨source', hsource', -, -, hmeaning'⟩ := exists_source_of_load hthin hh
    obtain rfl := Except.ok.inj (hsource.symm.trans hsource')
    obtain ⟨hresolved, hspeaks⟩ := hmeaning _ (denote_sentences source.rules)
    obtain ⟨hresolved', hspeaks'⟩ := hmeaning' _ (denote_sentences source.rules)
    have hsame : texts' = texts := by
      apply List.Pairwise.eq_of_mem_iff (pairwise_lt_productions htexts')
        (pairwise_lt_productions htexts)
      intro s
      rw [hresolved.mem_productions htexts, hresolved'.mem_productions htexts', hspeaks, hspeaks']
      rfl
    rw [htexts', hsame]

theorem minimize_invisible_of_greeting :
    let text := "public <greet> = ((hi|) <who> | bye [<who>]); <who> = you [all];"
    let settings : Settings := { maxPaths := none, trim := false }
    settings.punctuation = {} ∧ ∃ g h texts,
      load text { settings with minimize := false } = .ok g ∧
        load text { settings with minimize := true } = .ok h ∧
          g.productions = .ok texts ∧ h.productions = .ok texts := by
  intro text settings
  have hpunctuation : settings.punctuation = {} := rfl
  have hplain : ({ settings with minimize := false } : Settings).punctuation = {} := rfl
  obtain ⟨hiff, hsame⟩ := minimize_invisible hpunctuation text
  obtain ⟨g, hg⟩ := exists_load_greeting hplain
  obtain ⟨h, hh⟩ := hiff.mp ⟨g, hg⟩
  obtain ⟨source, -, -, hsettings, hmeaning⟩ := exists_source_of_load hplain hg
  obtain ⟨hresolved, -⟩ := hmeaning _ (denote_sentences source.rules)
  have hlimit : g.settings.maxPaths = none := by rw [hsettings]
  obtain ⟨texts, htexts⟩ := hresolved.exists_productions hlimit
  exact ⟨hpunctuation, g, h, texts, hg, hh, htexts, hsame g h texts hg hh htexts⟩

end Grammar

end SpokenGrammar
