import SpokenGrammar.Proofs.Grammar.Loading
import SpokenGrammar.Proofs.Source.Expression
import SpokenGrammar.Proofs.Source.Manuscript
import SpokenGrammar.Proofs.Source.Sentences

namespace SpokenGrammar

variable {text : String} {source : Source} {settings : Settings} {table : RuleTable}
  {order : List String} {ρ ρ' : String → Language Char}

theorem Definition.names_of_forall₂ {p : Punctuation} {ds : List Definition}
    {es : List (String × Rule)} (h : List.Forall₂ (Enters p) ds es) :
    ds.map Definition.name = es.map (·.1) := by
  induction h with
  | nil => rfl
  | cons he _ ih => rw [List.map_cons, List.map_cons, he.1, ih]

namespace Grammar

section Loads

variable (h : Loads text {} source table order)
include h

theorem Loads.nodup_names : (source.rules.map Definition.name).Nodup := by
  rw [Definition.names_of_forall₂ h.entries]
  exact table.distinct

theorem Loads.exists_phrase {d : Definition} {e : String × Rule} (hd : d ∈ source.rules)
    (he : d.Enters {} e) : ∃ p : Phrase, d.Reads p ∧ e.2.Means p := by
  obtain ⟨tokens, -, htokens, -⟩ := Rule.compile_eq_ok he.2
  obtain ⟨body, rfl, hbody, u, hu, hread⟩ := Source.exists_body_of_mem_rules h.read hd htokens
  obtain ⟨p, hp, hmeans⟩ := Rule.exists_means_of_compile he.2 htokens hbody hread
  exact ⟨p, ⟨u, hp, hu⟩, hmeans⟩

theorem Loads.exists_reads {d : Definition} (hd : d ∈ source.rules) :
    ∃ p : Phrase, d.Reads p ∧
      sentences source.rules d.name = p.language (sentences source.rules) := by
  obtain ⟨e, -, he⟩ := (exists_of_forall₂ h.entries).2 d hd
  obtain ⟨p, hp, -⟩ := h.exists_phrase hd he
  exact ⟨p, hp, sentences_eq h.nodup_names hd hp⟩

theorem Loads.means (hρ : denote source.rules ρ = ρ) : table.Means ρ := by
  intro name r hr
  obtain ⟨d, hd, he⟩ := (exists_of_forall₂ h.entries).1 _ (RuleTable.find_eq_some_iff.mp hr)
  obtain ⟨p, hreads, hp⟩ := h.exists_phrase hd he
  refine ⟨p, hp, ?_⟩
  obtain rfl : name = d.name := he.1
  rw [← denote_eq h.nodup_names hd hreads, hρ]

theorem Loads.public_iff (name : String) :
    (∃ r, table.find name = some r ∧ r.isPublic = true) ↔
      ∃ d ∈ source.rules, d.isPublic = true ∧ d.name = name := by
  constructor
  · rintro ⟨r, hr, hpublic⟩
    obtain ⟨d, hd, hname, hcompile⟩ :=
      (exists_of_forall₂ h.entries).1 _ (RuleTable.find_eq_some_iff.mp hr)
    obtain ⟨-, -, -, -, -, hsame, -⟩ := Rule.compile_eq_ok hcompile
    exact ⟨d, hd, hsame ▸ hpublic, hname.symm⟩
  · rintro ⟨d, hd, hpublic, rfl⟩
    obtain ⟨⟨name, r⟩, he, hname, hcompile⟩ := (exists_of_forall₂ h.entries).2 d hd
    obtain ⟨-, -, -, -, -, hsame, -⟩ := Rule.compile_eq_ok hcompile
    obtain rfl : name = d.name := hname
    exact ⟨r, RuleTable.find_eq_some_iff.mpr he, hsame.trans hpublic⟩

end Loads

theorem exists_load_iff (hpunctuation : settings.punctuation = {}) :
    (∃ g, load text settings = .ok g) ↔
      ∃ source table order, Loads text {} source table order ∧ table.Complete order := by
  simp only [load_eq_ok, hpunctuation]
  constructor
  · rintro ⟨g, source, table, order, hloads, hrules, -⟩
    have hmeans := hloads.means (denote_sentences source.rules)
    exact ⟨source, table, order, hloads,
      (hloads.exists_resolveAll_iff hmeans settings.minimize).mp ⟨g.rules, hrules⟩⟩
  · rintro ⟨source, table, order, hloads, hcomplete⟩
    have hmeans := hloads.means (denote_sentences source.rules)
    obtain ⟨rules, hrules⟩ :=
      (hloads.exists_resolveAll_iff hmeans settings.minimize).mpr hcomplete
    let g : Grammar := ⟨source.name, source.imports, rules, settings⟩
    exact ⟨g, source, table, order, hloads, hrules, rfl⟩

theorem exists_load_of_check {source : Source} (hpunctuation : settings.punctuation = {})
    (hread : Source.read text = .ok source)
    (hunrepeated : repeated (source.rules.map Definition.name) = [])
    (hcheck : ((source.rules.foldlM (Definition.enter {}) .empty).toOption.any fun table =>
      ({ rules := table } : Grammar).compositionOrder.toOption.any fun levels =>
        levels.reverse.eraseDups.all fun name =>
          (table.references name).all (· ∈ table.names)) = true) :
    ∃ g, load text settings = .ok g := by
  obtain ⟨table, htable, hcheck⟩ := Attempt.exists_of_any hcheck
  obtain ⟨levels, hlevels, hcheck⟩ := Attempt.exists_of_any hcheck
  have hcomplete : table.Complete levels.reverse.eraseDups := by
    intro name hname x hx
    simpa using List.all_eq_true.mp (List.all_eq_true.mp hcheck name hname) x hx
  exact (exists_load_iff hpunctuation).mpr
    ⟨source, table, _, ⟨hread, hunrepeated, htable, levels, hlevels, rfl⟩, hcomplete⟩

theorem exists_load_greeting (hpunctuation : settings.punctuation = {}) :
    let text := "public <greet> = ((hi|) <who> | bye [<who>]); <who> = you [all];"
    ∃ g, load text settings = .ok g := by
  intro text
  let rules : List Definition :=
    [⟨true, "<greet>", "((hi|) <who> | bye [<who>]);"⟩, ⟨false, "<who>", "you [all];"⟩]
  have hread : Source.read text = .ok ⟨none, [], rules⟩ := by decide +kernel
  exact exists_load_of_check hpunctuation hread (by decide +kernel) (by decide +kernel)

theorem exists_source_of_load {g : Grammar} (hpunctuation : settings.punctuation = {})
    (h : load text settings = .ok g) :
    ∃ source, Source.read text = .ok source ∧
      (∀ d ∈ source.rules, ∃ p : Phrase, d.Reads p ∧
        sentences source.rules d.name = p.language (sentences source.rules)) ∧
      g.settings = settings ∧ ∀ ρ, denote source.rules ρ = ρ → g.Resolved ρ ∧
        ∀ s, g.Speaks ρ s ↔ ∃ d ∈ source.rules, d.isPublic = true ∧
          ∃ w : String, w.toList ∈ ρ d.name ∧ settings.format w = some s := by
  obtain ⟨source, table, order, hloads, hrules, hg⟩ := load_eq_ok.mp h
  have hsettings : g.settings = settings := congrArg Grammar.settings hg
  rw [hpunctuation] at hloads
  refine ⟨source, hloads.read, fun d hd => hloads.exists_reads hd, hsettings, fun ρ hρ => ?_⟩
  have hmeans := hloads.means hρ
  refine ⟨hloads.resolved hmeans hrules, fun s => ?_⟩
  have hpublic : ∀ name, (∃ r, (name, r) ∈ g.publicRules) ↔
      ∃ d ∈ source.rules, d.isPublic = true ∧ d.name = name := by
    intro name
    rw [hloads.exists_public_iff hmeans hrules, hloads.public_iff]
  rw [Speaks, hsettings]
  constructor
  · rintro ⟨⟨name, r⟩, he, w, hw, hs⟩
    obtain ⟨d, hd, htrue, rfl⟩ := (hpublic name).mp ⟨r, he⟩
    exact ⟨d, hd, htrue, w, hw, hs⟩
  · rintro ⟨d, hd, htrue, w, hw, hs⟩
    obtain ⟨r, he⟩ := (hpublic d.name).mpr ⟨d, hd, htrue, rfl⟩
    exact ⟨(d.name, r), he, w, hw, hs⟩

theorem productions_eq_sentences {g : Grammar} (hpunctuation : settings.punctuation = {})
    (hlimit : settings.maxPaths = none) (h : load text settings = .ok g) :
    ∃ source, Source.read text = .ok source ∧
      (∀ m : Manuscript, m.text = text → source = m.source) ∧
      (∀ d ∈ source.rules, ∃ p : Phrase, d.Reads p ∧
        sentences source.rules d.name = p.language (sentences source.rules)) ∧
      ∃ texts, g.productions = .ok texts ∧ texts.Pairwise (· < ·) ∧
        ∀ s, s ∈ texts ↔ ∃ d ∈ source.rules, d.isPublic = true ∧
          ∃ w : String, w.toList ∈ sentences source.rules d.name ∧ settings.format w = some s := by
  obtain ⟨source, hsource, hreads, hsettings, hmeaning⟩ := exists_source_of_load hpunctuation h
  obtain ⟨hresolved, hspeaks⟩ := hmeaning _ (denote_sentences source.rules)
  obtain ⟨texts, htexts⟩ := hresolved.exists_productions (hsettings ▸ hlimit)
  refine ⟨source, hsource, ?_, hreads, texts, htexts, pairwise_lt_productions htexts, fun s => ?_⟩
  · rintro m rfl
    exact Except.ok.inj (hsource.symm.trans (Source.read_of_takes m.takes_text))
  · rw [hresolved.mem_productions htexts, hspeaks]

namespace Greeting

def rules : List Definition :=
  [⟨true, "<greet>", "(/2/\"hi\"|) <who>|[\"bye\"]\\;;"⟩, ⟨false, "<who>", "\"you\"\x7ball\x7d;"⟩]

def who : Phrase :=
  .only (.cons (.text "you" none) (.cons (.text "\x7ball\x7d" none) .nil))

def hi : Phrase :=
  .or (.cons (.text "" none) (.cons (.text "hi" none) .nil)) (.only .nil)

def bye : Phrase :=
  .only (.cons (.text "bye" none) .nil)

def greet : Phrase :=
  .or (.cons (.group hi) (.cons (.text " " none) (.cons (.reference "<who>") .nil)))
    (.only (.cons (.optional bye) (.cons (.text ";" none) .nil)))

theorem reads_who : Definition.Reads ⟨false, "<who>", "\"you\"\x7ball\x7d;"⟩ who :=
  ⟨_, .only (.cons (.quoted "you".toList (by decide))
    (.cons (.tag "all".toList (by decide)) .nil)), by decide⟩

theorem written_hi : hi.Written "/2/\"hi\"|".toList :=
  .or (.cons (.weight ['2'] (by decide)) (.cons (.quoted "hi".toList (by decide)) .nil))
    (.only .nil)

theorem written_bye : bye.Written "\"bye\"".toList :=
  .only (.cons (.quoted "bye".toList (by decide)) .nil)

theorem reads_greet :
    Definition.Reads ⟨true, "<greet>", "(/2/\"hi\"|) <who>|[\"bye\"]\\;;"⟩ greet :=
  ⟨_, .or (.cons (.group written_hi) (.cons (.bare ' ' (by decide))
      (.cons (.reference "who".toList (by decide)) .nil)))
    (.only (.cons (.optional written_bye) (.cons (.escaped ';') .nil))), by decide⟩

theorem mem_singleton_word {w v : List Char} : w ∈ ({v} : Language Char) ↔ v = w :=
  eq_comm

theorem mem_who (w : List Char) :
    w ∈ sentences rules "<who>" ↔ w = "you\x7ball\x7d".toList := by
  rw [sentences_eq (by decide) (d := ⟨false, "<who>", _⟩) (by simp [rules]) reads_who]
  simp [who, Phrase.language, Clause.language, Atom.language, unweighted, Language.mem_mul,
    mem_singleton_word, eq_comm]

theorem mem_greet (w : String) : w.toList ∈ sentences rules "<greet>" ↔
    w ∈ ["hi you\x7ball\x7d", " you\x7ball\x7d", "bye;", ";"] := by
  rw [sentences_eq (by decide) (d := ⟨true, "<greet>", _⟩) (by simp [rules]) reads_greet]
  simp [greet, hi, bye, Phrase.language, Clause.language, Atom.language, unweighted,
    Language.mem_mul, Language.mem_add, Language.mem_one, mem_singleton_word, mem_who, or_assoc,
    ← String.toList_inj, eq_comm]

theorem exists_public_iff (said : String → Prop) :
    (∃ d ∈ rules, d.isPublic = true ∧ said d.name) ↔ said "<greet>" := by
  simp [rules]

end Greeting

theorem productions_eq_sentences_of_greeting :
    let text := "public <greet> = (/2/\"hi\"|) <who>|[\"bye\"]\\;;<who> = \"you\"\x7ball\x7d;"
    let settings : Settings := { maxPaths := none, stripTags := true }
    settings.punctuation = {} ∧ settings.maxPaths = none ∧ ∃ g, load text settings = .ok g ∧
      g.productions = .ok [";", "bye;", "hi you", "you"] := by
  intro text settings
  have hread : Source.read text = .ok ⟨none, [], Greeting.rules⟩ := by decide +kernel
  obtain ⟨g, hload⟩ : ∃ g, load text settings = .ok g :=
    exists_load_of_check rfl hread (by decide +kernel) (by decide +kernel)
  obtain ⟨source, hsource, -, -, texts, htexts, hsorted, hmem⟩ :=
    productions_eq_sentences rfl rfl hload
  obtain rfl := Except.ok.inj (hread.symm.trans hsource)
  refine ⟨rfl, rfl, g, hload, htexts.trans (congrArg _ ?_)⟩
  refine hsorted.eq_of_mem_iff (by decide) fun s => ?_
  have hformat : ["hi you\x7ball\x7d", " you\x7ball\x7d", "bye;", ";"].filterMap settings.format =
      ["hi you", "you", "bye;", ";"] := by decide +kernel
  have hperm : ["hi you", "you", "bye;", ";"].Perm [";", "bye;", "hi you", "you"] := by decide
  rw [hmem, ← hperm.mem_iff, ← hformat, List.mem_filterMap, Greeting.exists_public_iff fun name =>
    ∃ w : String, w.toList ∈ sentences Greeting.rules name ∧ settings.format w = some s]
  exact exists_congr fun w => and_congr_left fun _ => Greeting.mem_greet w

end Grammar

end SpokenGrammar
