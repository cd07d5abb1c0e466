import SpokenGrammar.Proofs.Grammar.Meaning
import SpokenGrammar.Proofs.Source.Listing

namespace SpokenGrammar

variable {r q : Rule} {t : RuleTable} {name : String}

namespace Rule

def outline (r : Rule) : Rule :=
  { r with graph := default }

theorem outline_elide (r : Rule) : r.elide.outline = r.outline :=
  rfl

theorem outline_resolve (h : r.resolve t = .ok q) : q.outline = r.outline := by
  rw [resolve_eq] at h
  obtain ⟨graph, -, rfl⟩ := Attempt.map_eq_ok.mp h
  rfl

theorem expression_of_compile {p : Punctuation} {expression : String} {isPublic : Bool}
    (h : compile p expression isPublic = .ok r) : r.expression = expression := by
  obtain ⟨tokens, -, h⟩ := Attempt.bind_eq_ok.mp h
  obtain ⟨g, -, h⟩ := Attempt.bind_eq_ok.mp h
  obtain ⟨g', -, h⟩ := Attempt.bind_eq_ok.mp h
  exact Except.ok.inj h ▸ rfl

end Rule

namespace RuleTable

def outline (t : RuleTable) : List (String × Rule) :=
  t.entries.map fun e => (e.1, e.2.outline)

theorem outline_replace (hr : t.find name = some r) (hq : q.outline = r.outline) :
    (t.replace name q).outline = t.outline := by
  rw [outline, outline, replace, List.map_map]
  refine List.map_congr_left fun e he => ?_
  rw [Function.comp, replaceEntry]
  split
  · rename_i hname
    subst hname
    have hsame : some e.2 = some r := (find_eq_some_iff.mpr he).symm.trans hr
    rw [hq, Option.some.inj hsame]
  · rfl

theorem outline_resolveAll (minimize : Bool) (names : List String) (t : RuleTable) :
    (t.resolveAll minimize names).1.outline = t.outline := by
  fun_induction resolveAll minimize names t with
  | case1 => rfl
  | case2 x rest t hx ih => exact ih
  | case3 => rfl
  | case4 x rest t r hr q hq ih =>
    rw [ih]
    refine outline_replace hr ?_
    cases minimize with
    | true => exact (Rule.outline_elide q).trans (Rule.outline_resolve hq)
    | false => exact Rule.outline_resolve hq

end RuleTable

namespace Grammar

variable {g h : Grammar} {p : Punctuation} {text : String} {settings : Settings}
  {ds : List Definition}

theorem toText_eq (g : Grammar) :
    g.toText = String.join (g.rules.outline.map fun e => ruleLine e.1 e.2) := by
  rw [toText, RuleTable.outline, List.map_map]
  rfl

theorem toList_ruleLine {d : Definition} {e : String × Rule} (h : d.Enters p e) :
    (ruleLine e.1 e.2).toList = d.line := by
  obtain ⟨hname, hcompile⟩ := h
  obtain ⟨-, -, -, -, -, hsame, -⟩ := Rule.compile_eq_ok hcompile
  rw [ruleLine, hname, Rule.expression_of_compile hcompile, hsame, Definition.line]
  cases hpublic : d.isPublic <;> simp [Definition.publicPart, Source.publicPart, hpublic]

theorem toList_toText (h : List.Forall₂ (Definition.Enters p) ds g.rules.entries) :
    g.toText.toList = listing ds := by
  rw [toText, String.toList_join, List.flatMap_map]
  generalize g.rules.entries = entries at h
  induction h with
  | nil => rfl
  | cons he _ ih =>
    rw [List.flatMap_cons, ih, toList_ruleLine he]
    rfl

theorem load_toText (h : load text settings = .ok g) :
    load g.toText settings = .ok { g with name := none, imports := [] } ∧
      ({ g with name := none, imports := [] } : Grammar).productions = g.productions := by
  obtain ⟨source, table, order, hloads, hrules, hg⟩ := load_eq_ok.mp h
  have houtline : g.rules.outline = table.outline := by
    have hkept := RuleTable.outline_resolveAll settings.minimize order table
    rwa [hrules] at hkept
  have hprinted : g.toText = String.ofList (listing source.rules) := by
    have hraw := toList_toText (g := { rules := table }) hloads.entries
    rw [← hraw, String.ofList_toList, toText_eq, toText_eq, houtline]
  refine ⟨load_eq_ok.mpr ⟨⟨none, [], source.rules⟩, table, order, ?_, hrules, ?_⟩, rfl⟩
  · rw [hprinted]
    exact ⟨Source.read_listing hloads.read, hloads.unrepeated, hloads.entered, hloads.ordered⟩
  · rw [hg]

theorem load_toText_of_greeting :
    let text := "#JSGF V1.0; grammar hello; import <all.*>; // <who> = ;\npublic/**/<greet>" ++
      " =\thi <who> | \"bye;\" \\; \x7b/* x\x7d;\n<who>=you/2/|(all);"
    let settings : Settings := { minimize := false }
    ∃ g, load text settings = .ok g ∧
      load g.toText settings = .ok { g with name := none, imports := [] } ∧
        ({ g with name := none, imports := [] } : Grammar).productions = g.productions := by
  intro text settings
  let rules : List Definition := [⟨true, "<greet>", "hi <who> | \"bye;\" \\; \x7b/* x\x7d;"⟩,
    ⟨false, "<who>", "you/2/|(all);"⟩]
  have hread : Source.read text = .ok ⟨some "hello", ["<all.*>"], rules⟩ := by decide +kernel
  have hpunctuation : settings.punctuation = {} := rfl
  obtain ⟨g, hg⟩ :=
    exists_load_of_check hpunctuation hread (by decide +kernel) (by decide +kernel)
  exact ⟨g, hg, load_toText hg⟩

end Grammar

end SpokenGrammar
