import Mathlib.Data.List.Permutation
import SpokenGrammar.Proofs.Graph.Reweighing
import SpokenGrammar.Proofs.Rule.Compiled
import SpokenGrammar.Proofs.Rule.Sentences
import SpokenGrammar.Proofs.Token.Tags

namespace SpokenGrammar

variable {p : Punctuation} {expression : String} {isPublic : Bool} {r : Rule} {body : List Token}

namespace Rule

theorem mem_productions_of_unresolved (hspan : r.graph.Spanning)
    (hunweighted : r.graph.Unweighted) {ss : List String} (hss : r.productions none = .ok ss)
    (s : String) : s ∈ ss ↔ s ≠ "" ∧ s.toList ∈ r.graph.language spelled := by
  have hnames : ∀ i name, r.graph.Touched i → r.graph.tokens[i]? = some (.reference name) →
      spelled name = {name.toList} := fun _ _ _ _ => rfl
  rw [mem_productions_of_spanning hspan hss, Graph.mem_language_of_names hspan hnames hunweighted,
    r.spells_iff]

theorem exists_account_of_compile (h : compile p expression isPublic = .ok r)
    (hne : expression.toList ≠ [])
    (hrejoins : Token.Rejoins 0 (Lexeme.gather p {} (Lexeme.all p expression.toList))) :
    ∃ o, Account.opened.run
        (Lexeme.signs (Lexeme.spoken p) (Lexeme.all p expression.toList)) = some o ∧
      o.levels.length ≤ 1 ∧ ∃ ss, r.productions none = .ok ss ∧
        ∀ s, s ∈ ss ↔ s ≠ "" ∧ s.toList ∈ o.said := by
  obtain ⟨tokens, g, htokens, hg, hweights, -⟩ := compile_eq_ok h
  obtain ⟨-, hfits, hgather⟩ := (Token.read_eq_ok hne).mp htokens
  obtain ⟨body, rfl, hbody⟩ := Token.exists_body_of_read hne htokens
  obtain ⟨-, hgather⟩ := List.cons.inj hgather
  change body ++ [Token.finish] = _ at hgather
  rw [← hgather] at hrejoins
  have hspan := Graph.spans_ofTokens hg hbody hrejoins
  obtain ⟨o, ho, hlevels, hsaid⟩ := Graph.run_ofTokens hg hbody hrejoins spelled
  rw [hgather, Lexeme.run_gather Draft.holds_empty hfits, Account.say_nil,
    Lexeme.signs_spoken] at ho
  have hspan' : r.graph.Spanning := ⟨_, _, hspan.applyWeights hweights⟩
  obtain ⟨ss, hss⟩ := exists_productions_of_spanning hspan'
  refine ⟨o, ho, hlevels, ss, hss, fun s => ?_⟩
  rw [mem_productions_of_unresolved hspan' (Graph.unweighted_applyWeights hweights) hss,
    hspan.language_applyWeights hweights, hsaid]

theorem isAmount_of_compile (h : compile p expression isPublic = .ok r)
    (hne : expression.toList ≠ []) :
    ∀ l ∈ Lexeme.all p expression.toList, ∀ inside ∈ l.weight?,
      isAmount inside = true := by
  obtain ⟨tokens, g, htokens, hg, hweights, -⟩ := compile_eq_ok h
  obtain ⟨-, hfits, rfl⟩ := (Token.read_eq_ok hne).mp htokens
  obtain ⟨parts, hparts, -⟩ := Attempt.map_eq_ok.mp hweights
  rw [Graph.tokens_of_ofTokens hg] at hparts
  refine ((Lexeme.takeWeight_gather Draft.holds_empty hfits).mp fun t ht => ?_).2
  obtain ⟨part, -, hpart⟩ := (Attempt.exists_of_mapM hparts).2 t (List.mem_cons_of_mem _ ht)
  exact ⟨part, hpart⟩

theorem exists_compile {tokens : List Token} {o : Account Char} (isPublic : Bool)
    (hne : expression.toList ≠ []) (hread : Token.read p expression = .ok tokens)
    (ho : Account.opened.run
      (Lexeme.signs (Lexeme.spoken p) (Lexeme.all p expression.toList)) = some o)
    (hlevels : o.levels.length ≤ 1)
    (hamounts : ∀ l ∈ Lexeme.all p expression.toList, ∀ inside ∈ l.weight?,
      isAmount inside = true) :
    ∃ r, compile p expression isPublic = .ok r := by
  obtain ⟨-, hfits, rfl⟩ := (Token.read_eq_ok hne).mp hread
  obtain ⟨body, hbody, hinner⟩ := Token.exists_body_of_read hne hread
  obtain ⟨-, hgather⟩ := List.cons.inj hbody
  change _ = body ++ [Token.finish] at hgather
  have hstart : ∀ t ∈ Lexeme.gather p {} (Lexeme.all p expression.toList), t ≠ .start := by
    intro t ht
    rw [hgather] at ht
    exact List.forall_mem_append.mpr ⟨hinner, by simp⟩ t ht
  rw [← Account.say_nil Account.opened, ← Lexeme.signs_spoken,
    ← Lexeme.run_gather Draft.holds_empty hfits] at ho
  obtain ⟨g, hg⟩ := Graph.exists_ofTokens hstart ho hlevels
  have htaken := (Lexeme.takeWeight_gather Draft.holds_empty hfits).mpr
    ⟨fun inside h => (Option.not_mem_none inside h).elim, hamounts⟩
  obtain ⟨parts, hparts⟩ : ∃ parts, g.tokens.mapM (Token.takeWeight p.weight) = .ok parts := by
    refine Attempt.exists_mapM fun t ht => ?_
    rw [Graph.tokens_of_ofTokens hg] at ht
    rcases List.mem_cons.mp ht with rfl | ht
    · exact ⟨_, rfl⟩
    · exact htaken t ht
  have hweights : ∃ g', g.applyWeights p.weight = .ok g' :=
    ⟨_, Attempt.map_eq_ok.mpr ⟨parts, hparts, rfl⟩⟩
  obtain ⟨g', hg'⟩ := hweights
  exact ⟨_, Attempt.bind_eq_ok.mpr ⟨_, hread, Attempt.bind_eq_ok.mpr
    ⟨g, hg, Attempt.bind_eq_ok.mpr ⟨g', hg', rfl⟩⟩⟩⟩

end Rule

namespace Rule

theorem exists_untagged (hdelimiters : p.tag.1 ≠ p.tag.2)
    (h : compile p expression isPublic = .ok r)
    (hread : Token.read p expression = .ok (body ++ [.mark .terminator, .finish]))
    (hplain : ∀ l ∈ Lexeme.all p expression.toList, l.Plain p) :
    ∃ r' ss ss', ∃ said said' : Language Char,
      compile p (untagged p expression) isPublic = .ok r' ∧
      r.productions none = .ok ss ∧ r'.productions none = .ok ss' ∧
      (∀ s, s ∈ ss ↔ s ≠ "" ∧ s.toList ∈ said) ∧ (∀ s, s ∈ ss' ↔ s ≠ "" ∧ s.toList ∈ said') ∧
      ∀ w, w ∈ said' ↔ ∃ v ∈ said, w = withoutTags p.tag v := by
  have hne : expression.toList ≠ [] := by
    intro hnil
    rw [Token.read, hnil] at hread
    have hlength := congrArg List.length (Except.ok.inj hread)
    simp at hlength
  obtain ⟨-, -, htokens⟩ := (Token.read_eq_ok hne).mp hread
  have hrejoins : Token.Rejoins 0 (Lexeme.gather p {} (Lexeme.all p expression.toList)) := by
    have hall := Token.rejoins_of_terminated 0 body
    rw [htokens] at hall
    exact hall.2
  obtain ⟨o, ho, hlevels, ss, hss, hmem⟩ := exists_account_of_compile h hne hrejoins
  -- Both expressions have the same routes; in one of them the tags say nothing.
  obtain ⟨routes, hroutes, hsaid, hsame⟩ := Lexeme.exists_routes ho
  obtain ⟨o', ho', hlevels', hsaid'⟩ := hsame (Lexeme.bare p)
  have hne' := Token.untagged_ne_nil (m := .terminator) hne hread (by simp)
  have hread' := Token.read_untagged hne hne' hread
  rw [← Lexeme.run_untagged, ← all_untagged] at ho'
  have hamounts : ∀ l ∈ Lexeme.all p (untagged p expression).toList,
      ∀ inside ∈ l.weight?, isAmount inside = true := by
    rw [all_untagged]
    exact fun l hl => isAmount_of_compile h hne l (List.mem_of_mem_filter hl)
  obtain ⟨r', hr'⟩ :=
    exists_compile isPublic hne' hread' ho' (hlevels'.trans_le hlevels) hamounts
  have hrejoins' : Token.Rejoins 0
      (Lexeme.gather p {} (Lexeme.all p (untagged p expression).toList)) := by
    refine (Token.rejoins_congr ?_).mp hrejoins
    rw [Lexeme.marks_gather, Lexeme.marks_gather, all_untagged, Lexeme.marks_untagged]
  obtain ⟨o'', ho'', -, ss', hss', hmem'⟩ := exists_account_of_compile hr' hne' hrejoins'
  obtain rfl := Option.some.inj (ho'.symm.trans ho'')
  refine ⟨r', ss, ss', o.said, o'.said, hr', hss, hss', hmem, hmem', fun w => ?_⟩
  have hstrip : ∀ q ∈ routes,
      withoutTags p.tag (q.flatMap (Lexeme.spoken p)) = q.flatMap (Lexeme.bare p) := by
    intro q hq
    have hq := hroutes q hq
    exact Lexeme.withoutTags_spoken hdelimiters (fun l hl => Lexeme.readable_of_mem (hq l hl))
      fun l hl => hplain l (hq l hl)
  rw [hsaid, hsaid']
  simp only [mem_substitute_word]
  constructor
  · rintro ⟨q, hq, rfl⟩
    exact ⟨_, ⟨q, hq, rfl⟩, (hstrip q hq).symm⟩
  · rintro ⟨_, ⟨q, hq, rfl⟩, rfl⟩
    exact ⟨q, hq, hstrip q hq⟩

variable {settings : Settings}

theorem format_untagged (hdelimiters : settings.punctuation.tag.1 ≠ settings.punctuation.tag.2)
    (h : compile settings.punctuation expression isPublic = .ok r)
    (hread : Token.read settings.punctuation expression =
      .ok (body ++ [.mark .terminator, .finish]))
    (hplain : ∀ l ∈ Lexeme.all settings.punctuation expression.toList,
      l.Plain settings.punctuation) :
    ∃ r' ss ss',
      compile settings.punctuation (untagged settings.punctuation expression) isPublic =
        .ok r' ∧
      r.productions none = .ok ss ∧ r'.productions none = .ok ss' ∧
      ∀ x, (∃ s ∈ ss, { settings with stripTags := true }.format s = some x) ↔
        ∃ s ∈ ss', { settings with stripTags := false }.format s = some x := by
  obtain ⟨r', ss, ss', said, said', hr', hss, hss', hmem, hmem', hsaid⟩ :=
    exists_untagged hdelimiters h hread hplain
  refine ⟨r', ss, ss', hr', hss, hss', fun x => ?_⟩
  rw [Settings.exists_format_iff hmem, Settings.exists_format_iff hmem']
  simp only [Settings.format_stripTags, String.toList_ofList, hsaid]
  constructor
  · rintro ⟨v, hv, hx⟩
    exact ⟨_, ⟨v, hv, rfl⟩, hx⟩
  · rintro ⟨_, ⟨v, hv, rfl⟩, hx⟩
    exact ⟨v, hv, hx⟩

theorem format_untagged_of_greeting :
    let settings : Settings := {}
    let expression := "hi\x7bpolite\x7d [\"(you)\" \x7bto\x7d | \\[all\\]\x7b;\x7d];"
    ∃ r body, compile settings.punctuation expression true = .ok r ∧
      settings.punctuation.tag.1 ≠ settings.punctuation.tag.2 ∧
      Token.read settings.punctuation expression =
        .ok (body ++ [.mark .terminator, .finish]) ∧
      (∀ l ∈ Lexeme.all settings.punctuation expression.toList, l.Plain settings.punctuation) ∧
      ∃ r' ss ss',
        compile settings.punctuation (untagged settings.punctuation expression) true = .ok r' ∧
        r.productions none = .ok ss ∧ r'.productions none = .ok ss' ∧
        ∀ x, (∃ s ∈ ss, { settings with stripTags := true }.format s = some x) ↔
          ∃ s ∈ ss', { settings with stripTags := false }.format s = some x := by
  intro settings expression
  have hcompiles : ((compile settings.punctuation expression true).toOption.any
      fun _ => true) = true := by decide +kernel
  have hterminated : ((Token.read settings.punctuation expression).toOption.any fun tokens =>
      [Token.mark .terminator, .finish].isSuffixOf tokens) = true := by decide +kernel
  have hplain : ∀ l ∈ Lexeme.all settings.punctuation expression.toList,
      l.Plain settings.punctuation := by
    unfold Lexeme.Plain
    decide +kernel
  obtain ⟨r, hr, -⟩ := Attempt.exists_of_any hcompiles
  obtain ⟨tokens, hread, hsuffix⟩ := Attempt.exists_of_any hterminated
  obtain ⟨body, rfl⟩ := List.isSuffixOf_iff_suffix.mp hsuffix
  exact ⟨r, body, hr, by decide, hread, hplain, format_untagged (by decide) hr hread hplain⟩

theorem literal_braces_stripped :
    let expression := "a\\\x7bb\\\x7dc;"
    ∃ r body ss, compile {} expression true = .ok r ∧
      Token.read {} expression = .ok (body ++ [.mark .terminator, .finish]) ∧
      untagged {} expression = expression ∧ r.productions none = .ok ss ∧
      (∃ s ∈ ss, ({ trim := false } : Settings).format s = some "a\x7bb\x7dc") ∧
      ¬ ∃ s ∈ ss, ({ trim := false, stripTags := true } : Settings).format s =
        some "a\x7bb\x7dc" := by
  intro expression
  have hread : Token.read {} expression =
      .ok ([.start, .text "a\x7bb\x7dc" none] ++ [.mark .terminator, .finish]) := by
    decide +kernel
  have hcheck : ((Graph.ofTokens ([.start, .text "a\x7bb\x7dc" none] ++
      [.mark .terminator, .finish])).toOption.any fun g =>
        (g.allPaths none).toOption.any (· == [[0, 1, 2, 3]])) = true := by cbv
  obtain ⟨g, hg, hcheck⟩ := Attempt.exists_of_any hcheck
  obtain ⟨ps, hps, hcheck⟩ := Attempt.exists_of_any hcheck
  obtain rfl := beq_iff_eq.mp hcheck
  have hr := compile_of_bare true hread hg (by decide)
  refine ⟨_, _, ["a\x7bb\x7dc"], hr, hread, by decide +kernel,
    productions_eq_ok.mpr ⟨_, hps, ?_⟩, by decide +kernel, by decide +kernel⟩
  simp only [List.map_singleton, record, Graph.tokens_of_ofTokens hg]
  decide +kernel

end Rule

end SpokenGrammar
