import SpokenGrammar.Proofs.Attempt
import SpokenGrammar.Proofs.Graph.Branches
import SpokenGrammar.Proofs.Graph.Language
import SpokenGrammar.Proofs.Graph.Weighing
import SpokenGrammar.Proofs.Phrase.Nesting
import SpokenGrammar.Proofs.Phrase.Paths
import SpokenGrammar.Proofs.Phrase.Written
import SpokenGrammar.Proofs.Repetition
import SpokenGrammar.Rule.Basic
import SpokenGrammar.Text.Blank

namespace SpokenGrammar

theorem Carries.unweighted {delimiter : Char} {t rest : String} {span : Span} {w : Float}
    (h : Carries delimiter t span rest w) : unweighted t (some span) = rest.toList := by
  cases h with
  | intro hslice => rw [SpokenGrammar.unweighted, hslice, String.toList_ofList]

structure Token.Bared (t t' : Token) : Prop where
  language : ∀ ρ, t'.language ρ = t.language ρ
  reference : ∀ name, t' = .reference name ↔ t = .reference name
  weight : ∀ s weight, t' = .text s weight → weight = none

theorem Token.bared_of_takeWeight {t t' : Token} {delimiter : Char} {w : Option Float}
    (h : t.takeWeight delimiter = .ok (t', w)) : t.Bared t' := by
  cases hspan : t.annotation? with
  | none =>
    rw [takeWeight_unannotated hspan] at h
    obtain ⟨rfl, -⟩ := Prod.mk.inj (Except.ok.inj h)
    refine ⟨fun _ => rfl, fun _ => Iff.rfl, ?_⟩
    rintro s weight rfl
    cases weight with
    | none => rfl
    | some span => cases hspan
  | some annotation =>
    obtain rfl := annotation?_eq_some_iff.mp hspan
    obtain ⟨rest, n, hcarries, rfl, -⟩ := takeWeight_annotated.mp h
    refine ⟨fun ρ => ?_, by simp, fun _ _ heq => (Token.text.inj heq).2.symm⟩
    rw [Token.language, Token.language, hcarries.unweighted]
    rfl

namespace Graph

variable {g h : Graph} {delimiter : Char}

theorem joins_applyWeights (hw : g.applyWeights delimiter = .ok h) (i j : Nat) :
    h.Joins i j ↔ g.Joins i j := by
  obtain ⟨parts, -, rfl⟩ := Attempt.map_eq_ok.mp hw
  rw [Joins, Joins, List.map_map]
  have hends : Edge.ends ∘ Edge.weighTarget (parts.map (·.2)) = Edge.ends :=
    funext (Edge.ends_weighTarget _)
  rw [hends]

theorem bared_applyWeights (hw : g.applyWeights delimiter = .ok h) :
    List.Forall₂ Token.Bared g.tokens h.tokens :=
  (forall₂_applyWeights hw).imp fun _ _ ⟨_, htaken⟩ => Token.bared_of_takeWeight htaken

theorem Spans.of_joins {s t : Nat} (hspan : g.Spans s t) (hj : ∀ i j, h.Joins i j ↔ g.Joins i j)
    (hlength : h.tokens.length = g.tokens.length) : h.Spans s t := by
  have htouched : ∀ i, h.Touched i ↔ g.Touched i := fun i => by simp only [Touched, hj]
  obtain ⟨hranked, hwithin, hentered, hexited, hsource, hsink, hstart⟩ := hspan
  simp only [← hj] at hranked hwithin hentered hexited hsource hsink
  simp only [← htouched] at hentered hexited hstart
  exact ⟨hranked, hlength ▸ hwithin, hentered, hexited, hsource, hsink, hstart⟩

theorem Spans.paths_of_joins {s t : Nat} (hspan : g.Spans s t) (hspan' : h.Spans s t)
    (hj : ∀ i j, h.Joins i j ↔ g.Joins i j) : h.paths = g.paths := by
  have hjoins : h.Joins = g.Joins := funext fun i => funext fun j => propext (hj i j)
  ext p
  rw [hspan.mem_paths, hspan'.mem_paths, hjoins]

end Graph

structure Rule.Means (r : Rule) (p : Phrase) : Prop where
  spanning : r.graph.Spanning
  language : ∀ ρ, r.graph.language ρ = p.language ρ
  unweighted : r.graph.Unweighted
  referred : ∀ (i : Nat) (name : String), r.graph.tokens[i]? = some (.reference name) →
    name ∈ r.references
  distinct : r.references.Nodup
  legible : ∀ name ∈ r.references, Text.allBlank name.toList = false

namespace Graph

variable {g h : Graph} {p : Phrase} {delimiter : Char}

theorem language_ofTokens
    (hg : ofTokens (.start :: p.tokens ++ [.mark .terminator, .finish]) = .ok g)
    (ρ : String → Language Char) : g.language ρ = p.language ρ := by
  obtain ⟨a, es, hclosing⟩ := Assembly.exists_closing hg
  have hall : Spells ρ (g.letter ρ) 0 (.start :: p.tokens ++ [.mark .terminator, .finish]) := by
    intro k t ht
    rw [Nat.zero_add]
    exact letter_eq (hclosing.tokens ▸ ht)
  have hstart : g.letter ρ 0 = 1 := Spells.head hall
  have hrest : Spells ρ (g.letter ρ) 1 (p.tokens ++ [.mark .terminator, .finish]) :=
    Spells.tail hall
  have hterminator : g.letter ρ (p.tokens.length + 1) = 1 := by
    rw [Nat.add_comm]
    exact hrest.right.head
  have hfinish : g.letter ρ (p.tokens.length + 2) = 1 := by
    rw [show p.tokens.length + 2 = 1 + p.tokens.length + 1 by omega]
    exact hrest.right.tail.head
  have hspan := spans_of_terminated hg fun t ht => (p.isInner_of_mem ht).1
  rw [language, hclosing.paths_eq hspan, substitute_mul, substitute_mul, substitute_mul,
    substitute_letter, substitute_letter, substitute_letter, hstart, hterminator, hfinish,
    p.substitute_routes hrest.left, one_mul, mul_one, mul_one]

theorem run_terminated {body : List Token}
    (hg : ofTokens (.start :: body ++ [.mark .terminator, .finish]) = .ok g)
    (hbody : ∀ t ∈ body, t ≠ .start) (ρ : String → Language Char) :
    ∃ o, Account.opened.run
        ((body ++ [Token.mark .terminator, .finish]).map (Token.sign ρ)) = some o ∧
      o.levels.length ≤ 1 ∧ o.said = g.language ρ := by
  have hsplit : body ++ [Token.mark .terminator, .finish] =
      body ++ [Token.mark .terminator] ++ [.finish] := by simp
  have hrejoins := Token.rejoins_of_terminated 0 body
  rw [List.cons_append, hsplit, ← List.cons_append] at hg
  rw [hsplit] at hrejoins ⊢
  exact run_ofTokens hg (List.forall_mem_append.mpr ⟨hbody, by simp⟩) hrejoins ρ

section Lexemes

variable {ls : List Lexeme} {body : List Token}

theorem isInner_of_gather (hbody : ∀ t ∈ body, t.IsInner)
    (hls : Lexeme.gather {} {} ls = body ++ [.finish]) :
    ∀ t ∈ ls.map (Lexeme.alone {}), t.IsInner := by
  intro t ht
  obtain ⟨l, hl, rfl⟩ := List.mem_map.mp ht
  refine Lexeme.isInner_alone ?_
  rintro rfl
  have hmark : .mark .terminator ∈ Lexeme.gather {} {} ls := by
    rw [← Token.mem_marks, Lexeme.marks_gather]
    exact List.mem_map.mpr ⟨_, List.mem_filterMap.mpr ⟨_, hl, rfl⟩, rfl⟩
  rw [hls] at hmark
  have hmem := (List.mem_append.mp hmark).resolve_right (by simp)
  exact (hbody _ hmem).2.2 rfl

theorem exists_phrase_of_gather
    (hg : ofTokens (.start :: body ++ [.mark .terminator, .finish]) = .ok g)
    (hbody : ∀ t ∈ body, t.IsInner) (hfits : Lexeme.Fits {} false ls)
    (hls : Lexeme.gather {} {} ls = body ++ [.finish]) :
    ∃ p : Phrase, ls.map (Lexeme.alone {}) = p.tokens ∧ ∀ ρ, g.language ρ = p.language ρ := by
  have hlone := isInner_of_gather hbody hls
  have hrun : ∀ ρ, ∃ o, Account.opened.run
      ((ls.map (Lexeme.alone {}) ++ [Token.mark .terminator, .finish]).map (Token.sign ρ)) =
        some o ∧ o.levels.length ≤ 1 ∧ o.said = g.language ρ := by
    intro ρ
    have ho := run_terminated hg (fun t ht => (hbody t ht).1) ρ
    rwa [List.map_append, Account.run_append, Lexeme.run_body hfits hls, ← Account.run_append,
      ← List.map_append] at ho
  obtain ⟨o, ho, hlevels, -⟩ := hrun fun _ => 0
  have hstart : ∀ t ∈ ls.map (Lexeme.alone {}) ++ [.mark .terminator, .finish], t ≠ .start :=
    List.forall_mem_append.mpr ⟨fun t ht => (hlone t ht).1, by simp⟩
  obtain ⟨k, hk⟩ := exists_ofTokens hstart ho hlevels
  obtain ⟨a, es, hclosing⟩ := Assembly.exists_closing hk
  obtain ⟨p, hp⟩ := hclosing.exists_phrase hlone
  refine ⟨p, hp, fun ρ => ?_⟩
  -- The two graphs end one and the same account.
  obtain ⟨o, ho, -, hsaid⟩ := hrun ρ
  obtain ⟨o', ho', -, hsaid'⟩ := run_terminated hk (fun t ht => (hlone t ht).1) ρ
  obtain rfl := Option.some.inj (ho.symm.trans ho')
  rw [hp] at hk
  rw [← language_ofTokens hk, ← hsaid', hsaid]

end Lexemes

theorem letter_applyWeights (hw : g.applyWeights delimiter = .ok h) (ρ : String → Language Char) :
    h.letter ρ = g.letter ρ := by
  funext i
  have hi := getElem?_of_forall₂ (bared_applyWeights hw) i
  rw [letter, letter]
  generalize g.tokens[i]? = x at hi
  generalize h.tokens[i]? = y at hi
  cases hi with
  | none => rfl
  | some hbared => exact hbared.language ρ

theorem Spans.applyWeights {s t : Nat} (hspan : g.Spans s t)
    (hw : g.applyWeights delimiter = .ok h) : h.Spans s t :=
  hspan.of_joins (joins_applyWeights hw) (bared_applyWeights hw).length_eq.symm

theorem Spans.language_applyWeights {s t : Nat} (hspan : g.Spans s t)
    (hw : g.applyWeights delimiter = .ok h) (ρ : String → Language Char) :
    h.language ρ = g.language ρ := by
  rw [language, letter_applyWeights hw,
    hspan.paths_of_joins (hspan.applyWeights hw) (joins_applyWeights hw), language]

theorem exists_bared_applyWeights (hw : g.applyWeights delimiter = .ok h) {i : Nat} {t : Token}
    (ht : h.tokens[i]? = some t) : ∃ t', g.tokens[i]? = some t' ∧ t'.Bared t := by
  have hi := getElem?_of_forall₂ (bared_applyWeights hw) i
  rw [ht] at hi
  generalize g.tokens[i]? = x at hi
  cases hi with
  | some hbared => exact ⟨_, rfl, hbared⟩

theorem unweighted_applyWeights (hw : g.applyWeights delimiter = .ok h) : h.Unweighted := by
  intro s weight hmem
  obtain ⟨i, hi⟩ := List.getElem?_of_mem hmem
  obtain ⟨t, -, hbared⟩ := exists_bared_applyWeights hw hi
  exact hbared.weight s weight rfl

end Graph

theorem Token.mem_references {tokens : List Token} {name : String} :
    name ∈ (tokens.filterMap referenceName).eraseDups ↔ .reference name ∈ tokens := by
  rw [List.mem_eraseDups, List.mem_filterMap]
  constructor
  · rintro ⟨t, ht, hname⟩
    cases t with
    | reference name' =>
      rcases Option.some.inj hname with rfl
      exact ht
    | start => cases hname
    | finish => cases hname
    | mark m => cases hname
    | text s weight => cases hname
  · intro ht
    exact ⟨_, ht, rfl⟩

namespace Rule

variable {expression : String} {isPublic : Bool} {r : Rule} {tokens body : List Token}

theorem compile_eq_ok {p : Punctuation} (h : compile p expression isPublic = .ok r) :
    ∃ tokens g, Token.read p expression = .ok tokens ∧ Graph.ofTokens tokens = .ok g ∧
      g.applyWeights p.weight = .ok r.graph ∧ r.isPublic = isPublic ∧
      r.references = (tokens.filterMap Token.referenceName).eraseDups := by
  obtain ⟨tokens, htokens, h⟩ := Attempt.bind_eq_ok.mp h
  obtain ⟨g, hg, h⟩ := Attempt.bind_eq_ok.mp h
  obtain ⟨g', hg', h⟩ := Attempt.bind_eq_ok.mp h
  rcases Except.ok.inj h with rfl
  exact ⟨tokens, g, htokens, hg, hg', rfl, rfl⟩

theorem allBlank_of_inside (inside : List Char) :
    Text.allBlank (String.ofList ('<' :: inside ++ ['>'])).toList = false := by
  rw [String.toList_ofList, Text.allBlank, List.cons_append, List.all_cons]
  exact Bool.and_eq_false_iff.mpr (.inl rfl)

theorem legible_of_compile (h : compile {} expression isPublic = .ok r) :
    ∀ name ∈ r.references, Text.allBlank name.toList = false := by
  obtain ⟨tokens, g, htokens, -, -, -, hreferences⟩ := compile_eq_ok h
  intro name hname
  rw [hreferences, Token.mem_references] at hname
  obtain ⟨inside, rfl⟩ := Token.exists_inside_of_mem_read htokens hname
  exact allBlank_of_inside inside

theorem exists_means_of_compile (h : compile {} expression isPublic = .ok r)
    (hread : Token.read {} expression = .ok (.start :: body ++ [.mark .terminator, .finish]))
    (hbody : ∀ t ∈ body, t.IsInner) {whole : Nat} {u : List Char}
    (hu : Token.readRest {} whole {} u = .ok (body ++ [.finish])) :
    ∃ p : Phrase, p.Written u ∧ r.Means p := by
  obtain ⟨tokens, g, htokens, hg, hweights, -, hreferences⟩ := compile_eq_ok h
  rcases Except.ok.inj (hread.symm.trans htokens) with rfl
  obtain ⟨hwritten, hfits, hgather⟩ := Token.readRest_eq_ok.mp hu
  obtain ⟨p, hp, hlanguage⟩ := Graph.exists_phrase_of_gather hg hbody hfits hgather
  refine ⟨p, p.written_iff.mpr ⟨_, fun l hl => Lexeme.readable_of_mem hl, hwritten, hp⟩, ?_⟩
  have hspan := Graph.spans_of_terminated hg fun t ht => (hbody t ht).1
  constructor
  · exact ⟨_, _, hspan.applyWeights hweights⟩
  · intro ρ
    rw [hspan.language_applyWeights hweights]
    exact hlanguage ρ
  · exact Graph.unweighted_applyWeights hweights
  · intro i name hi
    obtain ⟨t, ht, hbared⟩ := Graph.exists_bared_applyWeights hweights hi
    obtain rfl := (hbared.reference name).mp rfl
    rw [hreferences, Token.mem_references, ← Graph.tokens_of_ofTokens hg]
    exact List.mem_of_getElem? ht
  · rw [hreferences]
    exact nodup_eraseDups _
  · exact legible_of_compile h

end Rule

end SpokenGrammar
