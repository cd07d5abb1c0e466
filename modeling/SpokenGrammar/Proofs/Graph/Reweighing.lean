import SpokenGrammar.Proofs.Rule.Compile

namespace SpokenGrammar

theorem Edge.weighTarget_eq (weights : List (Option Float)) (e : Edge) :
    e.weighTarget weights = { e with weight := (weights[e.target]?.bind id).or e.weight } := by
  have hjoin : weights[e.target]?.bind id = weights[e.target]?.join := rfl
  rw [hjoin, weighTarget]
  split <;> rename_i h <;> rw [h] <;> rfl

namespace Graph

variable {g r : Graph} {delimiter : Char} {i : Nat}

def annotation? (g : Graph) (i : Nat) : Option (String × Span) :=
  g.tokens[i]?.bind Token.annotation?

/-- Whether `r` is `g` with its annotations taken off and their numbers on the edges. -/
structure Reweighs (delimiter : Char) (g r : Graph) : Prop where
  length : r.tokens.length = g.tokens.length
  ends : r.edges.map Edge.ends = g.edges.map Edge.ends
  bare : ∀ i, r.annotation? i = none
  kept : ∀ i, g.annotation? i = none → r.tokens[i]? = g.tokens[i]?
  cut : ∀ i t span, g.annotation? i = some (t, span) → ∃ rest w,
    Carries delimiter t span rest w ∧ r.tokens[i]? = some (.text rest none) ∧
      ∀ (k : Nat) (e : Edge), g.edges[k]? = some e → e.target = i →
        r.edges[k]? = some { e with weight := some w }
  others : ∀ (k : Nat) (e : Edge), g.edges[k]? = some e → g.annotation? e.target = none →
    r.edges[k]? = some e

theorem annotation?_eq_some_iff {t : String} {span : Span} :
    g.annotation? i = some (t, span) ↔ g.tokens[i]? = some (.text t (some span)) := by
  rw [annotation?, Option.bind_eq_some_iff]
  simp only [Token.annotation?_eq_some_iff, exists_eq_right]

section Parts

variable {parts : List (Token × Option Float)}
  (h : g.tokens.mapM (Token.takeWeight delimiter) = .ok parts)
include h

theorem parts_cases (i : Nat) :
    (g.annotation? i = none ∧ parts[i]? = g.tokens[i]?.map (·, none)) ∨
    ∃ t span rest w, g.annotation? i = some (t, span) ∧ Carries delimiter t span rest w ∧
      parts[i]? = some (.text rest none, some w) := by
  have hplace := getElem?_of_forall₂ (Attempt.forall₂_of_mapM h) i
  rw [annotation?]
  generalize g.tokens[i]? = token, parts[i]? = part at hplace ⊢
  cases hplace with
  | none => exact .inl ⟨rfl, rfl⟩
  | @some token part hpart =>
    cases hspan : token.annotation? with
    | none =>
      rw [Token.takeWeight_unannotated hspan] at hpart
      obtain rfl := Except.ok.inj hpart
      exact .inl ⟨hspan, rfl⟩
    | some annotation =>
      obtain ⟨t, span⟩ := annotation
      obtain rfl := Token.annotation?_eq_some_iff.mp hspan
      obtain ⟨rest, w, hcarries, hrest, hw⟩ := Token.takeWeight_annotated.mp hpart
      exact .inr ⟨t, span, rest, w, rfl, hcarries, congrArg some (Prod.ext hrest hw)⟩

theorem parts_unannotated (hi : g.annotation? i = none) :
    parts[i]? = g.tokens[i]?.map (·, none) := by
  rcases parts_cases h i with ⟨-, hsame⟩ | ⟨t, span, rest, w, hsome, -, -⟩
  · exact hsame
  · cases hi.symm.trans hsome

theorem parts_annotated {t : String} {span : Span} (hi : g.annotation? i = some (t, span)) :
    ∃ rest w, Carries delimiter t span rest w ∧ parts[i]? = some (.text rest none, some w) := by
  rcases parts_cases h i with ⟨hnone, -⟩ | ⟨t', span', rest, w, hsome, hcarries, hplace⟩
  · cases hi.symm.trans hnone
  · obtain ⟨rfl, rfl⟩ := Prod.mk.inj (Option.some.inj (hi.symm.trans hsome))
    exact ⟨rest, w, hcarries, hplace⟩

end Parts

theorem reweighs_of_applyWeights (h : g.applyWeights delimiter = .ok r) :
    g.Reweighs delimiter r := by
  obtain ⟨parts, hparts, rfl⟩ := Attempt.map_eq_ok.mp h
  have htokens : ∀ i : Nat, (parts.map (·.1))[i]? = parts[i]?.map (·.1) :=
    fun i => List.getElem?_map
  have hunannotated : ∀ i, g.annotation? i = none → (parts.map (·.1))[i]? = g.tokens[i]? := by
    intro i hi
    rw [htokens, parts_unannotated hparts hi]
    cases g.tokens[i]? <;> rfl
  have hedges : ∀ (k : Nat) (e : Edge), g.edges[k]? = some e →
      (g.edges.map (Edge.weighTarget (parts.map (·.2))))[k]? =
        some { e with weight := (parts[e.target]?.bind (·.2)).or e.weight } := by
    intro k e he
    rw [List.getElem?_map, he, Option.map_some, Edge.weighTarget_eq, List.getElem?_map,
      Option.bind_map, Function.id_comp]
  constructor
  case length => rw [List.length_map, (Attempt.forall₂_of_mapM hparts).length_eq]
  case ends =>
    rw [List.map_map, show Edge.ends ∘ Edge.weighTarget (parts.map (·.2)) = Edge.ends from
      funext (Edge.ends_weighTarget _)]
  case bare =>
    intro i
    cases hi : g.annotation? i with
    | none => rwa [annotation?, hunannotated i hi]
    | some annotation =>
      obtain ⟨rest, w, -, hplace⟩ := parts_annotated hparts hi
      rw [annotation?, htokens, hplace]
      rfl
  case kept => exact hunannotated
  case cut =>
    intro i t span hi
    obtain ⟨rest, w, hcarries, hplace⟩ := parts_annotated hparts hi
    refine ⟨rest, w, hcarries, ?_, ?_⟩
    · rw [htokens, hplace]
      rfl
    · rintro k e he rfl
      rw [hedges k e he, hplace]
      rfl
  case others =>
    intro k e he hi
    rw [hedges k e he, parts_unannotated hparts hi, Option.bind_map]
    cases g.tokens[e.target]? <;> rfl

theorem eq_of_tokens_edges {g h : Graph} (htokens : g.tokens = h.tokens)
    (hedges : g.edges = h.edges) : g = h := by
  cases g
  cases h
  simp_all

theorem applyWeights_of_bare (h : ∀ i, g.annotation? i = none) (delimiter : Char) :
    g.applyWeights delimiter = .ok g := by
  have htaken : ∀ token ∈ g.tokens, ∃ part, token.takeWeight delimiter = .ok part := by
    intro token htoken
    obtain ⟨i, hi⟩ := List.getElem?_of_mem htoken
    have hi : token.annotation? = none := by simpa [annotation?, hi] using h i
    exact ⟨_, Token.takeWeight_unannotated hi delimiter⟩
  obtain ⟨parts, hparts⟩ := Attempt.exists_mapM htaken
  have hexists : ∃ r, g.applyWeights delimiter = .ok r :=
    ⟨_, Attempt.map_eq_ok.mpr ⟨parts, hparts, rfl⟩⟩
  obtain ⟨r, hr⟩ := hexists
  have hsame := reweighs_of_applyWeights hr
  have htokens : r.tokens = g.tokens := List.ext_getElem? fun i => hsame.kept i (h i)
  have hlength : r.edges.length = g.edges.length := by
    simpa using congrArg List.length hsame.ends
  have hedges : r.edges = g.edges := by
    refine List.ext_getElem? fun k => ?_
    cases he : g.edges[k]? with
    | none => rwa [List.getElem?_eq_none_iff, hlength, ← List.getElem?_eq_none_iff]
    | some e => exact hsame.others k e he (h e.target)
  rw [hr, eq_of_tokens_edges htokens hedges]

theorem applyWeights_eq_error {f : Fault} :
    g.applyWeights delimiter = .error f ↔ ∃ i t span, g.annotation? i = some (t, span) ∧
      takeWeight t span delimiter = .error f ∧
      ∀ j < i, ∀ t span, g.annotation? j = some (t, span) →
        ∃ rest w, Carries delimiter t span rest w := by
  rw [applyWeights, Attempt.map_eq_error, Attempt.mapM_eq_error]
  simp only [annotation?_eq_some_iff]
  constructor
  · rintro ⟨before, token, after, htokens, hfault, hbefore⟩
    obtain ⟨t, span, rfl⟩ := Token.exists_span_of_takeWeight hfault
    refine ⟨before.length, t, span, by simp [htokens], Attempt.map_eq_error.mp hfault, ?_⟩
    intro j hj t' span' ht'
    rw [htokens, List.getElem?_append_left hj] at ht'
    obtain ⟨part, hpart⟩ := hbefore _ (List.mem_of_getElem? ht')
    obtain ⟨rest, w, hcarries, -⟩ := Token.takeWeight_annotated.mp hpart
    exact ⟨rest, w, hcarries⟩
  · rintro ⟨i, t, span, hi, hfault, hbefore⟩
    obtain ⟨hlt, hi⟩ := List.getElem?_eq_some_iff.mp hi
    refine ⟨g.tokens.take i, .text t (some span), g.tokens.drop (i + 1), ?_,
      Attempt.map_eq_error.mpr hfault, ?_⟩
    · rw [← hi, ← List.drop_eq_getElem_cons hlt, List.take_append_drop]
    · intro token htoken
      obtain ⟨j, hj⟩ := List.getElem?_of_mem htoken
      rw [List.getElem?_take, Option.ite_none_right_eq_some] at hj
      cases hspan : token.annotation? with
      | none => exact ⟨_, Token.takeWeight_unannotated hspan delimiter⟩
      | some annotation =>
        obtain rfl := Token.annotation?_eq_some_iff.mp hspan
        obtain ⟨rest, w, hcarries⟩ := hbefore j hj.1 _ _ hj.2
        exact ⟨_, Token.takeWeight_annotated.mpr ⟨rest, w, hcarries, rfl, rfl⟩⟩

theorem weights_come_off_once (g : Graph) (delimiter : Char) :
    (∀ r, g.applyWeights delimiter = .ok r →
      g.Reweighs delimiter r ∧ ∀ d, r.applyWeights d = .ok r) ∧
    ∀ f, g.applyWeights delimiter = .error f ↔ ∃ i t span, g.annotation? i = some (t, span) ∧
      takeWeight t span delimiter = .error f ∧
      ∀ j < i, ∀ t span, g.annotation? j = some (t, span) →
        ∃ rest w, Carries delimiter t span rest w := by
  refine ⟨fun r hr => ?_, fun f => applyWeights_eq_error⟩
  have hreweighs := reweighs_of_applyWeights hr
  exact ⟨hreweighs, applyWeights_of_bare hreweighs.bare⟩

theorem weights_come_off_once_of_shared :
    let g := ofEdges
      [.start, .text "/0/" (some ⟨0, 3⟩), .text "ü /2/ b" (some ⟨3, 6⟩), .finish]
      [⟨0, 1, none⟩, ⟨0, 2, none⟩, ⟨1, 2, some 3⟩, ⟨2, 3, some 5⟩]
    ∃ r w, g.applyWeights '/' = .ok r ∧ r.tokens[2]? = some (.text "ü  b" none) ∧
      r.edges[1]? = some ⟨0, 2, some w⟩ ∧ r.edges[2]? = some ⟨1, 2, some w⟩ ∧
      r.edges[3]? = some ⟨2, 3, some 5⟩ ∧ r.applyWeights '#' = .ok r := by
  intro g
  have hcheck : ((g.applyWeights '/').toOption.any fun _ => true) = true := by decide +kernel
  obtain ⟨r, hr, -⟩ := Attempt.exists_of_any hcheck
  have hslice : Text.sliceBytes 3 6 "ü /2/ b".toList =
      some ("ü ".toList, "/2/".toList, " b".toList) := by decide
  have hedges : g.edges = [⟨0, 1, none⟩, ⟨0, 2, none⟩, ⟨1, 2, some 3⟩, ⟨2, 3, some 5⟩] :=
    mergeEdges_of_distinct (by unfold Distinct; decide)
  obtain ⟨hreweighs, htwice⟩ := (weights_come_off_once g '/').1 r hr
  obtain ⟨rest, w, hcarries, hrest, hshared⟩ := hreweighs.cut 2 _ _ rfl
  cases hcarries with
  | intro hparts =>
    obtain ⟨rfl, hinside⟩ := Prod.mk.inj (Option.some.inj (hslice.symm.trans hparts))
    obtain ⟨-, rfl⟩ := Prod.mk.inj hinside
    exact ⟨r, _, hr, hrest, hshared 1 ⟨0, 2, none⟩ (by rw [hedges]; rfl) rfl,
      hshared 2 ⟨1, 2, some 3⟩ (by rw [hedges]; rfl) rfl,
      hreweighs.others 3 ⟨2, 3, some 5⟩ (by rw [hedges]; rfl) rfl, htwice '#'⟩

end Graph

theorem Rule.compile_of_bare {p : Punctuation} {expression : String} {tokens : List Token}
    {g : Graph} (isPublic : Bool) (hread : Token.read p expression = .ok tokens)
    (hg : Graph.ofTokens tokens = .ok g) (hbare : ∀ t ∈ tokens, t.annotation? = none) :
    compile p expression isPublic = .ok {
      expression, isPublic, graph := g
      references := (tokens.filterMap Token.referenceName).eraseDups } := by
  have hnone : ∀ i, g.annotation? i = none := by
    intro i
    rw [Graph.annotation?, Graph.tokens_of_ofTokens hg, Option.bind_eq_none_iff]
    exact fun t ht => hbare t (List.mem_of_getElem? ht)
  exact Attempt.bind_eq_ok.mpr ⟨tokens, hread, Attempt.bind_eq_ok.mpr ⟨g, hg,
    Attempt.bind_eq_ok.mpr ⟨g, Graph.applyWeights_of_bare hnone p.weight, rfl⟩⟩⟩

end SpokenGrammar
