import SpokenGrammar.Graph.Weights
import SpokenGrammar.Proofs.Graph.Assembly
import SpokenGrammar.Proofs.Token.Shape

namespace SpokenGrammar

namespace Token

theorem exists_span_of_takeWeight {token : Token} {delimiter : Char} {f : Fault}
    (h : token.takeWeight delimiter = .error f) : ∃ t span, token = text t (some span) := by
  cases token with
  | text t weight =>
    cases weight with
    | none => cases h
    | some span => exact ⟨t, span, rfl⟩
  | _ => cases h

end Token

namespace Graph

variable {p : Punctuation} {g r : Graph}

theorem forall₂_applyWeights {delimiter : Char} (h : g.applyWeights delimiter = .ok r) :
    List.Forall₂ (fun t s => ∃ w, t.takeWeight delimiter = .ok (s, w)) g.tokens r.tokens := by
  obtain ⟨parts, hparts, rfl⟩ := Attempt.map_eq_ok.mp h
  rw [List.forall₂_map_right_iff]
  exact (Attempt.forall₂_of_mapM hparts).imp fun t part ht => ⟨part.2, ht⟩

theorem exists_takeWeight_of_applyWeights {delimiter : Char} (h : g.applyWeights delimiter = .ok r)
    {i : Nat} {t : Token} (ht : g.tokens[i]? = some t) :
    ∃ s w, t.takeWeight delimiter = .ok (s, w) ∧ r.tokens[i]? = some s := by
  have hi := getElem?_of_forall₂ (forall₂_applyWeights h) i
  rw [ht] at hi
  generalize r.tokens[i]? = x at hi
  cases hi with
  | some hs =>
    obtain ⟨w, hw⟩ := hs
    exact ⟨_, w, hw, rfl⟩

theorem annotations_come_off {expression : String} {ts : List Token} (hne : expression ≠ "")
    (hread : Token.read p expression = .ok ts) :
    ∃ body, ts = .start :: body ++ [.finish] ∧ Token.Shaped p body ∧
      ∀ g, ofTokens ts = .ok g →
        (∀ f, g.applyWeights p.weight = .error f → ∃ t span before inside after,
          Token.text t (some span) ∈ body ∧ Token.Annotated p t span before inside after ∧
            Misweighed t inside f) ∧
        ∀ r, g.applyWeights p.weight = .ok r →
          ∀ (i : Nat) t span, ts[i]? = some (.text t (some span)) → ∃ before inside after,
            Token.Annotated p t span before inside after ∧
              r.tokens[i]? = some (.text (String.ofList (before ++ after)) none) := by
  obtain ⟨body, rfl, hshaped⟩ := Token.shaped_of_read hne hread
  refine ⟨body, rfl, hshaped, fun g hg => ?_⟩
  have htokens := tokens_of_ofTokens hg
  refine ⟨fun f hf => ?_, fun r hr i t span ht => ?_⟩
  · obtain ⟨token, htoken, hfault⟩ :=
      Attempt.exists_of_mapM_eq_error (Attempt.map_eq_error.mp hf)
    obtain ⟨t, span, rfl⟩ := Token.exists_span_of_takeWeight hfault
    have hmem : Token.text t (some span) ∈ body := by simpa [htokens] using htoken
    obtain ⟨before, inside, after, hannotated⟩ := hshaped.proper _ hmem
    refine ⟨t, span, before, inside, after, hmem, hannotated, ?_⟩
    have htaken := Attempt.map_eq_error.mp hfault
    rcases takeWeight_cases hannotated.1 with ⟨-, w, hok⟩ | ⟨-, f', hf', hbad⟩
    · cases hok.symm.trans htaken
    · obtain rfl := Except.error.inj (hf'.symm.trans htaken)
      exact hbad
  · have hmem : Token.text t (some span) ∈ body := by simpa using List.mem_of_getElem? ht
    obtain ⟨before, inside, after, hannotated⟩ := hshaped.proper _ hmem
    refine ⟨before, inside, after, hannotated, ?_⟩
    obtain ⟨s, w, hs, hr⟩ := exists_takeWeight_of_applyWeights hr (htokens ▸ ht)
    obtain ⟨⟨t', w'⟩, htaken, hs⟩ := Attempt.map_eq_ok.mp hs
    obtain ⟨rfl, -⟩ := Prod.mk.inj hs
    rcases takeWeight_cases hannotated.1 with ⟨-, w, hok⟩ | ⟨-, f, hf, -⟩
    · cases hok.symm.trans htaken
      exact hr
    · cases hf.symm.trans htaken

theorem annotations_come_off_of_accented :
    let p : Punctuation := { weight := 'é', tag := ('{', 'é') }
    let ts : List Token := [.start, .text "ü|é 2 é b\x7bxé" (some ⟨3, 10⟩), .mark .alternative,
      .reference "<y>", .text "c" none, .mark .terminator, .finish]
    Token.read p "\"ü|\"é 2 é b\x7bxé|<y>c;" = .ok ts ∧ ∃ body g r,
      ts = .start :: body ++ [.finish] ∧ Token.Shaped p body ∧ ofTokens ts = .ok g ∧
      g.applyWeights p.weight = .ok r ∧ r.tokens[1]? = some (.text "ü| b\x7bxé" none) := by
  intro p ts
  have hread : Token.read p "\"ü|\"é 2 é b\x7bxé|<y>c;" = .ok ts := by decide +kernel
  have hcheck : ((ofTokens ts).toOption.any fun g =>
      (g.applyWeights p.weight).toOption.any fun _ => true) = true := by decide +kernel
  have hslice : Text.sliceBytes 3 10 "ü|é 2 é b\x7bxé".toList =
      some ("ü|".toList, "é 2 é".toList, " b\x7bxé".toList) := by decide
  obtain ⟨g, hg, hcheck⟩ := Attempt.exists_of_any hcheck
  obtain ⟨r, hr, -⟩ := Attempt.exists_of_any hcheck
  obtain ⟨body, hbody, hshaped, hweights⟩ := annotations_come_off (by decide) hread
  obtain ⟨before, inside, after, hannotated, hplace⟩ := (hweights g hg).2 r hr 1 _ _ rfl
  simp only [Token.Annotated, hslice, Option.some.injEq, Prod.mk.injEq] at hannotated
  obtain ⟨⟨rfl, -, rfl⟩, -⟩ := hannotated
  exact ⟨hread, body, g, r, hbody, hshaped, hg, hr, hplace⟩

end Graph

end SpokenGrammar
