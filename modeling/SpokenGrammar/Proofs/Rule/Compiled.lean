import SpokenGrammar.Proofs.Graph.Branches
import SpokenGrammar.Proofs.Graph.Thinning
import SpokenGrammar.Proofs.Rule.Compile
import SpokenGrammar.Proofs.Rule.Splicing

namespace SpokenGrammar

variable {p : Punctuation} {expression : String} {isPublic : Bool} {r : Rule} {body : List Token}
  {P : String → Prop}

namespace Token

theorem exists_body_of_readRest {whole : Nat} {d : Draft} {s : List Char} {ts : List Token}
    (h : readRest p whole d s = .ok ts) :
    ∃ body, ts = body ++ [.finish] ∧ ∀ t ∈ body, t ≠ .start := by
  fun_induction readRest p whole d s generalizing ts with
  | case1 d =>
    rcases Except.ok.inj h with rfl
    exact ⟨d.tokens, rfl, fun t ht => (isInner_of_mem_tokens ht).1⟩
  | case2 d c r hc => cases h
  | case3 d c r hc b hb => cases h
  | case4 d c r hc l rest hl t ht ih =>
    obtain ⟨ts', hts', rfl⟩ := Attempt.map_eq_ok.mp h
    obtain ⟨body, rfl, hbody⟩ := ih hts'
    refine ⟨d.tokens ++ t :: body, by simp, ?_⟩
    intro t' ht'
    rcases List.mem_append.mp ht' with ht' | ht'
    · exact (isInner_of_mem_tokens ht').1
    · rcases List.mem_cons.mp ht' with rfl | ht'
      · rintro rfl
        cases l <;> cases ht
      · exact hbody t' ht'
  | case5 d c r hc l rest hl ht ih => exact ih h

theorem exists_body_of_read {ts : List Token} (hne : expression.toList ≠ [])
    (h : read p expression = .ok ts) :
    ∃ body, ts = .start :: body ++ [.finish] ∧ ∀ t ∈ body, t ≠ .start := by
  rw [read_of_ne_nil hne] at h
  obtain ⟨ts', hts', rfl⟩ := Attempt.map_eq_ok.mp h
  obtain ⟨body, rfl, hbody⟩ := exists_body_of_readRest hts'
  exact ⟨body, rfl, hbody⟩

theorem exists_body_of_terminated
    (h : read p expression = .ok (body ++ [.mark .terminator, .finish])) :
    ∃ inner, body = .start :: inner ∧ ∀ t ∈ inner, t ≠ .start := by
  have hne : expression.toList ≠ [] := by
    intro hnil
    rw [read, hnil] at h
    have hlength := congrArg List.length (Except.ok.inj h)
    simp at hlength
  obtain ⟨body', hbody, hstart⟩ := exists_body_of_read hne h
  have hbody' : body ++ [.mark .terminator] ++ [.finish] = .start :: body' ++ [.finish] := by
    rw [List.append_assoc]
    exact hbody
  have hsplit : body ++ [.mark .terminator] = .start :: body' := List.append_cancel_right hbody'
  cases body with
  | nil => cases hsplit
  | cons t inner =>
    obtain ⟨rfl, rfl⟩ := List.cons.inj hsplit
    exact ⟨inner, rfl, fun t ht => hstart t (List.mem_append_left _ ht)⟩

end Token

namespace Rule

theorem compiled_of_compile (h : compile p expression isPublic = .ok r)
    (hread : Token.read p expression = .ok (.start :: body ++ [.finish]))
    (hbody : ∀ t ∈ body, t ≠ .start) (hrejoins : Token.Rejoins 0 (body ++ [.finish]))
    (hblank : ∀ name ∈ r.references, Text.allBlank name.toList = true → P name) :
    r.Compiled P := by
  obtain ⟨tokens, g, htokens, hg, hweights, -, hreferences⟩ := compile_eq_ok h
  rcases Except.ok.inj (hread.symm.trans htokens) with rfl
  have hjoins := Graph.joins_applyWeights hweights
  have hspan := (Graph.spans_ofTokens hg hbody hrejoins).applyWeights hweights
  have hall : ∀ t ∈ body ++ [.finish], t ≠ .start :=
    List.forall_mem_append.mpr ⟨hbody, by simp⟩
  obtain ⟨-, -, -, -, hgraph, -⟩ := Assembly.exists_steps_of_ofTokens hg
  refine ⟨⟨⟨_, _, hspan⟩, ?_, ?_⟩, ?_⟩
  · intro i s weight hi hs
    obtain ⟨t, ht, hbared⟩ := Graph.exists_bared_applyWeights hweights hi
    obtain rfl := hbared.weight s weight rfl
    -- A token that spells nothing stays one when its annotation is taken off.
    have hstructural : t.isStructural = false := by
      by_contra hne
      have hone := hbared.language fun _ => 1
      rw [Token.language_of_isStructural (t := t) (by simpa using hne)] at hone
      have hnil : ([] : List Char) ∈ (1 : Language Char) := rfl
      rw [← hone] at hnil
      exact hs (String.toList_eq_nil_iff.mp (Eq.symm hnil))
    obtain ⟨j, hj⟩ := Graph.touched_ofTokens hg hall ht hstructural
    exact ⟨j, hj.imp (hjoins _ _).mpr (hjoins _ _).mpr⟩
  · intro i name _ hi
    obtain ⟨t, ht, hbared⟩ := Graph.exists_bared_applyWeights hweights hi
    obtain rfl := (hbared.reference name).mp rfl
    have hname : name ∈ r.references := by
      have hmem : Token.reference name ∈ g.tokens := List.mem_of_getElem? ht
      rw [hgraph] at hmem
      rw [hreferences, Token.mem_references]
      exact hmem
    cases hlegible : Text.allBlank name.toList with
    | true => exact .inr (hblank name hname hlegible)
    | false => exact .inl (List.mem_filter.mpr ⟨hname, by simp [hlegible]⟩)
  · rw [hreferences]
    exact nodup_eraseDups _

theorem compiled_of_terminated (h : compile {} expression isPublic = .ok r)
    (hread : Token.read {} expression = .ok (body ++ [.mark .terminator, .finish])) :
    r.Compiled (fun _ => False) ∧ r.called = r.references := by
  have hlegible := legible_of_compile h
  obtain ⟨inner, rfl, hinner⟩ := Token.exists_body_of_terminated hread
  have hsplit : (.start :: inner ++ [.mark .terminator, .finish] : List Token) =
      .start :: (inner ++ [.mark .terminator]) ++ [.finish] := by simp
  have hinner' : ∀ t ∈ inner ++ [.mark .terminator], t ≠ .start :=
    List.forall_mem_append.mpr ⟨hinner, by simp⟩
  constructor
  · refine compiled_of_compile h (hread.trans (congrArg _ hsplit)) hinner' ?_ ?_
    · rw [List.append_assoc]
      exact Token.rejoins_of_terminated 0 inner
    · intro name hname hblank
      rw [hlegible name hname] at hblank
      cases hblank
  · rw [called, List.filter_eq_self]
    intro name hname
    rw [hlegible name hname]
    rfl

end Rule

end SpokenGrammar
