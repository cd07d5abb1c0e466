import SpokenGrammar.Proofs.Graph.Balance
import SpokenGrammar.Proofs.Graph.Branches
import SpokenGrammar.Proofs.Phrase.Nesting
import SpokenGrammar.Proofs.Phrase.Paths

namespace SpokenGrammar

open Token (Balanced)

theorem Token.Balanced.terminated {body : List Token} (h : Balanced body) :
    Balanced (body ++ [.mark .terminator, .finish]) :=
  h.append (.plain rfl rfl (.plain rfl rfl .nil))

theorem mem_between {ways : Language Nat} {i j k : Nat} {nodes : List Nat} :
    nodes ∈ {[i]} * ways * {[j]} * ({[k]} : Language Nat) ↔
      ∃ way ∈ ways, nodes = i :: way ++ [j, k] := by
  simp only [Language.mem_mul]
  constructor
  · rintro ⟨-, ⟨-, ⟨-, rfl, way, hway, rfl⟩, -, rfl, rfl⟩, -, rfl, rfl⟩
    exact ⟨way, hway, by simp⟩
  · rintro ⟨way, hway, rfl⟩
    exact ⟨_, ⟨_, ⟨_, rfl, way, hway, rfl⟩, _, rfl, rfl⟩, _, rfl, by simp⟩

mutual

theorem Phrase.balanced (p : Phrase) : Balanced p.tokens := by
  cases p with
  | only c => exact c.balanced
  | or c rest => exact c.balanced.append (.plain rfl rfl rest.balanced)

theorem Clause.balanced (c : Clause) : Balanced c.tokens := by
  cases c with
  | nil => exact .nil
  | cons a rest => exact a.balanced.append rest.balanced

theorem Atom.balanced (a : Atom) : Balanced a.tokens := by
  cases a with
  | text t weight => exact .plain rfl rfl .nil
  | reference name => exact .plain rfl rfl .nil
  | group p => exact .group rfl rfl p.balanced .nil
  | optional p => exact .group rfl rfl p.balanced .nil

end

namespace Graph

variable {body : List Token}

theorem ofTokens_spells (hbody : ∀ t ∈ body, t.IsInner) (hbalanced : Balanced body) :
    ∃ (p : Phrase) (g : Graph), (∀ q : Phrase, body = q.tokens ↔ q = p) ∧
      ofTokens (.start :: body ++ [.mark .terminator, .finish]) = .ok g ∧
      (∀ nodes, Route g.Joins g.source g.sink nodes ↔
        ∃ way ∈ p.routes 1, nodes = 0 :: way ++ [body.length + 1, body.length + 2]) ∧
      ∀ nodes, Route g.Joins g.source g.sink nodes →
        ∀ i ∈ nodes, g.tokens[i]? ≠ some (.mark .alternative) := by
  have hinner : ∀ t ∈ body, t ≠ .start := fun t ht => (hbody t ht).1
  have hall : ∀ t ∈ body ++ [.mark .terminator, .finish], t ≠ .start :=
    List.forall_mem_append.mpr ⟨hinner, by simp⟩
  obtain ⟨g, hg⟩ := exists_ofTokens_of_balanced hall hbalanced.terminated
  obtain ⟨a, es, hclosing⟩ := Assembly.exists_closing hg
  obtain ⟨p, rfl⟩ := hclosing.exists_phrase hbody
  have hspans := spans_of_terminated hg hinner
  refine ⟨p, g, fun q => ?_, hg, fun nodes => ?_, fun nodes hnodes i hi => ?_⟩
  · exact ⟨fun h => (Phrase.tokens_injective h).symm, fun h => h ▸ rfl⟩
  · rw [← mem_paths, hclosing.paths_eq hspans]
    exact mem_between
  · rw [tokens_of_ofTokens hg]
    exact not_alternative_of_touched hg hall (hspans.touched_of_mem hnodes hi)

theorem ofTokens_spells_of_optional :
    ∃ g, ofTokens [.start, .mark .openOptional, .text "a" none, .mark .alternative,
        .text "b" none, .mark .closeOptional, .mark .terminator, .finish] = .ok g ∧
      ∀ nodes, Route g.Joins g.source g.sink nodes ↔
        nodes = [0, 1, 2, 5, 6, 7] ∨ nodes = [0, 1, 4, 5, 6, 7] ∨ nodes = [0, 1, 5, 6, 7] := by
  let inside : Phrase := .or (.cons (.text "a" none) .nil) (.only (.cons (.text "b" none) .nil))
  let whole : Phrase := .only (.cons (.optional inside) .nil)
  obtain ⟨p, g, hp, hg, hroutes, -⟩ :=
    ofTokens_spells (fun t => whole.isInner_of_mem) whole.balanced
  refine ⟨g, hg, fun nodes => ?_⟩
  obtain rfl := (hp whole).mp rfl
  have hletter : ∀ w v : List Nat, w ∈ ({v} : Language Nat) ↔ w = v := fun _ _ => Iff.rfl
  rw [hroutes]
  simp [whole, inside, Phrase.routes, Clause.routes, Atom.routes, Phrase.tokens, Clause.tokens,
    Atom.tokens, Language.mem_mul, Language.mem_add, Language.mem_one, hletter, or_and_right,
    exists_or, or_assoc]

end Graph

end SpokenGrammar
