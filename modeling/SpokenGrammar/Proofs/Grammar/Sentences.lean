import Mathlib.Data.List.GetD
import Mathlib.Data.List.Sort
import Mathlib.Data.String.Basic
import SpokenGrammar.Grammar.Sentences
import SpokenGrammar.Proofs.Attempt
import SpokenGrammar.Proofs.Repetition
import SpokenGrammar.Proofs.Rule.Sentences
import SpokenGrammar.Proofs.Settings

namespace SpokenGrammar

theorem mem_sortedSet (texts : List String) (s : String) : s ∈ sortedSet texts ↔ s ∈ texts := by
  rw [sortedSet, mem_eraseReps, List.mem_mergeSort]

theorem pairwise_lt_sortedSet (texts : List String) : (sortedSet texts).Pairwise (· < ·) := by
  apply pairwise_lt_eraseReps
  have htrans : ∀ a b c : String, decide (a ≤ b) = true → decide (b ≤ c) = true →
      decide (a ≤ c) = true := by
    intro a b c hab hbc
    simp only [decide_eq_true_eq] at hab hbc ⊢
    exact le_trans hab hbc
  have htotal : ∀ a b : String, (decide (a ≤ b) || decide (b ≤ a)) = true := by
    intro a b
    simp only [Bool.or_eq_true, decide_eq_true_eq]
    exact le_total a b
  have hsorted := List.pairwise_mergeSort htrans htotal texts
  exact hsorted.imp fun h => by simpa using h

namespace Grammar

variable {g h : Grammar} {ρ : String → Language Char}

def Resolved (ρ : String → Language Char) (g : Grammar) : Prop :=
  ∀ e ∈ g.publicRules, e.2.Resolved ρ e.1

def Speaks (ρ : String → Language Char) (g : Grammar) (s : String) : Prop :=
  ∃ e ∈ g.publicRules, ∃ w : String, w.toList ∈ ρ e.1 ∧ g.settings.format w = some s

theorem productions_eq_ok {texts : List String} :
    g.productions = .ok texts ↔
      ∃ found, (g.publicRules.mapM fun e => e.2.productions g.settings.maxPaths) = .ok found ∧
        texts = sortedSet (found.flatten.filterMap g.settings.format) := by
  constructor
  · intro h
    obtain ⟨found, hfound, h⟩ := Attempt.bind_eq_ok.mp h
    rcases Except.ok.inj h with rfl
    exact ⟨found, hfound, rfl⟩
  · rintro ⟨found, hfound, rfl⟩
    exact Attempt.bind_eq_ok.mpr ⟨found, hfound, rfl⟩

theorem exists_productions_iff :
    (∃ texts, g.productions = .ok texts) ↔
      ∀ e ∈ g.publicRules, ∃ l, e.2.productions g.settings.maxPaths = .ok l := by
  constructor
  · rintro ⟨texts, h⟩
    obtain ⟨found, hfound, -⟩ := productions_eq_ok.mp h
    intro e he
    obtain ⟨l, -, hl⟩ := (Attempt.exists_of_mapM hfound).2 e he
    exact ⟨l, hl⟩
  · intro h
    obtain ⟨found, hfound⟩ := Attempt.exists_mapM h
    exact ⟨_, productions_eq_ok.mpr ⟨found, hfound, rfl⟩⟩

theorem pairwise_lt_productions {texts : List String} (h : g.productions = .ok texts) :
    texts.Pairwise (· < ·) := by
  obtain ⟨found, -, rfl⟩ := productions_eq_ok.mp h
  exact pairwise_lt_sortedSet _

namespace Resolved

theorem mem_productions (hg : g.Resolved ρ) {texts : List String} (h : g.productions = .ok texts)
    (s : String) : s ∈ texts ↔ g.Speaks ρ s := by
  obtain ⟨found, hfound, rfl⟩ := productions_eq_ok.mp h
  rw [mem_sortedSet, List.mem_filterMap]
  constructor
  · rintro ⟨w, hw, hs⟩
    obtain ⟨l, hl, hw⟩ := List.mem_flatten.mp hw
    obtain ⟨e, he, heq⟩ := (Attempt.exists_of_mapM hfound).1 l hl
    exact ⟨e, he, w, (((hg e he).mem_productions heq w).mp hw).2, hs⟩
  · rintro ⟨e, he, w, hw, hs⟩
    obtain ⟨l, hl, heq⟩ := (Attempt.exists_of_mapM hfound).2 e he
    refine ⟨w, List.mem_flatten.mpr ⟨l, hl, ?_⟩, hs⟩
    refine ((hg e he).mem_productions heq w).mpr ⟨?_, hw⟩
    rintro rfl
    rw [Settings.format_empty] at hs
    cases hs

theorem exists_productions (hg : g.Resolved ρ) (hlimit : g.settings.maxPaths = none) :
    ∃ texts, g.productions = .ok texts := by
  rw [exists_productions_iff, hlimit]
  exact fun e he => (hg e he).exists_productions

end Resolved

def Withholds (g : Grammar) (f : Fault) : Prop :=
  (f = .emptyChoice ∧ g.publicRules = []) ∨ f = .zeroWeights ∨ f = .emptySentence

theorem yields_sample_of {P : String × Rule → String → Prop}
    (h : ∀ e ∈ g.publicRules, (e.2.sample : Draw String).Yields (P e) (· = .zeroWeights)) :
    g.sample.Yields (fun s => ∃ e ∈ g.publicRules, ∃ w, P e w ∧ g.settings.format w = some s)
      g.Withholds := by
  unfold sample
  split
  · rename_i hnone
    exact Draw.yields_throw (.inl ⟨rfl, hnone⟩)
  · rename_i first rest hpublic
    refine (Draw.yields_drawUpTo rest.length).bind ?_
    intro k hk
    have hmem : (first :: rest).getD k first ∈ g.publicRules := by
      rw [hpublic, List.getD_eq_getElem _ _ (Nat.lt_succ_of_le hk)]
      exact List.getElem_mem _
    generalize (first :: rest).getD k first = e at hmem
    have hsample : (e.2.sample : Draw String).Yields (P e) g.Withholds :=
      (h e hmem).imp (fun _ hw => hw) fun _ hf => .inr (.inl hf)
    refine hsample.bind ?_
    intro w hw
    split
    · rename_i s hs
      exact Draw.yields_pure ⟨e, hmem, w, hw, hs⟩
    · exact Draw.yields_throw (.inr (.inr rfl))

theorem Resolved.yields_sample (hg : g.Resolved ρ) : g.sample.Yields (g.Speaks ρ) g.Withholds :=
  yields_sample_of fun e he => (hg e he).yields_sample

end Grammar

end SpokenGrammar
