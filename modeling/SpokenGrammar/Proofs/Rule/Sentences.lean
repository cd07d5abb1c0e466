import Mathlib.Data.List.Perm.Subperm
import SpokenGrammar.Proofs.Attempt
import SpokenGrammar.Proofs.Graph.Enumeration
import SpokenGrammar.Proofs.Graph.RandomWalk
import SpokenGrammar.Proofs.Rule.Resolve
import SpokenGrammar.Rule.Sentences

namespace SpokenGrammar

variable {r q : Rule} {ρ : String → Language Char} {name : String} {limit : Option Nat}

theorem Token.record_eq (i : Nat) (t : Option Token) (s : String) :
    Token.record i t s = s ++ String.ofList (t.elim [] fun t => t.spelling.toList) := by
  cases t with
  | none => simp [record, Recorder.node]
  | some t =>
    cases t with
    | reference name => simp [record, Recorder.node, Recorder.reference, spelling]
    | start => simp [record, Recorder.node, spelling]
    | finish => simp [record, Recorder.node, spelling]
    | mark m => simp [record, Recorder.node, spelling]
    | text t weight =>
      rw [Option.elim_some, spelling, String.ofList_toList]
      change (if t = "" then s else s ++ t) = s ++ t
      split
      · rename_i ht
        rw [ht, String.append_empty]
      · rfl

theorem Graph.Thinned.exists_allPaths {g h : Graph} (ht : Thinned g h) (hg : g.Spanning)
    (hh : h.Spanning) {ps : List (List Nat)} (hps : g.allPaths limit = .ok ps) :
    ∃ qs, h.allPaths limit = .ok qs := by
  obtain ⟨s, t, hg⟩ := hg
  obtain ⟨u, v, hh⟩ := hh
  obtain ⟨dropped, hd⟩ := ht
  obtain ⟨qs, hqs, hnodup, hmem⟩ := hh.exists_allPaths
  have himage : qs ⊆ ps.map fun p => p.filter (· ∉ dropped) := by
    intro q hq
    obtain ⟨p, hp, rfl⟩ := hd.mem_paths.mp ((hmem q).mp hq)
    exact List.mem_map.mpr ⟨p, (hg.mem_of_allPaths hps p).mpr hp, rfl⟩
  have hle : qs.length ≤ ps.length := by
    have hlength := (hnodup.subperm himage).length_le
    rwa [List.length_map] at hlength
  refine ⟨qs, hh.allPaths_eq_ok.mpr ⟨hqs, ?_⟩⟩
  intro n hn
  exact hle.trans ((hg.allPaths_eq_ok.mp hps).2 n hn)

namespace Rule

theorem record_eq (r : Rule) (p : List Nat) :
    (r.record p : String) = String.ofList (r.graph.spell p) := by
  have hfold : ∀ s : String,
      p.foldl (fun s i => Token.record i r.graph.tokens[i]? s) s =
        s ++ String.ofList (r.graph.spell p) := by
    induction p with
    | nil => simp [Graph.spell]
    | cons i p ih =>
      intro s
      rw [List.foldl_cons, ih, Token.record_eq, Graph.spell, Graph.spell, List.flatMap_cons,
        String.ofList_append, String.append_assoc]
  rw [record, hfold]
  exact String.empty_append

theorem productions_eq_ok {l : List String} :
    r.productions limit = .ok l ↔
      ∃ ps, r.graph.allPaths limit = .ok ps ∧ l = (ps.map r.record).filter (· ≠ "") := by
  rw [productions, Attempt.map_eq_ok]
  constructor
  · rintro ⟨l', hl', rfl⟩
    obtain ⟨ps, hps, rfl⟩ := Attempt.map_eq_ok.mp hl'
    exact ⟨ps, hps, rfl⟩
  · rintro ⟨ps, hps, rfl⟩
    exact ⟨_, Attempt.map_eq_ok.mpr ⟨ps, hps, rfl⟩, rfl⟩

theorem yields_sample_of_spanning {α : Type} [Recorder α] (h : r.graph.Spanning) :
    (r.sample : Draw α).Yields (fun a => ∃ p ∈ r.graph.paths, r.record p = a)
      (· = .zeroWeights) := by
  obtain ⟨u, v, hspan⟩ := h
  exact hspan.yields_randomPath.bind fun p hp => Draw.yields_pure ⟨p, hp, rfl⟩

theorem spells_iff (r : Rule) (s : String) :
    (∃ q ∈ r.graph.paths, s.toList = r.graph.spell q) ↔
      ∃ q ∈ r.graph.paths, r.record q = s := by
  simp only [record_eq]
  constructor
  · rintro ⟨q, hq, hs⟩
    exact ⟨q, hq, by rw [← hs, String.ofList_toList]⟩
  · rintro ⟨q, hq, rfl⟩
    exact ⟨q, hq, String.toList_ofList⟩

theorem exists_enumerate (hspan : r.graph.Spanning) :
    ∃ ss, r.enumerate none = .ok ss ∧
      ∀ s : String, s ∈ ss ↔ ∃ p ∈ r.graph.paths, r.record p = s := by
  obtain ⟨i, j, hspan⟩ := hspan
  obtain ⟨ps, hps, -⟩ := hspan.exists_allPaths
  refine ⟨ps.map r.record, Attempt.map_eq_ok.mpr ⟨ps, hps, rfl⟩, fun s => ?_⟩
  simp only [List.mem_map, hspan.mem_of_allPaths hps]

theorem mem_productions_of_spanning (hspan : r.graph.Spanning) {l : List String}
    (hl : r.productions limit = .ok l) (s : String) :
    s ∈ l ↔ s ≠ "" ∧ ∃ q ∈ r.graph.paths, r.record q = s := by
  obtain ⟨ps, hps, rfl⟩ := productions_eq_ok.mp hl
  obtain ⟨u, v, hspan⟩ := hspan
  simp only [List.mem_filter, List.mem_map, decide_eq_true_eq, hspan.mem_of_allPaths hps]
  exact and_comm

theorem exists_productions_of_spanning (hspan : r.graph.Spanning) :
    ∃ l, r.productions none = .ok l := by
  obtain ⟨u, v, hspan⟩ := hspan
  obtain ⟨ps, hps, -⟩ := hspan.exists_allPaths
  exact ⟨_, productions_eq_ok.mpr ⟨ps, hps, rfl⟩⟩

namespace Resolved

theorem mem_language (h : r.Resolved ρ name) (s : String) :
    s.toList ∈ ρ name ↔ ∃ p ∈ r.graph.paths, r.record p = s := by
  rw [← h.language, Graph.mem_language h.spanning h.settled h.unweighted]
  exact r.spells_iff s

theorem mem_productions (h : r.Resolved ρ name) {l : List String}
    (hl : r.productions limit = .ok l) (s : String) : s ∈ l ↔ s ≠ "" ∧ s.toList ∈ ρ name := by
  rw [mem_productions_of_spanning h.spanning hl, h.mem_language]

theorem exists_productions (h : r.Resolved ρ name) : ∃ l, r.productions none = .ok l :=
  exists_productions_of_spanning h.spanning

theorem yields_sample (h : r.Resolved ρ name) :
    (r.sample : Draw String).Yields (fun s => s.toList ∈ ρ name) (· = .zeroWeights) := by
  exact (yields_sample_of_spanning h.spanning).imp (fun s hs => (h.mem_language s).mpr hs)
    fun _ hf => hf

end Resolved

theorem Paired.exists_productions (h : Paired ρ name r q) {l : List String}
    (hl : r.productions limit = .ok l) : ∃ l', q.productions limit = .ok l' := by
  obtain ⟨ps, hps, -⟩ := productions_eq_ok.mp hl
  obtain ⟨qs, hqs⟩ := h.thinned.exists_allPaths h.plain.spanning h.thin.spanning hps
  exact ⟨_, productions_eq_ok.mpr ⟨qs, hqs, rfl⟩⟩

end Rule

end SpokenGrammar
