import Mathlib.Data.Set.Card
import SpokenGrammar.Proofs.Graph.Bipolar
import SpokenGrammar.Proofs.Graph.Ordering

/-!
# The limit is exact

Walks of which none continues another one lead to different paths. At every moment the walks that
are done and those that are pending are such walks, so there are no more of them than there are
paths, and a limit is exceeded only by more paths than it allows.
-/

namespace SpokenGrammar

namespace Walk

variable {next : Nat → List Nat} {sink : Nat} {v w : Walk} {P : Walk → Prop}
  {queue : List Walk × List Walk}

def Apart (v w : Walk) : Prop :=
  ¬ v <:+ w ∧ ¬ w <:+ v

theorem Apart.symm (h : Apart v w) : Apart w v :=
  ⟨h.2, h.1⟩

theorem apart_of_length_eq (hne : v ≠ w) (h : v.length = w.length) : Apart v w :=
  ⟨fun hvw => hne (hvw.eq_of_length h), fun hwv => hne (hwv.eq_of_length h.symm).symm⟩

theorem Apart.cons (h : Apart v w) (i : Nat) : Apart (i :: v) w := by
  constructor
  · intro hsuffix
    exact h.1 ((List.suffix_cons i v).trans hsuffix)
  · intro hsuffix
    rcases List.suffix_cons_iff.mp hsuffix with rfl | hsuffix
    · exact h.1 (List.suffix_cons i v)
    · exact h.2 hsuffix

theorem Apart.ne {c d : Walk} (h : Apart v w) (hc : v <:+ c) (hd : w <:+ d) : c ≠ d := by
  rintro rfl
  rcases List.suffix_or_suffix_of_suffix hc hd with hvw | hwv
  · exact h.1 hvw
  · exact h.2 hwv

theorem apart_continuations (hn : ∀ i, (next i).Nodup) (v : Walk) :
    (continuations next sink v).Pairwise Apart := by
  refine (nodup_continuations hn v).imp_of_mem fun {w w'} hw hw' hne => ?_
  obtain ⟨i, u, j, rfl, -, rfl⟩ := eq_cons_of_mem_continuations hw
  obtain ⟨i', u', j', heq, -, rfl⟩ := eq_cons_of_mem_continuations hw'
  exact apart_of_length_eq hne rfl

structure Spread (P : Walk → Prop) (queue : List Walk × List Walk) : Prop where
  apart : (queue.1 ++ queue.2).Pairwise Apart
  forall_mem : ∀ w ∈ queue.1 ++ queue.2, P w

section Serve

variable (hn : ∀ i, (next i).Nodup) (hP : ∀ v, P v → ∀ w ∈ continuations next sink v, P w)
include hn hP

theorem Spread.serve (h : Spread P queue) : Spread P (serve next sink queue) := by
  obtain ⟨done, pending⟩ := queue
  cases pending with
  | nil => exact h
  | cons v pending =>
    obtain ⟨hapart, hall⟩ := h
    rw [Walk.serve]
    split
    · constructor
      · simpa using hapart
      · simpa using hall
    · have hperm : (done ++ v :: pending).Perm (v :: (done ++ pending)) := List.perm_middle
      obtain ⟨hv, hrest⟩ := List.pairwise_cons.mp ((hperm.pairwise_iff Apart.symm).mp hapart)
      constructor
      · simp only
        rw [← List.append_assoc, List.pairwise_append]
        refine ⟨hrest, apart_continuations hn v, fun w hw w' hw' => ?_⟩
        obtain ⟨i, u, j, rfl, -, rfl⟩ := eq_cons_of_mem_continuations hw'
        exact ((hv w hw).cons j).symm
      · intro w hw
        simp only [List.mem_append] at hw
        rcases hw with hw | hw | hw
        · exact hall w (List.mem_append_left _ hw)
        · exact hall w (List.mem_append_right _ (List.mem_cons_of_mem _ hw))
        · exact hP v (hall v (List.mem_append_right _ List.mem_cons_self)) w hw

theorem Spread.serve_iterate (h : Spread P queue) (k : Nat) :
    Spread P ((Walk.serve next sink)^[k] queue) := by
  induction k with
  | zero => exact h
  | succ k ih =>
    rw [Function.iterate_succ_apply']
    exact ih.serve hn hP

end Serve

/-- Each walk is sent to one that continues it, and no two to the same. -/
theorem Spread.length_le {cs : List Walk} (h : Spread P queue)
    (hcs : ∀ w, P w → ∃ c ∈ cs, w <:+ c) : queue.1.length + queue.2.length ≤ cs.length := by
  choose! f hf using hcs
  have hnodup : ((queue.1 ++ queue.2).map f).Nodup := by
    refine List.pairwise_map.mpr (h.apart.imp_of_mem fun {v w} hv hw hvw => ?_)
    exact hvw.ne (hf v (h.forall_mem v hv)).2 (hf w (h.forall_mem w hw)).2
  have hsubset : (queue.1 ++ queue.2).map f ⊆ cs := by
    intro c hc
    obtain ⟨w, hw, rfl⟩ := List.mem_map.mp hc
    exact (hf w (h.forall_mem w hw)).1
  have hlength := (hnodup.subperm hsubset).length_le
  rwa [List.length_map, List.length_append] at hlength

end Walk

theorem Route.exists_of_reflTransGen {next : Nat → Nat → Prop} {i j : Nat}
    (h : Relation.ReflTransGen next i j) : ∃ p, Route next i j p := by
  induction h with
  | refl => exact ⟨[i], .here i⟩
  | tail _ hjk ih =>
    obtain ⟨p, r⟩ := ih
    exact ⟨p ++ [_], r.snoc hjk⟩

namespace Graph

variable {g : Graph} {ps : List (List Nat)}

theorem paths_eq_toFinset (hmem : ∀ p, p ∈ ps ↔ p ∈ g.paths) :
    (g.paths : Set (List Nat)) = (ps.toFinset : Set (List Nat)) :=
  Set.ext fun p => ((hmem p).symm.trans List.mem_toFinset.symm).trans Finset.mem_coe.symm

theorem ncard_paths (hmem : ∀ p, p ∈ ps ↔ p ∈ g.paths) (hnodup : ps.Nodup) :
    Set.ncard g.paths = ps.length := by
  rw [paths_eq_toFinset hmem, Set.ncard_coe_finset, List.toFinset_card_of_nodup hnodup]

section Live

variable (hlive : ∀ i, Relation.ReflTransGen g.Joins g.source i →
  Relation.ReflTransGen g.Joins i g.sink)
include hlive

theorem exists_path_of_walks (hmem : ∀ p, p ∈ ps ↔ p ∈ g.paths) {w : Walk}
    (hw : Walks g g.source w) : ∃ c ∈ ps.map List.reverse, w <:+ c := by
  obtain ⟨i, r⟩ := hw
  have hreach := r.reflTransGen_of_mem (List.mem_of_getLast? r.last_eq)
  obtain ⟨q, r'⟩ := Route.exists_of_reflTransGen (hlive i hreach)
  obtain ⟨q, rfl⟩ := r'.exists_tail
  refine ⟨q.reverse ++ w, ?_, List.suffix_append ..⟩
  refine List.mem_map.mpr ⟨w.reverse ++ q, (hmem _).mpr (r.trans r'), ?_⟩
  rw [List.reverse_append, List.reverse_reverse]

theorem length_serve_le (hmem : ∀ p, p ∈ ps ↔ p ∈ g.paths) (k : Nat) :
    ((Walk.serve g.successors g.sink)^[k] ([], [[g.source]])).1.length +
      ((Walk.serve g.successors g.sink)^[k] ([], [[g.source]])).2.length ≤ ps.length := by
  have hstart : Walk.Spread (Walks g g.source) ([], [[g.source]]) := by
    constructor
    · exact List.pairwise_singleton ..
    · intro w hw
      rcases List.mem_singleton.mp hw with rfl
      exact ⟨g.source, .here g.source⟩
  have hspread : Walk.Spread (Walks g g.source)
      ((Walk.serve g.successors g.sink)^[k] ([], [[g.source]])) :=
    hstart.serve_iterate g.nodup_successors (fun v hv w hw => walks_continuations hv hw) k
  have hlength := hspread.length_le fun w hw => exists_path_of_walks hlive hmem hw
  rwa [List.length_map] at hlength

theorem source_ne_sink (hacyclic : ∀ i, ¬ Relation.TransGen g.Joins i i)
    (hedges : g.edges ≠ []) : g.source ≠ g.sink := by
  intro heq
  obtain ⟨s, j, hj, hs⟩ := exists_unentered hacyclic hedges
  obtain ⟨⟨k, hk⟩, -⟩ := source_first hj hs
  exact hacyclic g.source (.head' hk (heq ▸ hlive k (.single hk)))

end Live

/-- The ends of an edge are places among the tokens, so that a graph with an edge has a token. -/
theorem allPaths_limit_exact (hacyclic : ∀ i, ¬ Relation.TransGen g.Joins i i)
    (htokens : g.tokens ≠ []) (hedges : g.edges ≠ [])
    (hlive : ∀ i, Relation.ReflTransGen g.Joins g.source i →
      Relation.ReflTransGen g.Joins i g.sink) (n : Nat) :
    Set.Finite g.paths ∧
    (∃ ps, g.allPaths none = .ok ps) ∧
    g.allPaths (some n) =
      (if Set.ncard g.paths ≤ n then g.allPaths none else .error (.pathLimit n)) ∧
    (∀ ps, g.allPaths (some n) = .ok ps → ps.length ≤ n) ∧
    ∀ k, ((Walk.serve g.successors g.sink)^[k] ([], [[g.source]])).1.length +
      ((Walk.serve g.successors g.sink)^[k] ([], [[g.source]])).2.length ≤ Set.ncard g.paths := by
  have hempty : g.isEmpty = false := by simpa [isEmpty] using hedges
  have hne := source_ne_sink hlive hacyclic hedges
  obtain ⟨ps, hps, hnodup, hmem⟩ := exists_allPaths_of_acyclic hacyclic htokens hempty
  have hcount := ncard_paths hmem hnodup
  have hlimit := allPaths_some_of_live hacyclic htokens hempty hlive hne hps n
  rw [hcount, hps]
  refine ⟨paths_eq_toFinset hmem ▸ Finset.finite_toSet _, ⟨ps, rfl⟩, hlimit, ?_,
    length_serve_le hlive hmem⟩
  intro ps' hps'
  rw [hlimit] at hps'
  split at hps'
  · rename_i hle
    obtain rfl := Except.ok.inj hps'
    exact hle
  · cases hps'

theorem allPaths_limit_exact_of_forked :
    Set.ncard forked.paths = 2 ∧
    forked.allPaths (some 2) = forked.allPaths none ∧
    forked.allPaths (some 1) = .error (.pathLimit 1) := by
  have hspan := bipolar_forked.spans
  obtain ⟨ps, hps, hnodup, hmem⟩ := hspan.exists_allPaths
  have hall : (forked.allPaths none).toOption =
      some [[0, 1, 2, 5, 6, 7], [0, 1, 4, 5, 6, 7]] := by cbv
  rw [hps] at hall
  obtain rfl := Option.some.inj hall
  have hcount : Set.ncard forked.paths = 2 := ncard_paths hmem hnodup
  have hexact := allPaths_limit_exact bipolar_forked.acyclic (List.cons_ne_nil _ _)
    (List.cons_ne_nil _ _) fun i => hspan.reaches_sink
  obtain ⟨-, -, htwo, -⟩ := hexact 2
  obtain ⟨-, -, hone, -⟩ := hexact 1
  rw [hcount] at htwo hone
  exact ⟨hcount, htwo, hone⟩

end Graph

end SpokenGrammar
