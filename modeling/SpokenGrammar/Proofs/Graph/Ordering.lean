import Mathlib.Data.List.Lex
import Mathlib.Data.List.Permutation
import Mathlib.Logic.Function.Iterate
import SpokenGrammar.Proofs.Graph.Enumeration

namespace SpokenGrammar

theorem lex_append {r : Nat → Nat → Prop} {xs ys : List Nat} (h : List.Lex r xs ys)
    (hlength : xs.length = ys.length) (us vs : List Nat) : List.Lex r (xs ++ us) (ys ++ vs) := by
  induction h with
  | nil => simp at hlength
  | rel hxy => exact .rel hxy
  | cons _ ih => exact .cons (ih (by simpa using hlength))

theorem pairwise_idxOf {xs : List Nat} (h : xs.Nodup) :
    xs.Pairwise fun x y => xs.idxOf x < xs.idxOf y := by
  rw [List.pairwise_iff_getElem]
  intro i j hi hj hij
  rwa [h.idxOf_getElem, h.idxOf_getElem]

namespace Walk

variable {next : Nat → List Nat} {sink : Nat}

def choices (next : Nat → List Nat) : List Nat → List Nat
  | i :: j :: p => (next i).idxOf j :: choices next (j :: p)
  | _ => []

theorem choices_snoc (p : List Nat) (i j : Nat) :
    choices next (p ++ [i, j]) = choices next (p ++ [i]) ++ [(next i).idxOf j] := by
  induction p with
  | nil => rfl
  | cons k p ih =>
    cases p with
    | nil => rfl
    | cons l p => exact congrArg ((next k).idxOf l :: ·) ih

theorem length_choices (p : List Nat) : (choices next p).length = p.length - 1 := by
  induction p with
  | nil => rfl
  | cons i p ih =>
    cases p with
    | nil => rfl
    | cons j p => simpa [choices] using ih

/-- Whether a walk takes a successor before the other walk's where the two part. -/
def Earlier (next : Nat → List Nat) (v w : Walk) : Prop :=
  List.Lex (· < ·) (choices next v.reverse) (choices next w.reverse)

theorem choices_continued (i j : Nat) (u : Walk) :
    choices next (j :: i :: u).reverse =
      choices next (i :: u).reverse ++ [(next i).idxOf j] := by
  rw [List.reverse_cons, List.reverse_cons, List.append_assoc]
  exact choices_snoc u.reverse i j

theorem pairwise_continuations (hn : ∀ i, (next i).Nodup) (v : Walk) :
    (continuations next sink v).Pairwise (Earlier next) := by
  cases v with
  | nil => exact .nil
  | cons i u =>
    rw [continuations]
    split
    · exact .nil
    · refine List.pairwise_map.mpr ((pairwise_idxOf (hn i)).imp fun {j k} hjk => ?_)
      rw [Earlier, choices_continued, choices_continued]
      exact .append_left _ (.rel hjk) _

theorem pairwise_level (hn : ∀ i, (next i).Nodup) {level : List Walk} {d : Nat}
    (hl : level.Pairwise (Earlier next)) (hd : ∀ w ∈ level, w.length = d) :
    (level.flatMap (continuations next sink)).Pairwise (Earlier next) := by
  refine List.pairwise_flatMap.mpr ⟨fun v _ => pairwise_continuations hn v, ?_⟩
  refine hl.imp_of_mem fun {v v'} hv hv' hvv' w hw w' hw' => ?_
  obtain ⟨i, u, j, rfl, -, rfl⟩ := eq_cons_of_mem_continuations hw
  obtain ⟨i', u', j', rfl, -, rfl⟩ := eq_cons_of_mem_continuations hw'
  rw [Earlier, choices_continued, choices_continued]
  refine lex_append hvv' ?_ _ _
  rw [length_choices, length_choices, List.length_reverse, List.length_reverse, hd _ hv, hd _ hv']

def Precedes (next : Nat → List Nat) (p q : List Nat) : Prop :=
  p.length < q.length ∨
    p.length = q.length ∧ List.Lex (· < ·) (choices next p) (choices next q)

theorem pairwise_completions (hn : ∀ i, (next i).Nodup) {fuel found d : Nat}
    {level cs : List Walk} (h : completions next sink none fuel found level = .ok cs)
    (hl : level.Pairwise (Earlier next)) (hd : ∀ w ∈ level, w.length = d) :
    (cs.map List.reverse).Pairwise (Precedes next) := by
  induction fuel generalizing found level cs d with
  | zero =>
    obtain ⟨-, rfl⟩ := eq_nil_of_completions_zero h
    exact .nil
  | succ fuel ih =>
    obtain ⟨cs', hcs', rfl⟩ := exists_of_completions_succ h
    have hlonger : ∀ w ∈ level.flatMap (continuations next sink), w.length = d + 1 :=
      length_level hd
    rw [List.map_append, List.pairwise_append]
    refine ⟨?_, ih hcs' (pairwise_level hn hl hd) hlonger, ?_⟩
    · refine List.pairwise_map.mpr ((hl.filter _).imp_of_mem fun hv hw hvw => .inr ⟨?_, hvw⟩)
      rw [List.length_reverse, List.length_reverse, hd _ (List.mem_filter.mp hv).1,
        hd _ (List.mem_filter.mp hw).1]
    · intro p hp q hq
      obtain ⟨v, hv, rfl⟩ := List.mem_map.mp hp
      obtain ⟨w, hw, rfl⟩ := List.mem_map.mp hq
      left
      rw [List.length_reverse, List.length_reverse, hd _ (List.mem_filter.mp hv).1]
      exact le_length_of_mem_completions hcs' hlonger w hw

/-- Takes the first walk off a queue. A complete one is done, another is put back behind the rest
with each node that it can be continued by. -/
def serve (next : Nat → List Nat) (sink : Nat) :
    List Walk × List Walk → List Walk × List Walk
  | (done, []) => (done, [])
  | (done, w :: pending) =>
    if isComplete sink w then (done ++ [w], pending)
    else (done, pending ++ continuations next sink w)

theorem serve_level (done level later : List Walk) :
    (serve next sink)^[level.length] (done, level ++ later) =
      (done ++ level.filter (isComplete sink),
        later ++ level.flatMap (continuations next sink)) := by
  induction level generalizing done later with
  | nil => simp
  | cons w level ih =>
    rw [List.length_cons, Function.iterate_succ_apply, List.cons_append, serve]
    split
    · rename_i hw
      rw [ih, List.filter_cons_of_pos hw, List.flatMap_cons, continuations_of_isComplete hw]
      simp
    · rename_i hw
      rw [List.append_assoc, ih, List.filter_cons_of_neg hw, List.flatMap_cons, List.append_assoc]

theorem serve_completions {fuel found : Nat} {level cs : List Walk}
    (h : completions next sink none fuel found level = .ok cs) (done : List Walk) :
    ∃ n, (serve next sink)^[n] (done, level) = (done ++ cs, []) := by
  induction fuel generalizing found level cs done with
  | zero =>
    obtain ⟨rfl, rfl⟩ := eq_nil_of_completions_zero h
    exact ⟨0, by simp⟩
  | succ fuel ih =>
    obtain ⟨cs', hcs', rfl⟩ := exists_of_completions_succ h
    obtain ⟨n, hn⟩ := ih hcs' (done ++ level.filter (isComplete sink))
    refine ⟨n + level.length, ?_⟩
    have hlevel : (serve next sink)^[level.length] (done, level ++ []) = _ :=
      serve_level done level []
    rw [List.append_nil, List.nil_append] at hlevel
    rw [Function.iterate_add_apply, hlevel, hn, List.append_assoc]

end Walk

namespace Graph

variable {g : Graph}

theorem allPaths_ordered (hacyclic : ∀ i, ¬ Relation.TransGen g.Joins i i)
    (hwithin : ∀ e ∈ g.edges, e.source < g.tokens.length ∧ e.target < g.tokens.length)
    (hedges : g.edges ≠ []) :
    ∃ ps, g.allPaths none = .ok ps ∧
      (∃ n, (Walk.serve g.successors g.sink)^[n] ([], [[g.source]]) =
        (ps.map List.reverse, [])) ∧
      ps.Nodup ∧
      (∀ p, p ∈ ps ↔ Route g.Joins g.source g.sink p) ∧
      ps.Pairwise (Walk.Precedes g.successors) := by
  obtain ⟨e, he⟩ := List.exists_mem_of_ne_nil _ hedges
  have htokens : g.tokens ≠ [] := List.ne_nil_of_length_pos (Nat.zero_lt_of_lt (hwithin e he).1)
  have hempty : g.isEmpty = false := by simpa [isEmpty] using hedges
  have hlength : ∀ w ∈ [[g.source]], w.length = 1 := by simp
  obtain ⟨cs, hcs⟩ := exists_completions hacyclic g.source g.sink
  refine ⟨cs.map List.reverse, ?_, ?_, nodup_of_completions hcs, mem_completions_iff hacyclic hcs,
    Walk.pairwise_completions g.nodup_successors hcs (List.pairwise_singleton ..) hlength⟩
  · rw [allPaths_eq_completions htokens hempty, levelBound, hcs]
    rfl
  · obtain ⟨n, hn⟩ := Walk.serve_completions hcs []
    exact ⟨n, by simpa using hn⟩

def crossing : Graph where
  tokens := [.start, .text "a" none, .text "b" none, .finish, .text "c" none]
  edges := [⟨0, 2, none⟩, ⟨0, 1, none⟩, ⟨1, 3, none⟩, ⟨2, 4, none⟩, ⟨2, 3, none⟩, ⟨0, 3, none⟩]
  distinct := by simp [Distinct, Edge.ends]

theorem allPaths_ordered_of_crossing :
    crossing.allPaths none = .ok [[0, 3], [0, 2, 3], [0, 1, 3]] ∧
    (∀ p, p ∈ [[0, 3], [0, 2, 3], [0, 1, 3]] ↔ Route crossing.Joins 0 3 p) ∧
    [[0, 3], [0, 2, 3], [0, 1, 3]].Pairwise (Walk.Precedes crossing.successors) := by
  have hends : ∀ e ∈ crossing.edges, e.source < e.target ∧ e.target < crossing.tokens.length := by
    simp [crossing]
  have hrising : ∀ i j, crossing.Joins i j → id i < id j := by
    intro i j hij
    obtain ⟨e, he, heq⟩ := List.mem_map.mp hij
    obtain ⟨rfl, rfl⟩ := Prod.mk.inj heq
    exact (hends e he).1
  have hwithin : ∀ e ∈ crossing.edges,
      e.source < crossing.tokens.length ∧ e.target < crossing.tokens.length :=
    fun e he => ⟨(hends e he).1.trans (hends e he).2, (hends e he).2⟩
  obtain ⟨ps, hps, -, -, hmem, hordered⟩ :=
    allPaths_ordered (acyclic_of_rank hrising) hwithin (List.cons_ne_nil _ _)
  have hsource : crossing.source = 0 := by cbv
  have hsink : crossing.sink = 3 := by cbv
  rw [hsource, hsink] at hmem
  have hall : (crossing.allPaths none).toOption = some [[0, 3], [0, 2, 3], [0, 1, 3]] := by
    cbv
  rw [hps] at hall
  obtain rfl := Option.some.inj hall
  exact ⟨hps, hmem, hordered⟩

end Graph

end SpokenGrammar
