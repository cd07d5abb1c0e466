import Mathlib.Data.List.Nodup
import SpokenGrammar.Graph.Elide
import SpokenGrammar.Graph.Paths
import SpokenGrammar.Proofs.Graph.Route

namespace SpokenGrammar

namespace Walk

variable {next : Nat → List Nat} {sink : Nat}

inductive Completes (next : Nat → List Nat) (sink : Nat) : Walk → Walk → Prop where
  | done {w : Walk} : isComplete sink w = true → Completes next sink w w
  | step {v v' w : Walk} :
      v' ∈ continuations next sink v → Completes next sink v' w → Completes next sink v w

theorem continuations_of_isComplete {w : Walk} (h : isComplete sink w = true) :
    continuations next sink w = [] := by
  cases w with
  | nil => rfl
  | cons i w =>
    have hi : i = sink := by simpa [isComplete] using h
    exact if_pos hi

theorem continuations_of_complete {level : List Walk} (h : ∀ w ∈ level, isComplete sink w = true) :
    level.flatMap (continuations next sink) = [] :=
  List.flatMap_eq_nil_iff.mpr fun w hw => continuations_of_isComplete (h w hw)

theorem completes_iff {v w : Walk} :
    Completes next sink v w ↔ (v = w ∧ isComplete sink v = true) ∨
      ∃ v' ∈ continuations next sink v, Completes next sink v' w := by
  constructor
  · intro h
    cases h with
    | done h => exact .inl ⟨rfl, h⟩
    | step hv h => exact .inr ⟨_, hv, h⟩
  · rintro (⟨rfl, h⟩ | ⟨v', hv, h⟩)
    · exact .done h
    · exact .step hv h

theorem completions_succ (fuel found : Nat) (level : List Walk) :
    completions next sink none (fuel + 1) found level =
      (completions next sink none fuel (found + (level.filter (isComplete sink)).length)
        (level.flatMap (continuations next sink))).map
        (level.filter (isComplete sink) ++ ·) := by
  cases level with
  | nil => cases fuel <;> rfl
  | cons w level => rfl

theorem exists_of_completions_succ {fuel found : Nat} {level cs : List Walk}
    (h : completions next sink none (fuel + 1) found level = .ok cs) :
    ∃ cs', completions next sink none fuel (found + (level.filter (isComplete sink)).length)
        (level.flatMap (continuations next sink)) = .ok cs' ∧
      cs = level.filter (isComplete sink) ++ cs' := by
  rw [completions_succ] at h
  cases hc : completions next sink none fuel
      (found + (level.filter (isComplete sink)).length)
      (level.flatMap (continuations next sink)) with
  | error f =>
    rw [hc] at h
    cases h
  | ok cs' =>
    rw [hc] at h
    cases h
    exact ⟨cs', rfl, rfl⟩

theorem eq_nil_of_completions_zero {limit : Option Nat} {found : Nat} {level cs : List Walk}
    (h : completions next sink limit 0 found level = .ok cs) : level = [] ∧ cs = [] := by
  cases level with
  | nil =>
    cases h
    exact ⟨rfl, rfl⟩
  | cons w level => cases h

theorem mem_completions {fuel found : Nat} {level cs : List Walk}
    (h : completions next sink none fuel found level = .ok cs) {w : Walk} :
    w ∈ cs ↔ ∃ v ∈ level, Completes next sink v w := by
  induction fuel generalizing found level cs with
  | zero =>
    obtain ⟨rfl, rfl⟩ := eq_nil_of_completions_zero h
    simp
  | succ fuel ih =>
    obtain ⟨cs', hcs', rfl⟩ := exists_of_completions_succ h
    rw [List.mem_append, List.mem_filter, ih hcs']
    constructor
    · rintro (⟨hw, hc⟩ | ⟨v', hv', hc⟩)
      · exact ⟨w, hw, .done hc⟩
      · obtain ⟨v, hv, hv'⟩ := List.mem_flatMap.mp hv'
        exact ⟨v, hv, .step hv' hc⟩
    · rintro ⟨v, hv, hc⟩
      rcases completes_iff.mp hc with ⟨rfl, hdone⟩ | ⟨v', hv', hrest⟩
      · exact .inl ⟨hv, hdone⟩
      · exact .inr ⟨v', List.mem_flatMap.mpr ⟨v, hv, hv'⟩, hrest⟩

theorem eq_cons_of_mem_continuations {v w : Walk} (h : w ∈ continuations next sink v) :
    ∃ i u j, v = i :: u ∧ j ∈ next i ∧ w = j :: v := by
  cases v with
  | nil => cases h
  | cons i u =>
    rw [continuations] at h
    split at h
    · cases h
    · obtain ⟨j, hj, rfl⟩ := List.mem_map.mp h
      exact ⟨i, u, j, rfl, hj, rfl⟩

theorem nodup_continuations (hn : ∀ i, (next i).Nodup) (v : Walk) :
    (continuations next sink v).Nodup := by
  cases v with
  | nil => exact .nil
  | cons i u =>
    rw [continuations]
    split
    · exact .nil
    · exact (hn i).map fun a b hab => (List.cons.inj hab).1

theorem nodup_level (hn : ∀ i, (next i).Nodup) {level : List Walk} (hl : level.Nodup) :
    (level.flatMap (continuations next sink)).Nodup := by
  rw [List.nodup_flatMap]
  refine ⟨fun v _ => nodup_continuations hn v, hl.imp fun {v v'} hne => ?_⟩
  intro w hw hw'
  obtain ⟨-, -, j, -, -, rfl⟩ := eq_cons_of_mem_continuations hw
  obtain ⟨-, -, j', -, -, heq⟩ := eq_cons_of_mem_continuations hw'
  exact hne (List.cons.inj heq).2

theorem length_level {level : List Walk} {d : Nat} (hd : ∀ w ∈ level, w.length = d) :
    ∀ w ∈ level.flatMap (continuations next sink), w.length = d + 1 := by
  intro w hw
  obtain ⟨v, hv, hw⟩ := List.mem_flatMap.mp hw
  obtain ⟨-, -, j, -, -, rfl⟩ := eq_cons_of_mem_continuations hw
  rw [List.length_cons, hd v hv]

theorem le_length_of_mem_completions {fuel found d : Nat} {level cs : List Walk}
    (h : completions next sink none fuel found level = .ok cs)
    (hd : ∀ w ∈ level, w.length = d) : ∀ w ∈ cs, d ≤ w.length := by
  induction fuel generalizing found level cs d with
  | zero =>
    obtain ⟨-, rfl⟩ := eq_nil_of_completions_zero h
    exact fun w hw => absurd hw List.not_mem_nil
  | succ fuel ih =>
    obtain ⟨cs', hcs', rfl⟩ := exists_of_completions_succ h
    intro w hw
    rcases List.mem_append.mp hw with hw | hw
    · exact (hd w (List.mem_filter.mp hw).1).ge
    · exact Nat.le_of_succ_le (ih hcs' (length_level hd) w hw)

theorem nodup_completions (hn : ∀ i, (next i).Nodup) {fuel found d : Nat} {level cs : List Walk}
    (h : completions next sink none fuel found level = .ok cs) (hl : level.Nodup)
    (hd : ∀ w ∈ level, w.length = d) : cs.Nodup := by
  induction fuel generalizing found level cs d with
  | zero =>
    obtain ⟨-, rfl⟩ := eq_nil_of_completions_zero h
    exact .nil
  | succ fuel ih =>
    obtain ⟨cs', hcs', rfl⟩ := exists_of_completions_succ h
    refine List.nodup_append.mpr ⟨hl.filter _, ih hcs' (nodup_level hn hl) (length_level hd), ?_⟩
    rintro w hw w' hw' rfl
    have hshort := hd w (List.mem_filter.mp hw).1
    have hlong := le_length_of_mem_completions hcs' (length_level hd) w hw'
    omega

theorem completions_total {P : Walk → Prop} {bound : Nat}
    (hP : ∀ v, P v → ∀ w ∈ continuations next sink v, P w) (hb : ∀ w, P w → w.length ≤ bound)
    {fuel found d : Nat} {level : List Walk} (hl : ∀ w ∈ level, P w ∧ w.length = d + 1)
    (hfuel : bound ≤ fuel + d) :
    ∃ cs, completions next sink none fuel found level = .ok cs := by
  -- The fuel suffices if it and the length of the walks make up a bound of the lengths.
  induction fuel generalizing found level d with
  | zero =>
    cases level with
    | nil => exact ⟨[], rfl⟩
    | cons w level =>
      obtain ⟨hw, hlen⟩ := hl w List.mem_cons_self
      have := hb w hw
      omega
  | succ fuel ih =>
    have hnext : ∀ w ∈ level.flatMap (continuations next sink), P w ∧ w.length = d + 1 + 1 := by
      intro w hw
      obtain ⟨v, hv, hvw⟩ := List.mem_flatMap.mp hw
      exact ⟨hP v (hl v hv).1 w hvw, length_level (fun v hv => (hl v hv).2) w hw⟩
    obtain ⟨cs, hcs⟩ := ih hnext (by omega)
    exact ⟨_, by rw [completions_succ, hcs]; rfl⟩

theorem completions_mono {fuel fuel' found found' : Nat} {level cs : List Walk}
    (h : completions next sink none fuel found level = .ok cs) (hle : fuel ≤ fuel') :
    completions next sink none fuel' found' level = .ok cs := by
  induction fuel generalizing fuel' found found' level cs with
  | zero =>
    obtain ⟨rfl, rfl⟩ := eq_nil_of_completions_zero h
    cases fuel' <;> rfl
  | succ fuel ih =>
    obtain ⟨cs', hcs', rfl⟩ := exists_of_completions_succ h
    cases fuel' with
    | zero => omega
    | succ fuel' =>
      rw [completions_succ, ih hcs' (by omega)]
      rfl

section Limit

variable {limit : Nat}

def Lives (next : Nat → List Nat) (sink : Nat) (w : Walk) : Prop :=
  isComplete sink w = true ∨ continuations next sink w ≠ []

theorem length_le_next {level : List Walk} (hl : ∀ w ∈ level, Lives next sink w) :
    level.length ≤ (level.filter (isComplete sink)).length +
      (level.flatMap (continuations next sink)).length := by
  induction level with
  | nil => exact Nat.le_refl 0
  | cons w level ih =>
    have hrest := ih fun v hv => hl v (List.mem_cons_of_mem _ hv)
    rw [List.flatMap_cons, List.length_append, List.length_cons]
    rcases hl w List.mem_cons_self with hw | hw
    · rw [List.filter_cons_of_pos hw, List.length_cons]
      omega
    · have := List.length_pos_iff.mpr hw
      have := ((List.sublist_cons_self w level).filter (isComplete sink)).length_le
      omega

/-- The count only grows while a level is continued, so its last value decides. -/
theorem staysWithin_iff {c : Nat} {level : List Walk} (hl : ∀ w ∈ level, Lives next sink w) :
    staysWithin next sink limit (c + level.length) level = true ↔
      ((∃ w ∈ level, isComplete sink w = false) →
        c + (level.filter (isComplete sink)).length +
          (level.flatMap (continuations next sink)).length ≤ limit) := by
  induction level generalizing c with
  | nil => simp [staysWithin]
  | cons w level ih =>
    have hrest : ∀ v ∈ level, Lives next sink v := fun v hv => hl v (List.mem_cons_of_mem _ hv)
    have hgrow := length_le_next hrest
    rw [staysWithin, List.flatMap_cons, List.length_append, List.length_cons]
    by_cases hw : isComplete sink w = true
    · rw [if_pos hw, List.filter_cons_of_pos hw, continuations_of_isComplete hw,
        show c + (level.length + 1) = c + 1 + level.length by omega, ih hrest]
      simp only [List.exists_mem_cons_iff, hw, Bool.true_eq_false, false_or, List.length_cons,
        List.length_nil]
      refine imp_congr_right fun _ => ?_
      omega
    · have hpos := List.length_pos_iff.mpr ((hl w List.mem_cons_self).resolve_left hw)
      obtain ⟨m, hm⟩ := Nat.exists_eq_succ_of_ne_zero hpos.ne'
      rw [if_neg hw, List.filter_cons_of_neg hw, hm]
      simp only [Bool.and_eq_true, decide_eq_true_eq]
      rw [show c + (level.length + 1) + m = c + m + 1 + level.length by omega, ih hrest]
      have hex : ∃ v ∈ w :: level, isComplete sink v = false :=
        ⟨w, List.mem_cons_self, Bool.eq_false_iff.mpr hw⟩
      simp only [hex, true_implies]
      by_cases hlevel : ∃ v ∈ level, isComplete sink v = false
      · simp only [hlevel, true_implies]
        omega
      · simp only [hlevel, false_implies, and_true]
        have hall : ∀ v ∈ level, isComplete sink v = true := by
          intro v hv
          by_contra hc
          exact hlevel ⟨v, hv, Bool.eq_false_iff.mpr hc⟩
        have hfilter : level.filter (isComplete sink) = level := List.filter_eq_self.mpr hall
        rw [hfilter, continuations_of_complete hall, List.length_nil]
        omega

variable {P : Walk → Prop} (hP : ∀ v, P v → ∀ w ∈ continuations next sink v, P w)
  (hlives : ∀ v, P v → Lives next sink v)
include hP hlives

theorem length_le_completions {fuel found : Nat} {level cs : List Walk} (hl : ∀ w ∈ level, P w)
    (h : completions next sink none fuel found level = .ok cs) : level.length ≤ cs.length := by
  induction fuel generalizing found level cs with
  | zero =>
    obtain ⟨rfl, rfl⟩ := eq_nil_of_completions_zero h
    exact Nat.le_refl 0
  | succ fuel ih =>
    obtain ⟨cs', hcs', rfl⟩ := exists_of_completions_succ h
    have hnext : ∀ w ∈ level.flatMap (continuations next sink), P w := by
      intro w hw
      obtain ⟨v, hv, hw⟩ := List.mem_flatMap.mp hw
      exact hP v (hl v hv) w hw
    have hlater := ih hnext hcs'
    have hgrow := length_le_next fun w hw => hlives w (hl w hw)
    rw [List.length_append]
    omega

omit hP hlives in
theorem eq_of_completions_complete {fuel found : Nat} {level cs : List Walk}
    (hl : ∀ w ∈ level, isComplete sink w = true)
    (h : completions next sink none fuel found level = .ok cs) : cs = level := by
  cases fuel with
  | zero =>
    obtain ⟨rfl, rfl⟩ := eq_nil_of_completions_zero h
    rfl
  | succ fuel =>
    obtain ⟨cs', hcs', rfl⟩ := exists_of_completions_succ h
    rw [continuations_of_complete hl] at hcs'
    obtain rfl : [] = cs' := by
      cases fuel <;> exact Except.ok.inj hcs'
    rw [List.append_nil, List.filter_eq_self.mpr hl]

omit hP hlives in
theorem completions_some_succ (fuel found : Nat) (level : List Walk) :
    completions next sink (some limit) (fuel + 1) found level =
      if staysWithin next sink limit (found + level.length) level = true then
        (completions next sink (some limit) fuel (found + (level.filter (isComplete sink)).length)
          (level.flatMap (continuations next sink))).map (level.filter (isComplete sink) ++ ·)
      else .error (.pathLimit limit) := by
  cases level with
  | nil => cases fuel <;> rfl
  | cons w rest =>
    rw [completions]
    cases hs : staysWithin next sink limit (found + (w :: rest).length) (w :: rest) with
    | true =>
      have hfilter : (some limit).filter (fun n =>
          !staysWithin next sink n (found + (w :: rest).length) (w :: rest)) = none :=
        Option.filter_some_neg (by rw [hs]; decide)
      rw [hfilter, if_pos rfl]
    | false =>
      have hfilter : (some limit).filter (fun n =>
          !staysWithin next sink n (found + (w :: rest).length) (w :: rest)) = some limit :=
        Option.filter_some_pos (by rw [hs]; rfl)
      rw [hfilter, if_neg Bool.false_ne_true]

theorem completions_some {fuel found : Nat} {level cs : List Walk} (hl : ∀ w ∈ level, P w)
    (h : completions next sink none fuel found level = .ok cs) :
    completions next sink (some limit) fuel found level =
      if (∃ w ∈ level, isComplete sink w = false) ∧ limit < found + cs.length
      then .error (.pathLimit limit) else .ok cs := by
  induction fuel generalizing found level cs with
  | zero =>
    obtain ⟨rfl, rfl⟩ := eq_nil_of_completions_zero h
    simp [completions]
  | succ fuel ih =>
    obtain ⟨cs', hcs', rfl⟩ := exists_of_completions_succ h
    have hnext : ∀ v ∈ level.flatMap (continuations next sink), P v := by
      intro v hv
      obtain ⟨u, hu, hv⟩ := List.mem_flatMap.mp hv
      exact hP u (hl u hu) v hv
    have hstays : staysWithin next sink limit (found + level.length) level = true ↔ _ :=
      staysWithin_iff fun v hv => hlives v (hl v hv)
    have hlater := length_le_completions hP hlives hnext hcs'
    rw [completions_some_succ, ih hnext hcs', List.length_append]
    by_cases hopen : ∃ w ∈ level, isComplete sink w = false
    · simp only [hopen, true_implies] at hstays
      simp only [hopen, true_and]
      by_cases hbound : found + (level.filter (isComplete sink)).length +
          (level.flatMap (continuations next sink)).length ≤ limit
      · rw [if_pos (hstays.mpr hbound)]
        by_cases hopen' : ∃ w ∈ level.flatMap (continuations next sink), isComplete sink w = false
        · simp only [hopen', true_and, Nat.add_assoc]
          split <;> rfl
        · have hcomplete : ∀ w ∈ level.flatMap (continuations next sink),
              isComplete sink w = true := by
            intro w hw
            by_contra hc
            exact hopen' ⟨w, hw, Bool.eq_false_iff.mpr hc⟩
          have hsame := eq_of_completions_complete hcomplete hcs'
          rw [if_neg (fun h => hopen' h.1), if_neg (by rw [hsame]; omega)]
          rfl
      · rw [if_neg (fun h => hbound (hstays.mp h)), if_pos (by omega)]
    · have hcomplete : ∀ w ∈ level, isComplete sink w = true := by
        intro w hw
        by_contra hc
        exact hopen ⟨w, hw, Bool.eq_false_iff.mpr hc⟩
      have hnil : level.flatMap (continuations next sink) = [] :=
        continuations_of_complete hcomplete
      rw [if_pos (hstays.mpr fun h => absurd h hopen), hnil,
        if_neg (fun h => h.1.elim fun _ hw => List.not_mem_nil hw.1), if_neg (fun h => hopen h.1)]
      rfl

end Limit

variable {joins : Nat → Nat → Prop} {i j : Nat} {p u v w : Walk}

theorem completes_of_route (hnext : ∀ i j, j ∈ next i ↔ joins i j) (r : Route joins i sink p)
    (hnodup : p.Nodup) (u : Walk) : Completes next sink (i :: u) (p.reverse ++ u) := by
  induction r generalizing u with
  | here i => exact .done (by simp [isComplete])
  | @step i j k p hij r ih =>
    obtain ⟨hi, hrest⟩ := List.nodup_cons.mp hnodup
    have hne : i ≠ k := by
      rintro rfl
      exact hi (List.mem_of_getLast? r.last_eq)
    have hmem : (j :: i :: u) ∈ continuations next k (i :: u) := by
      rw [continuations, if_neg hne]
      exact List.mem_map.mpr ⟨j, (hnext i j).mpr hij, rfl⟩
    rw [List.reverse_cons, List.append_assoc]
    exact .step hmem (ih hrest (i :: u))

theorem exists_route_of_completes (hnext : ∀ i j, j ∈ next i ↔ joins i j)
    (h : Completes next sink v w) (hv : ∃ i, Route joins j i v.reverse) :
    Route joins j sink w.reverse := by
  induction h with
  | @done w hdone =>
    obtain ⟨i, r⟩ := hv
    have hlast := r.last_eq
    rw [List.getLast?_reverse] at hlast
    have hhead : w.head? = some sink := by simpa [isComplete] using hdone
    obtain rfl : sink = i := Option.some.inj (hhead.symm.trans hlast)
    exact r
  | step hmem _ ih =>
    refine ih ?_
    obtain ⟨i, u, k, rfl, hk, rfl⟩ := eq_cons_of_mem_continuations hmem
    obtain ⟨l, r⟩ := hv
    have hlast := r.last_eq
    rw [List.getLast?_reverse] at hlast
    obtain rfl : i = l := Option.some.inj hlast
    rw [List.reverse_cons]
    exact ⟨k, r.snoc ((hnext i k).mp hk)⟩

end Walk

namespace Graph

variable {g : Graph} {s t : Nat}

theorem nodup_successors (g : Graph) (i : Nat) : (g.successors i).Nodup := by
  have hnodup : ((g.successors i).map (i, ·)).Nodup := by
    rw [map_successors]
    exact List.Nodup.filter _ g.distinct
  exact hnodup.of_map _

def Walks (g : Graph) (s : Nat) (w : Walk) : Prop :=
  ∃ i, Route g.Joins s i w.reverse

theorem walks_continuations {w v : Walk} (hv : Walks g s v)
    (hw : w ∈ Walk.continuations g.successors t v) : Walks g s w := by
  obtain ⟨i, u, j, rfl, hj, rfl⟩ := Walk.eq_cons_of_mem_continuations hw
  obtain ⟨k, r⟩ := hv
  have hlast := r.last_eq
  rw [List.getLast?_reverse] at hlast
  obtain rfl : i = k := Option.some.inj hlast
  rw [Walks, List.reverse_cons]
  exact ⟨j, r.snoc (mem_successors_iff.mp hj)⟩

theorem nodup_of_completions {cs : List Walk} {fuel : Nat}
    (hcs : Walk.completions g.successors t none fuel 0 [[s]] = .ok cs) :
    (cs.map List.reverse).Nodup := by
  have hlength : ∀ w ∈ [[s]], w.length = 1 := by simp
  exact (Walk.nodup_completions g.nodup_successors hcs (List.nodup_singleton _) hlength).map
    List.reverse_injective

section Acyclic

variable (hacyclic : ∀ i, ¬ Relation.TransGen g.Joins i i)
include hacyclic

theorem completes_iff {w : Walk} :
    Walk.Completes g.successors t [s] w ↔ Route g.Joins s t w.reverse := by
  have hnext : ∀ i j, j ∈ g.successors i ↔ g.Joins i j := fun _ _ => mem_successors_iff
  constructor
  · intro hc
    exact Walk.exists_route_of_completes hnext hc ⟨s, .here s⟩
  · intro r
    have hc := Walk.completes_of_route hnext r (r.nodup hacyclic) []
    rwa [List.reverse_reverse, List.append_nil] at hc

theorem exists_completions (s t : Nat) :
    ∃ cs, Walk.completions g.successors t none (g.edges.length + 1) 0 [[s]] = .ok cs := by
  have hstart : ∀ w ∈ [[s]], Walks g s w ∧ w.length = 0 + 1 := by
    intro w hw
    rcases List.mem_singleton.mp hw with rfl
    exact ⟨⟨s, .here s⟩, rfl⟩
  have hbound : ∀ w, Walks g s w → w.length ≤ g.edges.length + 1 := by
    rintro w ⟨i, r⟩
    simpa using r.length_le hacyclic
  exact Walk.completions_total (fun v hv w hw => walks_continuations hv hw) hbound hstart le_rfl

theorem mem_completions_iff {cs : List Walk} {fuel : Nat}
    (hcs : Walk.completions g.successors t none fuel 0 [[s]] = .ok cs) (p : List Nat) :
    p ∈ cs.map List.reverse ↔ Route g.Joins s t p := by
  simp only [List.mem_map, Walk.mem_completions hcs, List.mem_singleton, exists_eq_left,
    completes_iff hacyclic]
  constructor
  · rintro ⟨w, hw, rfl⟩
    exact hw
  · intro hp
    exact ⟨p.reverse, by rwa [List.reverse_reverse], List.reverse_reverse p⟩

end Acyclic

theorem allPaths_eq_completions (htokens : g.tokens ≠ []) (hedges : g.isEmpty = false)
    (limit : Option Nat) :
    g.allPaths limit =
      (Walk.completions g.successors g.sink limit (g.levelBound limit) 0 [[g.source]]).map
        (·.map List.reverse) := by
  rw [allPaths, hedges, lookUp_successorTable]
  simp [htokens]

theorem exists_allPaths_of_acyclic (hacyclic : ∀ i, ¬ Relation.TransGen g.Joins i i)
    (htokens : g.tokens ≠ []) (hedges : g.isEmpty = false) :
    ∃ ps, g.allPaths none = .ok ps ∧ ps.Nodup ∧ ∀ p, p ∈ ps ↔ p ∈ g.paths := by
  obtain ⟨cs, hcs⟩ := exists_completions hacyclic g.source g.sink
  refine ⟨cs.map List.reverse, ?_, nodup_of_completions hcs, mem_completions_iff hacyclic hcs⟩
  rw [allPaths_eq_completions htokens hedges, levelBound, hcs]
  rfl

section Live

variable (hlive : ∀ i, Relation.ReflTransGen g.Joins s i → Relation.ReflTransGen g.Joins i t)
include hlive

theorem lives_of_walks {w : Walk} (hw : Walks g s w) : Walk.Lives g.successors t w := by
  obtain ⟨i, r⟩ := hw
  have hlast := r.last_eq
  rw [List.getLast?_reverse] at hlast
  obtain ⟨u, rfl⟩ := List.head?_eq_some_iff.mp hlast
  by_cases hit : i = t
  · exact .inl (by simp [Walk.isComplete, hit])
  · right
    have hreach : Relation.ReflTransGen g.Joins s i := r.reflTransGen_of_mem (by simp)
    obtain ⟨j, hj, -⟩ := ((hlive i hreach).cases_head).resolve_left hit
    rw [Walk.continuations, if_neg hit, Ne, List.map_eq_nil_iff]
    exact List.ne_nil_of_mem (mem_successors_iff.mpr hj)

theorem completions_limit (hst : s ≠ t) {cs : List Walk}
    (hcs : Walk.completions g.successors t none (g.levelBound none) 0 [[s]] = .ok cs) (n : Nat) :
    Walk.completions g.successors t (some n) (g.levelBound (some n)) 0 [[s]] =
      if cs.length ≤ n then .ok cs else .error (.pathLimit n) := by
  have hfuel : g.levelBound none ≤ g.levelBound (some n) :=
    Nat.le_mul_of_pos_right _ (by omega)
  have hall : Walk.completions g.successors t none (g.levelBound (some n)) 0 [[s]] = .ok cs :=
    Walk.completions_mono hcs hfuel
  have hopen : ∃ w ∈ [[s]], Walk.isComplete t w = false :=
    ⟨[s], List.mem_singleton_self _, by simp [Walk.isComplete, hst]⟩
  have hstart : ∀ w ∈ [[s]], Walks g s w := by
    intro w hw
    rcases List.mem_singleton.mp hw with rfl
    exact ⟨s, .here s⟩
  rw [Walk.completions_some (P := Walks g s) (fun v hv w hw => walks_continuations hv hw)
    (fun v hv => lives_of_walks hlive hv) hstart hall]
  simp only [hopen, true_and, Nat.zero_add]
  by_cases hle : cs.length ≤ n
  · rw [if_neg (by omega), if_pos hle]
  · rw [if_pos (by omega), if_neg hle]

end Live

theorem allPaths_some_of_live (hacyclic : ∀ i, ¬ Relation.TransGen g.Joins i i)
    (htokens : g.tokens ≠ []) (hedges : g.isEmpty = false)
    (hlive : ∀ i, Relation.ReflTransGen g.Joins g.source i →
      Relation.ReflTransGen g.Joins i g.sink)
    (hne : g.source ≠ g.sink) {ps : List (List Nat)} (hps : g.allPaths none = .ok ps) (n : Nat) :
    g.allPaths (some n) = if ps.length ≤ n then .ok ps else .error (.pathLimit n) := by
  obtain ⟨cs, hcs⟩ := exists_completions hacyclic g.source g.sink
  rw [allPaths_eq_completions htokens hedges, levelBound, hcs] at hps
  obtain rfl : cs.map List.reverse = ps := Except.ok.inj hps
  rw [allPaths_eq_completions htokens hedges, completions_limit hlive hne hcs, List.length_map]
  split <;> rfl

namespace Spans

theorem exists_allPaths (h : g.Spans s t) :
    ∃ ps, g.allPaths none = .ok ps ∧ ps.Nodup ∧ ∀ p, p ∈ ps ↔ p ∈ g.paths :=
  exists_allPaths_of_acyclic h.acyclic h.tokens_ne_nil h.isEmpty_eq_false

theorem reaches_sink (h : g.Spans s t) {i : Nat} (hi : Relation.ReflTransGen g.Joins s i) :
    Relation.ReflTransGen g.Joins i t := by
  have htouched : g.Touched i := by
    rcases hi.cases_tail with rfl | ⟨j, -, hj⟩
    · exact h.touched
    · exact ⟨j, .inr hj⟩
  obtain ⟨p, r⟩ := h.exists_route_to htouched
  exact r.reflTransGen_of_mem (List.mem_of_getLast? r.last_eq)

theorem allPaths_some (h : g.Spans s t) {ps : List (List Nat)} (hps : g.allPaths none = .ok ps)
    (n : Nat) :
    g.allPaths (some n) = if ps.length ≤ n then .ok ps else .error (.pathLimit n) := by
  have hlive : ∀ i, Relation.ReflTransGen g.Joins g.source i →
      Relation.ReflTransGen g.Joins i g.sink := by
    rw [h.source_eq, h.sink_eq]
    exact fun i => h.reaches_sink
  have hne : g.source ≠ g.sink := by
    rw [h.source_eq, h.sink_eq]
    exact h.ne
  exact allPaths_some_of_live h.acyclic h.tokens_ne_nil h.isEmpty_eq_false hlive hne hps n

theorem allPaths_eq_ok (h : g.Spans s t) {limit : Option Nat} {ps : List (List Nat)} :
    g.allPaths limit = .ok ps ↔ g.allPaths none = .ok ps ∧ ∀ n ∈ limit, ps.length ≤ n := by
  cases limit with
  | none => simp
  | some n =>
    obtain ⟨qs, hqs, -, -⟩ := h.exists_allPaths
    rw [h.allPaths_some hqs, hqs]
    constructor
    · intro heq
      split at heq
      · rename_i hle
        rcases Except.ok.inj heq with rfl
        exact ⟨rfl, by simpa using hle⟩
      · cases heq
    · rintro ⟨heq, hle⟩
      rcases Except.ok.inj heq with rfl
      exact if_pos (hle n rfl)

theorem mem_of_allPaths (h : g.Spans s t) {limit : Option Nat} {ps : List (List Nat)}
    (hps : g.allPaths limit = .ok ps) (p : List Nat) : p ∈ ps ↔ p ∈ g.paths := by
  obtain ⟨qs, hqs, -, hmem⟩ := h.exists_allPaths
  rw [(h.allPaths_eq_ok.mp hps).1] at hqs
  rcases Except.ok.inj hqs with rfl
  exact hmem p

end Spans

end Graph

end SpokenGrammar
