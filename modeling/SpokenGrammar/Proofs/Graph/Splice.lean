import SpokenGrammar.Graph.Splice
import SpokenGrammar.Proofs.Graph.Bipolar
import SpokenGrammar.Proofs.Language.Substitution

namespace SpokenGrammar

theorem Route.join {next : Nat → Nat → Prop} {i j k l : Nat} {p q : List Nat}
    (r : Route next i j p) (h : next j k) (r' : Route next k l q) : Route next i l (p ++ q) := by
  induction r with
  | here i => exact .step h r'
  | step hij _ ih => exact .step hij (ih h)

theorem Route.shift {next next' : Nat → Nat → Prop} {n i j : Nat} {p : List Nat}
    (h : ∀ i j, next i j → next' (i + n) (j + n)) (r : Route next i j p) :
    Route next' (i + n) (j + n) (p.map (· + n)) := by
  induction r with
  | here i => exact .here _
  | step hij _ ih => exact .step (h _ _ hij) ih

theorem Distinct.map {es : List Edge} (h : Distinct es) {f : Edge → Edge}
    (hf : ∀ e ∈ es, ∀ e' ∈ es, (f e).ends = (f e').ends → e.ends = e'.ends) :
    Distinct (es.map f) := by
  unfold Distinct at *
  rw [List.map_map]
  exact (h.of_map _).map_on fun e he e' he' heq =>
    List.inj_on_of_nodup_map h he he' (hf e he e' he' heq)

theorem Distinct.append {es fs : List Edge} (he : Distinct es) (hf : Distinct fs)
    (hdisjoint : ∀ e ∈ es, ∀ f ∈ fs, e.ends ≠ f.ends) : Distinct (es ++ fs) := by
  unfold Distinct at *
  rw [List.map_append, List.nodup_append]
  refine ⟨he, hf, fun a ha b hb => ?_⟩
  obtain ⟨e, hmem, rfl⟩ := List.mem_map.mp ha
  obtain ⟨f, hmem', rfl⟩ := List.mem_map.mp hb
  exact hdisjoint e hmem f hmem'

namespace Graph

variable {host guest g : Graph} {p s t u v i j : Nat}

theorem splice_eq_ok (hh : host.isEmpty = false) (hg : guest.isEmpty = false)
    (hp : p < host.tokens.length) : ∃ g, host.splice guest p = .ok g := by
  simp [splice, hh, hg, hp]

theorem eq_of_splice (h : host.splice guest p = .ok g) :
    g = ofEdges (host.tokens ++ guest.tokens)
      (host.edges.map (Edge.detour p (guest.source + host.tokens.length)
          (guest.sink + host.tokens.length)) ++
        guest.edges.map (Edge.shift host.tokens.length)) := by
  simp only [splice] at h
  repeat' split at h
  all_goals simp only [reduceCtorEq, Except.ok.injEq] at h
  exact h.symm

theorem mem_ends_map (es : List Edge) {f : Edge → Edge} (k l : Nat → Nat)
    (hf : ∀ e, (f e).ends = (k e.source, l e.target)) :
    (i, j) ∈ (es.map f).map Edge.ends ↔
      ∃ a b, (a, b) ∈ es.map Edge.ends ∧ i = k a ∧ j = l b := by
  rw [List.map_map]
  constructor
  · intro hm
    obtain ⟨e, he, hends⟩ := List.mem_map.mp hm
    rw [Function.comp_apply, hf, Prod.mk.injEq] at hends
    exact ⟨e.source, e.target, List.mem_map_of_mem he, hends.1.symm, hends.2.symm⟩
  · rintro ⟨a, b, hab, rfl, rfl⟩
    obtain ⟨e, he, hends⟩ := List.mem_map.mp hab
    obtain ⟨rfl, rfl⟩ := Prod.mk.inj hends
    exact List.mem_map.mpr ⟨e, he, hf e⟩

theorem joins_splice (h : host.splice guest p = .ok g) :
    g.Joins i j ↔
      (∃ a b, host.Joins a b ∧
        i = (if a = p then guest.sink + host.tokens.length else a) ∧
        j = (if b = p then guest.source + host.tokens.length else b)) ∨
      ∃ a b, guest.Joins a b ∧ i = a + host.tokens.length ∧ j = b + host.tokens.length := by
  rw [eq_of_splice h, joins_ofEdges, List.map_append, List.mem_append]
  refine or_congr ?_ ?_
  · exact mem_ends_map host.edges (fun a => if a = p then guest.sink + host.tokens.length else a)
      (fun b => if b = p then guest.source + host.tokens.length else b) fun _ => rfl
  · exact mem_ends_map guest.edges (· + host.tokens.length) (· + host.tokens.length) fun _ => rfl

theorem joins_splice_cases (h : host.splice guest p = .ok g) (hij : g.Joins i j) :
    (i ≠ p ∧ j ≠ p ∧ host.Joins i j) ∨
    (i ≠ p ∧ host.Joins i p ∧ j = guest.source + host.tokens.length) ∨
    (i = guest.sink + host.tokens.length ∧
      ∃ b, host.Joins p b ∧ j = if b = p then guest.source + host.tokens.length else b) ∨
    ∃ a b, guest.Joins a b ∧ i = a + host.tokens.length ∧ j = b + host.tokens.length := by
  rcases (joins_splice h).mp hij with ⟨a, b, hab, rfl, rfl⟩ | hguest
  · by_cases ha : a = p
    · subst ha
      exact .inr (.inr (.inl ⟨by simp, b, hab, rfl⟩))
    · by_cases hb : b = p
      · subst hb
        exact .inr (.inl ⟨by rwa [if_neg ha], by rwa [if_neg ha], if_pos rfl⟩)
      · exact .inl ⟨by rwa [if_neg ha], by rwa [if_neg hb], by rwa [if_neg ha, if_neg hb]⟩
  · exact .inr (.inr (.inr hguest))

section Edges

variable (h : host.splice guest p = .ok g)
include h

theorem joins_splice_host (hij : host.Joins i j) (hi : i ≠ p) (hj : j ≠ p) : g.Joins i j :=
  (joins_splice h).mpr (.inl ⟨i, j, hij, by simp [hi], by simp [hj]⟩)

theorem joins_splice_entry (hi : host.Joins i p) (hip : i ≠ p) :
    g.Joins i (guest.source + host.tokens.length) :=
  (joins_splice h).mpr (.inl ⟨i, p, hi, by simp [hip], by simp⟩)

theorem joins_splice_exit (hj : host.Joins p j) (hjp : j ≠ p) :
    g.Joins (guest.sink + host.tokens.length) j :=
  (joins_splice h).mpr (.inl ⟨p, j, hj, by simp, by simp [hjp]⟩)

theorem joins_splice_guest (hij : guest.Joins i j) :
    g.Joins (i + host.tokens.length) (j + host.tokens.length) :=
  (joins_splice h).mpr (.inr ⟨i, j, hij, rfl, rfl⟩)

end Edges

/-- Redirected ends lie beyond the nodes of the host, both ends of no edge are redirected, and so no
two edges come to have the same ends. -/
theorem distinct_splice (hh : host.Spans s t) (p entry exit : Nat) :
    Distinct (host.edges.map (Edge.detour p (entry + host.tokens.length)
        (exit + host.tokens.length)) ++
      guest.edges.map (Edge.shift host.tokens.length)) := by
  have hwithin : ∀ e ∈ host.edges, e.source < host.tokens.length ∧ e.target < host.tokens.length :=
    fun e he => hh.within _ _ (joins_of_mem_edges he)
  refine (host.distinct.map ?_).append (guest.distinct.map ?_) ?_
  · intro e he e' he' heq
    have hlt := hwithin e he
    have hlt' := hwithin e' he'
    simp only [Edge.ends, Edge.detour, Prod.mk.injEq] at heq ⊢
    constructor
    · have hsource := heq.1
      split_ifs at hsource <;> omega
    · have htarget := heq.2
      split_ifs at htarget <;> omega
  · intro e _ e' _ heq
    simpa [Edge.ends, Edge.shift] using heq
  · intro x hx y hy heq
    obtain ⟨e, he, rfl⟩ := List.mem_map.mp hx
    obtain ⟨f, -, rfl⟩ := List.mem_map.mp hy
    have hlt := hwithin e he
    obtain ⟨hsource, htarget⟩ := Prod.mk.inj heq
    simp only [Edge.detour, Edge.shift] at hsource htarget
    have hs : e.source = p := by
      split_ifs at hsource <;> omega
    have ht : e.target = p := by
      split_ifs at htarget <;> omega
    refine hh.not_joins_self p (List.mem_map.mpr ⟨e, he, ?_⟩)
    rw [Edge.ends, hs, ht]

theorem edges_splice (hh : host.Spans s t) (h : host.splice guest p = .ok g) :
    g.edges = host.edges.map (Edge.detour p (guest.source + host.tokens.length)
        (guest.sink + host.tokens.length)) ++
      guest.edges.map (Edge.shift host.tokens.length) := by
  rw [eq_of_splice h]
  exact mergeEdges_of_distinct (distinct_splice hh p _ _)

/-- Nodes of the host keep their rank on a coarser scale, and those of the guest come between the
rank of the node they replace and the next one. -/
theorem ranked_splice (hh : host.Spans s t) (hg : guest.Spans u v)
    (h : host.splice guest p = .ok g) :
    ∃ rank : Nat → Nat, ∀ i j, g.Joins i j → rank i < rank j := by
  obtain ⟨r, hr⟩ := hh.ranked
  obtain ⟨q, hq⟩ := hg.ranked
  obtain ⟨b, hb⟩ := hg.exists_rank_bound q
  have hv := hb v hg.sink_touched
  have hu := hb u hg.touched
  refine ⟨fun x => if x < host.tokens.length then r x * b
    else r p * b + q (x - host.tokens.length), fun i j hij => ?_⟩
  rcases joins_splice_cases h hij with
    ⟨-, -, hij⟩ | ⟨-, hip, rfl⟩ | ⟨rfl, k, hpk, rfl⟩ | ⟨x, y, hxy, rfl, rfl⟩
  · have hlt := hr _ _ hij
    obtain ⟨hi, hj⟩ := hh.within _ _ hij
    simp only [hi, hj, if_true]
    exact Nat.mul_lt_mul_of_pos_right hlt (by omega)
  · have hlt := hr _ _ hip
    have hi := (hh.within _ _ hip).1
    simp only [hi, if_true, Nat.not_lt.mpr (Nat.le_add_left _ _), if_false]
    have := Nat.mul_lt_mul_of_pos_right hlt (show 0 < b by omega)
    omega
  · have hlt := hr _ _ hpk
    have hk := (hh.within _ _ hpk).2
    have hne : k ≠ p := fun hk => hh.not_joins_self p (hk ▸ hpk)
    simp only [hne, hk, if_true, Nat.not_lt.mpr (Nat.le_add_left _ _), if_false,
      Nat.add_sub_cancel, hg.sink_eq]
    have := Nat.mul_le_mul_right b (Nat.succ_le_of_lt hlt)
    rw [Nat.succ_mul] at this
    omega
  · have hlt := hq _ _ hxy
    simp only [Nat.not_lt.mpr (Nat.le_add_left _ _), if_false, Nat.add_sub_cancel]
    omega

theorem touched_splice (hh : host.Spans s t) (hg : guest.Spans u v)
    (h : host.splice guest p = .ok g) :
    g.Touched i ↔ (i ≠ p ∧ host.Touched i) ∨
      ∃ y, guest.Touched y ∧ i = y + host.tokens.length := by
  constructor
  · rintro ⟨j, hij | hij⟩
    · rcases joins_splice_cases h hij with
        ⟨hi, -, hij⟩ | ⟨hi, hip, -⟩ | ⟨rfl, -⟩ | ⟨x, y, hxy, rfl, -⟩
      · exact .inl ⟨hi, j, .inl hij⟩
      · exact .inl ⟨hi, p, .inl hip⟩
      · exact .inr ⟨_, hg.sink_eq.symm ▸ hg.sink_touched, rfl⟩
      · exact .inr ⟨x, ⟨y, .inl hxy⟩, rfl⟩
    · rcases joins_splice_cases h hij with
        ⟨-, hi, hij⟩ | ⟨-, -, rfl⟩ | ⟨-, k, hpk, rfl⟩ | ⟨x, y, hxy, -, rfl⟩
      · exact .inl ⟨hi, j, .inr hij⟩
      · exact .inr ⟨_, hg.source_eq.symm ▸ hg.touched, rfl⟩
      · have hne : k ≠ p := fun hk => hh.not_joins_self p (hk ▸ hpk)
        rw [if_neg hne]
        exact .inl ⟨hne, p, .inr hpk⟩
      · exact .inr ⟨y, ⟨x, .inr hxy⟩, rfl⟩
  · rintro (⟨hi, j, hij | hij⟩ | ⟨y, ⟨x, hxy | hxy⟩, rfl⟩)
    · by_cases hj : j = p
      · exact ⟨_, .inl (joins_splice_entry h (hj ▸ hij) hi)⟩
      · exact ⟨j, .inl (joins_splice_host h hij hi hj)⟩
    · by_cases hj : j = p
      · exact ⟨_, .inr (joins_splice_exit h (hj ▸ hij) hi)⟩
      · exact ⟨j, .inr (joins_splice_host h hij hj hi)⟩
    · exact ⟨_, .inl (joins_splice_guest h hxy)⟩
    · exact ⟨_, .inr (joins_splice_guest h hxy)⟩

section Spans

variable (hh : host.Spans s t) (hg : guest.Spans u v) (h : host.splice guest p = .ok g)
include hh hg h

theorem within_splice (hij : g.Joins i j) : i < g.tokens.length ∧ j < g.tokens.length := by
  rw [tokens_splice h, List.length_append]
  have hu := hg.lt_of_touched hg.touched
  have hv := hg.lt_of_touched hg.sink_touched
  rcases joins_splice_cases h hij with
    ⟨-, -, hij⟩ | ⟨-, hip, rfl⟩ | ⟨rfl, k, hpk, rfl⟩ | ⟨x, y, hxy, rfl, rfl⟩
  · have := hh.within _ _ hij
    omega
  · have := hh.within _ _ hip
    rw [hg.source_eq]
    omega
  · have := hh.within _ _ hpk
    rw [hg.sink_eq, hg.source_eq]
    split <;> omega
  · have := hg.within _ _ hxy
    omega

theorem entered_splice (hp : host.Touched p) (hi : g.Touched i)
    (his : i ≠ if s = p then u + host.tokens.length else s) : ∃ k, g.Joins k i := by
  rcases (touched_splice hh hg h).mp hi with ⟨hip, hi⟩ | ⟨y, hy, rfl⟩
  · have hne : i ≠ s := by
      rintro rfl
      exact his (if_neg hip).symm
    obtain ⟨k, hk⟩ := hh.entered i hi hne
    by_cases hkp : k = p
    · exact ⟨_, joins_splice_exit h (hkp ▸ hk) hip⟩
    · exact ⟨k, joins_splice_host h hk hkp hip⟩
  · by_cases hyu : y = u
    · subst hyu
      have hne : p ≠ s := by
        rintro rfl
        exact his (if_pos rfl).symm
      obtain ⟨k, hk⟩ := hh.entered p hp hne
      have hkp : k ≠ p := fun hkp => hh.not_joins_self p (hkp ▸ hk)
      exact ⟨k, hg.source_eq ▸ joins_splice_entry h hk hkp⟩
    · obtain ⟨k, hk⟩ := hg.entered y hy hyu
      exact ⟨_, joins_splice_guest h hk⟩

theorem exited_splice (hp : host.Touched p) (hi : g.Touched i)
    (hit : i ≠ if t = p then v + host.tokens.length else t) : ∃ k, g.Joins i k := by
  rcases (touched_splice hh hg h).mp hi with ⟨hip, hi⟩ | ⟨y, hy, rfl⟩
  · have hne : i ≠ t := by
      rintro rfl
      exact hit (if_neg hip).symm
    obtain ⟨k, hk⟩ := hh.exited i hi hne
    by_cases hkp : k = p
    · exact ⟨_, joins_splice_entry h (hkp ▸ hk) hip⟩
    · exact ⟨k, joins_splice_host h hk hip hkp⟩
  · by_cases hyv : y = v
    · subst hyv
      have hne : p ≠ t := by
        rintro rfl
        exact hit (if_pos rfl).symm
      obtain ⟨k, hk⟩ := hh.exited p hp hne
      have hkp : k ≠ p := fun hkp => hh.not_joins_self p (hkp ▸ hk)
      exact ⟨k, hg.sink_eq ▸ joins_splice_exit h hk hkp⟩
    · obtain ⟨k, hk⟩ := hg.exited y hy hyv
      exact ⟨_, joins_splice_guest h hk⟩

theorem not_entered_splice (i : Nat) :
    ¬ g.Joins i (if s = p then u + host.tokens.length else s) := by
  intro his
  have hs := hh.lt_of_touched hh.touched
  rcases joins_splice_cases h his with
    ⟨-, hj, hij⟩ | ⟨-, hip, hj⟩ | ⟨-, k, hpk, hj⟩ | ⟨x, y, hxy, -, hj⟩
  · split at hij
    · have := (hh.within _ _ hij).2
      omega
    · exact hh.not_entered i hij
  · split at hj
    · rename_i hsp
      exact hh.not_entered i (hsp ▸ hip)
    · omega
  · have hk := (hh.within _ _ hpk).2
    have hkp : k ≠ p := fun hkp => hh.not_joins_self p (hkp ▸ hpk)
    rw [if_neg hkp] at hj
    split at hj
    · omega
    · exact hh.not_entered p (hj ▸ hpk)
  · split at hj
    · have hyu : y = u := by omega
      exact hg.not_entered x (hyu ▸ hxy)
    · omega

theorem not_exited_splice (j : Nat) :
    ¬ g.Joins (if t = p then v + host.tokens.length else t) j := by
  intro hjt
  have ht := hh.lt_of_touched hh.sink_touched
  rcases joins_splice_cases h hjt with
    ⟨hi, -, hij⟩ | ⟨hi, hip, -⟩ | ⟨hi, k, hpk, -⟩ | ⟨x, y, hxy, hi, -⟩
  · split at hij
    · have := (hh.within _ _ hij).1
      omega
    · exact hh.not_exited j hij
  · split at hip
    · have := (hh.within _ _ hip).1
      omega
    · exact hh.not_exited p hip
  · split at hi
    · rename_i htp
      exact hh.not_exited k (htp ▸ hpk)
    · omega
  · split at hi
    · have hxv : x = v := by omega
      exact hg.not_exited y (hxv ▸ hxy)
    · omega

theorem spans_splice (hp : host.Touched p) :
    g.Spans (if s = p then u + host.tokens.length else s)
      (if t = p then v + host.tokens.length else t) where
  ranked := ranked_splice hh hg h
  within := fun _ _ hij => within_splice hh hg h hij
  entered := fun _ hi his => entered_splice hh hg h hp hi his
  exited := fun _ hi hit => exited_splice hh hg h hp hi hit
  not_entered := not_entered_splice hh hg h
  not_exited := not_exited_splice hh hg h
  touched := by
    rw [touched_splice hh hg h]
    by_cases hsp : s = p
    · rw [if_pos hsp]
      exact .inr ⟨u, hg.touched, rfl⟩
    · rw [if_neg hsp]
      exact .inl ⟨hsp, hh.touched⟩

/-- A node that no edge touches leaves the source where it was, before all nodes of the guest. -/
theorem source_splice : g.source = if s = p then u + host.tokens.length else s := by
  by_cases hp : host.Touched p
  · exact (spans_splice hh hg h hp).source_eq
  · have hsp : s ≠ p := fun hsp => hp (hsp ▸ hh.touched)
    rw [if_neg hsp]
    obtain ⟨j, hj⟩ := hh.exists_exit
    have hjp : j ≠ p := fun hjp => hp ⟨s, .inr (hjp ▸ hj)⟩
    have hunentered : ∀ i, ¬ g.Joins i s := by
      simpa only [if_neg hsp] using not_entered_splice hh hg h
    obtain ⟨⟨k, hk⟩, hnone, hle⟩ := source_first (joins_splice_host h hj hsp hjp) hunentered
    have hs := hh.lt_of_touched hh.touched
    rcases (touched_splice hh hg h).mp ⟨k, .inl hk⟩ with ⟨hsource, htouched⟩ | ⟨y, -, hy⟩
    · by_contra hne
      obtain ⟨i, hi⟩ := hh.entered g.source htouched hne
      have hip : i ≠ p := fun hip => hp ⟨g.source, .inl (hip ▸ hi)⟩
      exact hnone i (joins_splice_host h hi hip hsource)
    · omega

theorem sink_splice : g.sink = if t = p then v + host.tokens.length else t := by
  by_cases hp : host.Touched p
  · exact (spans_splice hh hg h hp).sink_eq
  · have htp : t ≠ p := fun htp => hp (htp ▸ hh.sink_touched)
    rw [if_neg htp]
    obtain ⟨i, hi⟩ := hh.exists_entry
    have hip : i ≠ p := fun hip => hp ⟨t, .inl (hip ▸ hi)⟩
    have hunexited : ∀ j, ¬ g.Joins t j := by
      simpa only [if_neg htp] using not_exited_splice hh hg h
    obtain ⟨k, hle, hk, hnone⟩ := sink_first (joins_splice_host h hi hip htp) hunexited
    have hlt := (hh.within _ _ hi).1
    rcases joins_splice_cases h hk with
      ⟨-, hsink, hk⟩ | ⟨-, hkp, -⟩ | ⟨hexit, -⟩ | ⟨x, y, -, hx, -⟩
    · by_contra hne
      obtain ⟨j, hj⟩ := hh.exited g.sink ⟨k, .inr hk⟩ hne
      have hjp : j ≠ p := fun hjp => hp ⟨g.sink, .inr (hjp ▸ hj)⟩
      exact hnone j (joins_splice_host h hj hsink hjp)
    · exact absurd ⟨k, .inr hkp⟩ hp
    · omega
    · omega

end Spans

def detour (guest : Graph) (n p i : Nat) : Language Nat :=
  if i = p then Language.map (· + n) guest.paths else {[i]}

theorem map_mem_detour {n : Nat} {c : List Nat} (hg : guest.Spans u v)
    (hc : Route guest.Joins u v c) : c.map (· + n) ∈ detour guest n p p := by
  rw [detour, if_pos rfl]
  exact ⟨c, hg.mem_paths.mpr hc, rfl⟩

theorem exists_of_mem_detour {n : Nat} {w : List Nat} (hg : guest.Spans u v)
    (hw : w ∈ detour guest n p p) : ∃ c, Route guest.Joins u v c ∧ w = c.map (· + n) := by
  rw [detour, if_pos rfl] at hw
  obtain ⟨c, hc, rfl⟩ := hw
  exact ⟨c, hg.mem_paths.mp hc, rfl⟩

theorem cons_mem_detour {n : Nat} {q w : List Nat} (hi : i ≠ p)
    (hw : w ∈ (q.map (detour guest n p)).prod) :
    i :: w ∈ ((i :: q).map (detour guest n p)).prod := by
  rw [List.map_cons, List.prod_cons, detour, if_neg hi]
  exact Language.append_mem_mul (a := [i]) rfl hw

theorem eq_cons_of_mem_detour {n : Nat} {q w : List Nat} (hi : i ≠ p)
    (hw : w ∈ ((i :: q).map (detour guest n p)).prod) :
    ∃ w', w = i :: w' ∧ w' ∈ (q.map (detour guest n p)).prod := by
  rw [List.map_cons, List.prod_cons, detour, if_neg hi] at hw
  obtain ⟨a, ha, b, hb, rfl⟩ := Language.mem_mul.mp hw
  have hai : a = [i] := ha
  exact ⟨b, by rw [hai]; rfl, hb⟩

/-- A word from node `k` of the host to its sink, with a path of the guest in place of `p`. -/
def Detoured (host guest : Graph) (p t k : Nat) (w : List Nat) : Prop :=
  ∃ q, Route host.Joins k t q ∧ w ∈ (q.map (detour guest host.tokens.length p)).prod

/-- A word that starts at node `y` of the guest, leaves it at its sink `v` and goes on from `p`. -/
def Inside (host guest : Graph) (p t v y : Nat) (w : List Nat) : Prop :=
  ∃ c q b, Route guest.Joins y v c ∧ Route host.Joins p t (p :: q) ∧
    b ∈ (q.map (detour guest host.tokens.length p)).prod ∧
    w = c.map (· + host.tokens.length) ++ b

theorem Detoured.sink (ht : t ≠ p) : Detoured host guest p t t [t] :=
  ⟨[t], .here t, cons_mem_detour ht rfl⟩

theorem Detoured.cons {w : List Nat} (hw : Detoured host guest p t j w) (hip : i ≠ p)
    (hij : host.Joins i j) : Detoured host guest p t i (i :: w) := by
  obtain ⟨q, hq, hw⟩ := hw
  exact ⟨i :: q, .step hij hq, cons_mem_detour hip hw⟩

theorem Inside.sink : Inside host guest t t v v [v + host.tokens.length] :=
  ⟨[v], [], [], .here v, .here t, rfl, rfl⟩

theorem Inside.leave {w : List Nat} (hpj : host.Joins p j) (hw : Detoured host guest p t j w) :
    Inside host guest p t v v ((v + host.tokens.length) :: w) := by
  obtain ⟨q, hq, hw⟩ := hw
  exact ⟨[v], q, w, .here v, .step hpj hq, hw, rfl⟩

theorem Inside.cons {x y : Nat} {w : List Nat} (hw : Inside host guest p t v y w)
    (hxy : guest.Joins x y) : Inside host guest p t v x ((x + host.tokens.length) :: w) := by
  obtain ⟨c, q, b, hc, hq, hb, rfl⟩ := hw
  exact ⟨x :: c, q, b, .step hxy hc, hq, hb, rfl⟩

theorem Inside.detoured {w : List Nat} (hg : guest.Spans u v)
    (hw : Inside host guest p t v u w) : Detoured host guest p t p w := by
  obtain ⟨c, q, b, hc, hq, hb, rfl⟩ := hw
  refine ⟨p :: q, hq, ?_⟩
  rw [List.map_cons, List.prod_cons]
  exact Language.append_mem_mul (map_mem_detour hg hc) hb

section Routes

variable (hh : host.Spans s t) (hg : guest.Spans u v) (h : host.splice guest p = .ok g)
include hh hg h

theorem route_splice {q w : List Nat} (r : Route host.Joins i t q)
    (hw : w ∈ (q.map (detour guest host.tokens.length p)).prod) :
    Route g.Joins (if i = p then u + host.tokens.length else i)
      (if t = p then v + host.tokens.length else t) w := by
  have hshift : ∀ c, Route guest.Joins u v c →
      Route g.Joins (u + host.tokens.length) (v + host.tokens.length)
        (c.map (· + host.tokens.length)) :=
    fun c hc => hc.shift fun _ _ => joins_splice_guest h
  -- A step into the replaced node enters the guest, and the step after it leaves it.
  induction r generalizing w with
  | here t =>
    by_cases htp : t = p
    · subst htp
      rw [List.map_singleton, List.prod_singleton] at hw
      obtain ⟨c, hc, rfl⟩ := exists_of_mem_detour hg hw
      rw [if_pos rfl, if_pos rfl]
      exact hshift c hc
    · obtain ⟨w', rfl, hw'⟩ := eq_cons_of_mem_detour htp hw
      have hnil : w' = [] := hw'
      rw [if_neg htp, if_neg htp, hnil]
      exact .here t
  | @step i j t q hij r ih =>
    by_cases hip : i = p
    · subst hip
      have hji : j ≠ i := fun hji => hh.not_joins_self i (hji ▸ hij)
      rw [List.map_cons, List.prod_cons] at hw
      obtain ⟨a, ha, b, hb, rfl⟩ := Language.mem_mul.mp hw
      obtain ⟨c, hc, rfl⟩ := exists_of_mem_detour hg ha
      have hrest := ih hh hb
      rw [if_neg hji] at hrest
      rw [if_pos rfl]
      exact (hshift c hc).join (hg.sink_eq ▸ joins_splice_exit h hij hji) hrest
    · obtain ⟨w', rfl, hw'⟩ := eq_cons_of_mem_detour hip hw
      have hrest := ih hh hw'
      rw [if_neg hip]
      by_cases hjp : j = p
      · rw [if_pos hjp] at hrest
        exact .step (hg.source_eq ▸ joins_splice_entry h (hjp ▸ hij) hip) hrest
      · rw [if_neg hjp] at hrest
        exact .step (joins_splice_host h hij hip hjp) hrest

theorem detoured_of_joins (hij : g.Joins i j) (hi : i < host.tokens.length) (hip : i ≠ p)
    {w : List Nat}
    (hhost : j < host.tokens.length → j ≠ p → Detoured host guest p t j w)
    (hguest : ∀ y, j = y + host.tokens.length → Inside host guest p t v y w) :
    Detoured host guest p t i (i :: w) := by
  rcases joins_splice_cases h hij with
    ⟨-, hj, hij⟩ | ⟨-, hijp, rfl⟩ | ⟨rfl, -⟩ | ⟨x, y, -, rfl, -⟩
  · exact (hhost (hh.within _ _ hij).2 hj).cons hip hij
  · have hentry := hguest _ rfl
    rw [hg.source_eq] at hentry
    exact (hentry.detoured hg).cons hip hijp
  · omega
  · omega

theorem inside_of_joins {y : Nat} (hyj : g.Joins (y + host.tokens.length) j) {w : List Nat}
    (hhost : j < host.tokens.length → j ≠ p → Detoured host guest p t j w)
    (hguest : ∀ z, j = z + host.tokens.length → Inside host guest p t v z w) :
    Inside host guest p t v y ((y + host.tokens.length) :: w) := by
  rcases joins_splice_cases h hyj with
    ⟨-, -, hij⟩ | ⟨-, hip, -⟩ | ⟨hy, b, hpb, hj⟩ | ⟨x, z, hxz, hx, rfl⟩
  · have := (hh.within _ _ hij).1
    omega
  · have := (hh.within _ _ hip).1
    omega
  · have hbp : b ≠ p := fun hbp => hh.not_joins_self p (hbp ▸ hpb)
    rw [if_neg hbp] at hj
    subst hj
    have hyv : y = v := by
      rw [hg.sink_eq] at hy
      omega
    subst hyv
    exact .leave hpb (hhost (hh.within _ _ hpb).2 hbp)
  · have hxy : x = y := by omega
    subst hxy
    exact (hguest z rfl).cons hxz

theorem detoured_and_inside_of_route {k l : Nat} {w : List Nat} (r : Route g.Joins k l w)
    (hl : l = if t = p then v + host.tokens.length else t) :
    (k < host.tokens.length → k ≠ p → Detoured host guest p t k w) ∧
    ∀ y, k = y + host.tokens.length → Inside host guest p t v y w := by
  have ht := hh.lt_of_touched hh.sink_touched
  induction r with
  | here l =>
    by_cases htp : t = p
    · rw [if_pos htp] at hl
      refine ⟨fun hlt => by omega, fun y hy => ?_⟩
      have hyv : y = v := by omega
      subst hyv htp hy
      exact .sink
    · rw [if_neg htp] at hl
      subst hl
      exact ⟨fun _ hne => .sink hne, fun y hy => by omega⟩
  | @step i j l w hij r ih =>
    obtain ⟨hhost, hguest⟩ := ih hl
    constructor
    · intro hi hip
      exact detoured_of_joins hh hg h hij hi hip hhost hguest
    · rintro y rfl
      exact inside_of_joins hh hg h hij hhost hguest

theorem paths_splice :
    g.paths = substitute (detour guest host.tokens.length p) host.paths := by
  ext w
  rw [Graph.mem_paths, source_splice hh hg h, sink_splice hh hg h, mem_substitute]
  constructor
  · intro r
    obtain ⟨hhost, hguest⟩ := detoured_and_inside_of_route hh hg h r rfl
    by_cases hsp : s = p
    · obtain ⟨q, hq, hw⟩ := (hguest u (if_pos hsp)).detoured hg
      exact ⟨q, hh.mem_paths.mpr (hsp ▸ hq), hw⟩
    · rw [if_neg hsp] at hhost
      obtain ⟨q, hq, hw⟩ := hhost (hh.lt_of_touched hh.touched) hsp
      exact ⟨q, hh.mem_paths.mpr hq, hw⟩
  · rintro ⟨q, hq, hw⟩
    exact route_splice hh hg h (hh.mem_paths.mp hq) hw

theorem not_touched_splice (hp : p < host.tokens.length) : ¬ g.Touched p := by
  rw [touched_splice hh hg h]
  rintro (⟨hne, -⟩ | ⟨y, -, hy⟩)
  · exact hne rfl
  · omega

theorem paths_splice_of_not_mem (hp : ∀ q ∈ host.paths, p ∉ q) : g.paths = host.paths := by
  have hword : ∀ q ∈ host.paths, ∀ i ∈ q, detour guest host.tokens.length p i = {[id i]} := by
    intro q hq i hi
    have hip : i ≠ p := fun hip => hp q hq (hip ▸ hi)
    exact if_neg hip
  rw [paths_splice hh hg h, substitute_congr hword, ← map_eq_substitute, Language.map_id]

end Routes

theorem splice_substitutes (hhost : host.Bipolar) (hguest : guest.Bipolar)
    (hp : p < host.tokens.length) :
    ∃ g, host.splice guest p = .ok g ∧
      g.tokens = host.tokens ++ guest.tokens ∧
      (∀ i, ¬ Relation.TransGen g.Joins i i) ∧
      g.edges = host.edges.map (Edge.detour p (guest.source + host.tokens.length)
          (guest.sink + host.tokens.length)) ++
        guest.edges.map (Edge.shift host.tokens.length) ∧
      g.edges.map Edge.weight = host.edges.map Edge.weight ++ guest.edges.map Edge.weight ∧
      ¬ g.Touched p ∧
      (∀ w, w ∈ g.paths ↔
        ∃ q ∈ host.paths, w ∈ (q.map (detour guest host.tokens.length p)).prod) ∧
      ((∀ q ∈ host.paths, p ∉ q) → g.paths = host.paths) := by
  have hh := hhost.spans
  have hg := hguest.spans
  obtain ⟨g, h⟩ := splice_eq_ok hh.isEmpty_eq_false hg.isEmpty_eq_false hp
  obtain ⟨rank, hrank⟩ := ranked_splice hh hg h
  have hedges := edges_splice hh h
  refine ⟨g, h, tokens_splice h, acyclic_of_rank hrank, hedges, ?_,
    not_touched_splice hh hg h hp, fun w => ?_, paths_splice_of_not_mem hh hg h⟩
  · rw [hedges, List.map_append, List.map_map, List.map_map]
    rfl
  · rw [paths_splice hh hg h, mem_substitute]

theorem splice_substitutes_of_forked :
    ∃ g, forked.splice forked 7 = .ok g ∧ g.edges.length = 14 ∧ ¬ g.Touched 7 ∧
      [0, 1, 2, 5, 6, 8, 9, 12, 13, 14, 15] ∈ g.paths := by
  obtain ⟨g, h, -, -, hedges, -, htouched, hpaths, -⟩ :=
    splice_substitutes bipolar_forked bipolar_forked (show 7 < forked.tokens.length by decide)
  refine ⟨g, h, by rw [hedges]; rfl, htouched, (hpaths _).mpr ⟨_, mem_paths_forked.1, ?_⟩⟩
  have hguest : [8, 9, 12, 13, 14, 15] ∈ detour forked forked.tokens.length 7 7 :=
    map_mem_detour bipolar_forked.spans mem_paths_forked.2
  have hlast : [8, 9, 12, 13, 14, 15] ∈ ([7].map (detour forked forked.tokens.length 7)).prod := by
    rwa [List.map_singleton, List.prod_singleton]
  exact cons_mem_detour (by decide) (cons_mem_detour (by decide) (cons_mem_detour (by decide)
    (cons_mem_detour (by decide) (cons_mem_detour (by decide) hlast))))

end Graph

end SpokenGrammar
