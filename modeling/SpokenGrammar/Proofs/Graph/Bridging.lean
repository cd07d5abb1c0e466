import SpokenGrammar.Proofs.Graph.Bipolar
import SpokenGrammar.Proofs.Graph.Elide

/-!
# The weights of bridges

An edge that is left after elision stands for all chains of former edges that lead from its source
to its target through nodes left out. Of weights that are 0, 1 or unset it takes 0 if each of the
chains has an edge of weight 0, and it stays unset if no edge of them has a weight. So it makes no
difference in which order the nodes are left out.
-/

namespace SpokenGrammar

variable {a b : Option Float} {e d : Edge} {es new : List Edge} {L M : Language Edge}

def Plain (w : Option Float) : Prop :=
  w = none ∨ w = some 0 ∨ w = some 1

instance : Decidable (Plain a) :=
  inferInstanceAs (Decidable (a = none ∨ a = some 0 ∨ a = some 1))

namespace Plain

theorem heavier (ha : Plain a) (hb : Plain b) : Plain (heavier a b) := by
  rcases ha with rfl | rfl | rfl <;> rcases hb with rfl | rfl | rfl <;> decide

theorem chained (ha : Plain a) (hb : Plain b) : Plain (chained a b) := by
  rcases ha with rfl | rfl | rfl <;> rcases hb with rfl | rfl | rfl <;> decide

theorem heavier_eq_zero (ha : Plain a) (hb : Plain b) :
    SpokenGrammar.heavier a b = some 0 ↔ a = some 0 ∧ b = some 0 := by
  rcases ha with rfl | rfl | rfl <;> rcases hb with rfl | rfl | rfl <;> decide

theorem chained_eq_zero (ha : Plain a) (hb : Plain b) :
    SpokenGrammar.chained a b = some 0 ↔ a = some 0 ∨ b = some 0 := by
  rcases ha with rfl | rfl | rfl <;> rcases hb with rfl | rfl | rfl <;> decide

end Plain

theorem heavier_eq_none : heavier a b = none ↔ a = none ∧ b = none := by
  cases a <;> cases b <;> simp [heavier]

theorem chained_eq_none : chained a b = none ↔ a = none ∧ b = none := by
  cases a <;> cases b <;> simp [chained]

/-- The weight of an edge that stands for the chains of a language: the greatest of their products,
unset only if nothing in them is set. -/
structure Weighs (w : Option Float) (L : Language Edge) : Prop where
  plain : Plain w
  disabled : w = some 0 ↔ ∀ c ∈ L, ∃ d ∈ c, d.weight = some 0
  unset : w = none ↔ ∀ c ∈ L, ∀ d ∈ c, d.weight = none
  exists_mem : ∃ c, c ∈ L

namespace Weighs

theorem single (he : Plain e.weight) : Weighs e.weight {[e]} where
  plain := he
  disabled := by
    constructor
    · rintro hw c rfl
      exact ⟨e, List.mem_singleton_self e, hw⟩
    · intro h
      obtain ⟨d, hd, hw⟩ := h [e] rfl
      exact List.mem_singleton.mp hd ▸ hw
  unset := by
    constructor
    · rintro hw c rfl d hd
      exact List.mem_singleton.mp hd ▸ hw
    · exact fun h => h [e] rfl e (List.mem_singleton_self e)
  exists_mem := ⟨[e], rfl⟩

theorem add (ha : Weighs a L) (hb : Weighs b M) : Weighs (heavier a b) (L + M) where
  plain := ha.plain.heavier hb.plain
  disabled := by
    rw [ha.plain.heavier_eq_zero hb.plain, ha.disabled, hb.disabled]
    simp only [Language.mem_add, or_imp, forall_and]
  unset := by
    rw [heavier_eq_none, ha.unset, hb.unset]
    simp only [Language.mem_add, or_imp, forall_and]
  exists_mem := by
    obtain ⟨c, hc⟩ := ha.exists_mem
    exact ⟨c, .inl hc⟩

theorem mul (ha : Weighs a L) (hb : Weighs b M) : Weighs (chained a b) (L * M) where
  plain := ha.plain.chained hb.plain
  disabled := by
    rw [ha.plain.chained_eq_zero hb.plain, ha.disabled, hb.disabled]
    constructor
    · rintro h _ ⟨c, hc, c', hc', rfl⟩
      rcases h with h | h
      · obtain ⟨d, hd, hw⟩ := h c hc
        exact ⟨d, List.mem_append_left _ hd, hw⟩
      · obtain ⟨d, hd, hw⟩ := h c' hc'
        exact ⟨d, List.mem_append_right _ hd, hw⟩
    · intro h
      by_contra! hnone
      obtain ⟨⟨c, hc, hset⟩, c', hc', hset'⟩ := hnone
      obtain ⟨d, hd, hw⟩ := h _ (Language.append_mem_mul hc hc')
      rcases List.mem_append.mp hd with hd | hd
      · exact hset d hd hw
      · exact hset' d hd hw
  unset := by
    obtain ⟨c₀, hc₀⟩ := ha.exists_mem
    obtain ⟨c₁, hc₁⟩ := hb.exists_mem
    rw [chained_eq_none, ha.unset, hb.unset]
    constructor
    · rintro ⟨h, h'⟩ _ ⟨c, hc, c', hc', rfl⟩ d hd
      exact (List.mem_append.mp hd).elim (h c hc d) (h' c' hc' d)
    · intro h
      constructor
      · exact fun c hc d hd =>
          h _ (Language.append_mem_mul hc hc₁) d (List.mem_append_left _ hd)
      · exact fun c hc d hd =>
          h _ (Language.append_mem_mul hc₀ hc) d (List.mem_append_right _ hd)
  exists_mem := by
    obtain ⟨c, hc⟩ := ha.exists_mem
    obtain ⟨c', hc'⟩ := hb.exists_mem
    exact ⟨c ++ c', Language.append_mem_mul hc hc'⟩

theorem unique (ha : Weighs a L) (hb : Weighs b L) : a = b := by
  have hzero : a = some 0 ↔ b = some 0 := ha.disabled.trans hb.disabled.symm
  have hnone : a = none ↔ b = none := ha.unset.trans hb.unset.symm
  rcases ha.plain with ha | ha | ha
  · rw [ha, hnone.mp ha]
  · rw [ha, hzero.mp ha]
  · rcases hb.plain with hb | hb | hb
    · rw [hb, hnone.mpr hb]
    · rw [hb, hzero.mpr hb]
    · rw [ha, hb]

end Weighs

theorem mem_ends_addEdge {x : Nat × Nat} :
    x ∈ (addEdge e es).map Edge.ends ↔ x ∈ es.map Edge.ends ∨ x = e.ends := by
  rw [ends_addEdge]
  split
  · rename_i he
    exact ⟨.inl, fun h => h.elim id fun h => h ▸ he⟩
  · rw [List.mem_append, List.mem_singleton]

theorem mem_addEdge (h : Distinct es) (hd : d ∈ addEdge e es) :
    (d ∈ es ∧ d.ends ≠ e.ends) ∨ (e.ends ∉ es.map Edge.ends ∧ d = e) ∨
    ∃ k ∈ es, k.ends = e.ends ∧ d = { k with weight := heavier k.weight e.weight } := by
  induction es with
  | nil => exact .inr (.inl ⟨List.not_mem_nil, List.mem_singleton.mp hd⟩)
  | cons k rest ih =>
    obtain ⟨hk, hrest⟩ := List.nodup_cons.mp h
    rw [addEdge_cons] at hd
    split at hd
    · rename_i hends
      rcases List.mem_cons.mp hd with rfl | hd
      · exact .inr (.inr ⟨k, List.mem_cons_self, hends, rfl⟩)
      · refine .inl ⟨List.mem_cons_of_mem _ hd, fun heq => hk ?_⟩
        rw [hends, ← heq]
        exact List.mem_map_of_mem hd
    · rename_i hends
      rcases List.mem_cons.mp hd with rfl | hd
      · exact .inl ⟨List.mem_cons_self, hends⟩
      · rcases ih hrest hd with ⟨hd, hne⟩ | ⟨hnot, rfl⟩ | ⟨l, hl, hlends, rfl⟩
        · exact .inl ⟨List.mem_cons_of_mem _ hd, hne⟩
        · exact .inr (.inl ⟨List.not_mem_cons_of_ne_of_not_mem (Ne.symm hends) hnot, rfl⟩)
        · exact .inr (.inr ⟨l, List.mem_cons_of_mem _ hl, hlends, rfl⟩)

/-- Edges that stand for the chains of a family between their ends, which has no others. -/
structure Bridged (F : Nat × Nat → Language Edge) (es : List Edge) : Prop where
  weighs : ∀ e ∈ es, Weighs e.weight (F e.ends)
  covers : ∀ x, x ∉ es.map Edge.ends → F x = 0

namespace Bridged

variable {F M : Nat × Nat → Language Edge} {k : Nat}

theorem mem_ends_iff (h : Bridged F es) (x : Nat × Nat) :
    x ∈ es.map Edge.ends ↔ ∃ c, c ∈ F x := by
  constructor
  · intro hx
    obtain ⟨e, he, rfl⟩ := List.mem_map.mp hx
    exact (h.weighs e he).exists_mem
  · rintro ⟨c, hc⟩
    by_contra hx
    rw [h.covers x hx] at hc
    exact Language.notMem_zero c hc

theorem subset (h : Bridged F es) (h' : Bridged F new) : es ⊆ new := by
  intro e he
  obtain ⟨d, hd, hends⟩ := List.mem_map.mp ((h'.mem_ends_iff _).mpr (h.weighs e he).exists_mem)
  have hweight : e.weight = d.weight := (h.weighs e he).unique (hends ▸ h'.weighs d hd)
  obtain ⟨hsource, htarget⟩ := Prod.mk.inj hends
  have heq : e = d := by
    cases e
    cases d
    simp only [Edge.mk.injEq]
    exact ⟨hsource.symm, htarget.symm, hweight⟩
  exact heq ▸ hd

theorem congr (h : Bridged F es) (hFM : ∀ x, F x = M x) : Bridged M es :=
  funext hFM ▸ h

theorem addEdge (h : Bridged F es) (hdistinct : Distinct es) (he : Weighs e.weight L) :
    Bridged (fun x => F x + if x = e.ends then L else 0) (addEdge e es) where
  weighs := by
    intro d hd
    rcases mem_addEdge hdistinct hd with ⟨hd, hne⟩ | ⟨hnot, rfl⟩ | ⟨k, hk, hends, rfl⟩
    · rw [if_neg hne, add_zero]
      exact h.weighs d hd
    · rw [if_pos rfl, h.covers _ hnot, zero_add]
      exact he
    · change Weighs (heavier k.weight e.weight) (F k.ends + if k.ends = e.ends then L else 0)
      rw [if_pos hends]
      exact (h.weighs k hk).add he
  covers := by
    intro x hx
    obtain ⟨hold, hne⟩ := not_or.mp (mt mem_ends_addEdge.mpr hx)
    rw [h.covers x hold, if_neg hne, add_zero]

theorem addEdges (h : Bridged F es) (hdistinct : Distinct es)
    (hnew : ∀ e ∈ new, Weighs e.weight (M e.ends)) :
    Bridged (fun x => F x + if x ∈ new.map Edge.ends then M x else 0) (addEdges es new) := by
  induction new generalizing es F with
  | nil => simpa [SpokenGrammar.addEdges] using h
  | cons e new ih =>
    obtain ⟨he, hnew⟩ := List.forall_mem_cons.mp hnew
    have hrest := ih (h.addEdge hdistinct he) (hdistinct.addEdge e) hnew
    refine hrest.congr fun x => ?_
    by_cases hx : x = e.ends
    · subst hx
      rw [if_pos rfl, if_pos (show e.ends ∈ (e :: new).map Edge.ends from List.mem_cons_self)]
      split
      · rw [add_assoc, add_idem]
      · rw [add_zero]
    · simp only [List.map_cons, List.mem_cons, hx, if_false, false_or, add_zero]

theorem elideNode {g : Graph} (h : Bridged F g.edges) (k : Nat) :
    Bridged (fun x => (if x.1 = k ∨ x.2 = k then 0 else F x) + F (x.1, k) * F (k, x.2))
      (g.elideNode k).edges := by
  have hkept : Bridged (fun x => if x.1 = k ∨ x.2 = k then 0 else F x)
      (g.edges.filter (!·.touches k)) := by
    constructor
    · intro e he
      obtain ⟨he, hfree⟩ := List.mem_filter.mp he
      rw [if_neg (by simpa [Edge.touches, Edge.ends] using hfree)]
      exact h.weighs e he
    · intro x hx
      split
      · rfl
      · rename_i hfree
        refine h.covers x fun hmem => hx ?_
        obtain ⟨e, he, rfl⟩ := List.mem_map.mp hmem
        refine List.mem_map_of_mem (List.mem_filter.mpr ⟨he, ?_⟩)
        simpa [Edge.touches, Edge.ends] using hfree
  have hbridges : ∀ e ∈ bridges g.edges k, Weighs e.weight (F (e.source, k) * F (k, e.target)) := by
    intro e he
    obtain ⟨x, hx, he⟩ := List.mem_flatMap.mp he
    obtain ⟨y, hy, rfl⟩ := List.mem_map.mp he
    obtain ⟨hx, hxk⟩ := List.mem_filter.mp hx
    obtain ⟨hy, hyk⟩ := List.mem_filter.mp hy
    have hweighs := (h.weighs x hx).mul (h.weighs y hy)
    rwa [Edge.ends, Edge.ends, of_decide_eq_true hxk, of_decide_eq_true hyk] at hweighs
  refine (hkept.addEdges (M := fun x => F (x.1, k) * F (k, x.2)) (g.distinct.filter _)
    hbridges).congr fun x => congrArg _ ?_
  split
  · rfl
  · rename_i hx
    rcases not_and_or.mp (mt Graph.mem_ends_bridges.mpr hx) with hx | hx
    · rw [h.covers _ hx, zero_mul]
    · rw [h.covers _ hx, mul_zero]

end Bridged

namespace Graph

variable {g : Graph} {via : Set Nat} {i j k : Nat} {c : List Edge}

inductive Chain (g : Graph) (via : Set Nat) : Nat → Nat → List Edge → Prop where
  | last {i j : Nat} {e : Edge} : e ∈ g.edges → e.ends = (i, j) → Chain g via i j [e]
  | step {i k j : Nat} {e : Edge} {c : List Edge} : e ∈ g.edges → e.ends = (i, k) → k ∈ via →
      Chain g via k j c → Chain g via i j (e :: c)

namespace Chain

theorem mono {via' : Set Nat} (hsub : via ⊆ via') (h : g.Chain via i j c) : g.Chain via' i j c := by
  induction h with
  | last he hends => exact .last he hends
  | step he hends hk _ ih => exact .step he hends (hsub hk) ih

theorem append {c' : List Edge} (h : g.Chain via i k c) (hk : k ∈ via) (h' : g.Chain via k j c') :
    g.Chain via i j (c ++ c') := by
  induction h with
  | last he hends => exact .step he hends hk h'
  | step he hends hl _ ih => exact .step he hends hl (ih hk h')

theorem transGen (h : g.Chain via i j c) : Relation.TransGen g.Joins i j := by
  induction h with
  | last he hends => exact .single (List.mem_map.mpr ⟨_, he, hends⟩)
  | step he hends _ _ ih => exact .head (List.mem_map.mpr ⟨_, he, hends⟩) ih

theorem split (hacyclic : ∀ i, ¬ Relation.TransGen g.Joins i i) (h : g.Chain (insert k via) i j c) :
    g.Chain via i j c ∨ ∃ u v, g.Chain via i k u ∧ g.Chain via k j v ∧ u ++ v = c := by
  induction h with
  | last he hends => exact .inl (.last he hends)
  | @step i l j e c he hends hl _ ih =>
    rcases hl with rfl | hl
    · rcases ih with hc | ⟨u, v, hu, -, -⟩
      · exact .inr ⟨[e], c, .last he hends, hc, rfl⟩
      · exact absurd hu.transGen (hacyclic l)
    · rcases ih with hc | ⟨u, v, hu, hv, rfl⟩
      · exact .inl (.step he hends hl hc)
      · exact .inr ⟨e :: u, v, .step he hends hl hu, hv, rfl⟩

end Chain

def chainsPast (g : Graph) (via : Set Nat) (x : Nat × Nat) : Language Edge :=
  {c | x.1 ∉ via ∧ x.2 ∉ via ∧ g.Chain via x.1 x.2 c}

theorem mem_chainsPast {x : Nat × Nat} :
    c ∈ g.chainsPast via x ↔ x.1 ∉ via ∧ x.2 ∉ via ∧ g.Chain via x.1 x.2 c :=
  Iff.rfl

theorem mem_chainsPast_empty {x : Nat × Nat} :
    c ∈ g.chainsPast ∅ x ↔ ∃ e ∈ g.edges, e.ends = x ∧ c = [e] := by
  rw [mem_chainsPast]
  constructor
  · rintro ⟨-, -, hc⟩
    cases hc with
    | last he hends => exact ⟨_, he, hends, rfl⟩
    | step _ _ hk _ => exact absurd hk (Set.notMem_empty _)
  · rintro ⟨e, he, rfl, rfl⟩
    exact ⟨Set.notMem_empty _, Set.notMem_empty _, .last he rfl⟩

theorem chainsPast_insert (hacyclic : ∀ i, ¬ Relation.TransGen g.Joins i i) (x : Nat × Nat) :
    g.chainsPast (insert k via) x =
      (if x.1 = k ∨ x.2 = k then 0 else g.chainsPast via x) +
        g.chainsPast via (x.1, k) * g.chainsPast via (k, x.2) := by
  ext c
  rw [Language.mem_add, Language.mem_mul, mem_chainsPast]
  simp only [Set.mem_insert_iff, not_or]
  constructor
  · rintro ⟨⟨hik, hi⟩, ⟨hjk, hj⟩, hc⟩
    rw [if_neg (not_or.mpr ⟨hik, hjk⟩)]
    by_cases hk : k ∈ via
    · rw [Set.insert_eq_of_mem hk] at hc
      exact .inl ⟨hi, hj, hc⟩
    · rcases hc.split hacyclic with hc | ⟨u, v, hu, hv, rfl⟩
      · exact .inl ⟨hi, hj, hc⟩
      · exact .inr ⟨u, ⟨hi, hk, hu⟩, v, ⟨hk, hj, hv⟩, rfl⟩
  · rintro (hc | ⟨u, ⟨hi, hk, hu⟩, v, ⟨-, hj, hv⟩, rfl⟩)
    · split at hc
      · exact absurd hc (Language.notMem_zero c)
      · rename_i hends
        obtain ⟨hik, hjk⟩ := not_or.mp hends
        obtain ⟨hi, hj, hc⟩ := hc
        exact ⟨⟨hik, hi⟩, ⟨hjk, hj⟩, hc.mono (Set.subset_insert k via)⟩
    · have hik : x.1 ≠ k := fun heq => hacyclic k (heq ▸ hu.transGen)
      have hjk : x.2 ≠ k := fun heq => hacyclic k (heq ▸ hv.transGen)
      have hsub := Set.subset_insert k via
      exact ⟨⟨hik, hi⟩, ⟨hjk, hj⟩, (hu.mono hsub).append (Set.mem_insert k via) (hv.mono hsub)⟩

theorem bridged_edges (hplain : ∀ e ∈ g.edges, Plain e.weight) :
    Bridged (g.chainsPast ∅) g.edges where
  weighs := by
    intro e he
    have hsingle : g.chainsPast ∅ e.ends = {[e]} := by
      ext c
      rw [mem_chainsPast_empty]
      constructor
      · rintro ⟨d, hd, hends, rfl⟩
        rw [List.inj_on_of_nodup_map g.distinct hd he hends]
        rfl
      · rintro rfl
        exact ⟨e, he, rfl, rfl⟩
    rw [hsingle]
    exact .single (hplain e he)
  covers := by
    intro x hx
    ext c
    rw [mem_chainsPast_empty]
    constructor
    · rintro ⟨e, he, rfl, -⟩
      exact absurd (List.mem_map_of_mem he) hx
    · exact fun hc => absurd hc (Language.notMem_zero c)

theorem bridged_foldl_elideNode (hacyclic : ∀ i, ¬ Relation.TransGen g.Joins i i)
    (order : List Nat) {h : Graph} (hb : Bridged (g.chainsPast via) h.edges) :
    Bridged (g.chainsPast ({i | i ∈ order} ∪ via)) (order.foldl elideNode h).edges := by
  -- The chains stay those of `g`, while the nodes that they may pass become more.
  induction order generalizing h via with
  | nil => simpa using hb
  | cons k order ih =>
    have hrest := ih ((hb.elideNode k).congr fun x => (chainsPast_insert hacyclic x).symm)
    have hset : ({i | i ∈ order} ∪ insert k via : Set Nat) = {i | i ∈ k :: order} ∪ via := by
      ext i
      simp only [Set.mem_union, Set.mem_ofPred_eq, Set.mem_insert_iff, List.mem_cons]
      tauto
    rw [← hset]
    exact hrest

theorem bridged_of_perm (hacyclic : ∀ i, ¬ Relation.TransGen g.Joins i i)
    (hplain : ∀ e ∈ g.edges, Plain e.weight) {order : List Nat} (horder : order.Perm g.inner) :
    Bridged (g.chainsPast {i | i ∈ g.inner}) (order.foldl elideNode g).edges := by
  have hset : ({i | i ∈ order} ∪ ∅ : Set Nat) = {i | i ∈ g.inner} := by
    rw [Set.union_empty]
    exact Set.ext fun i => horder.mem_iff
  rw [← hset]
  exact bridged_foldl_elideNode hacyclic order (bridged_edges hplain)

theorem Chain.of_inner (h : g.Chain {i | g.spared i = false} i j c) :
    g.Chain {i | i ∈ g.inner} i j c := by
  induction h with
  | last he hends => exact .last he hends
  | @step i k j e c he hends hk _ ih =>
    refine .step he hends (mem_inner_iff.mpr ⟨⟨i, .inr ?_⟩, hk⟩) ih
    exact List.mem_map.mpr ⟨e, he, hends⟩

theorem Chain.touched (h : g.Chain via i j c) : g.Touched i ∧ g.Touched j := by
  obtain ⟨k, hik, -⟩ := Relation.TransGen.head'_iff.mp h.transGen
  obtain ⟨l, -, hlj⟩ := Relation.TransGen.tail'_iff.mp h.transGen
  exact ⟨⟨k, .inl hik⟩, l, .inr hlj⟩

theorem mem_chainsPast_inner :
    c ∈ g.chainsPast {i | i ∈ g.inner} (i, j) ↔
      g.spared i = true ∧ g.spared j = true ∧ g.Chain {i | g.spared i = false} i j c := by
  have hinner : ∀ k, g.Touched k → (k ∉ g.inner ↔ g.spared k = true) := by
    intro k hk
    rw [mem_inner_iff, and_iff_right hk, Bool.not_eq_false]
  rw [mem_chainsPast]
  constructor
  · rintro ⟨hi, hj, hc⟩
    obtain ⟨hti, htj⟩ := hc.touched
    exact ⟨(hinner i hti).mp hi, (hinner j htj).mp hj, hc.mono fun k hk => (mem_inner_iff.mp hk).2⟩
  · rintro ⟨hi, hj, hc⟩
    obtain ⟨hti, htj⟩ := hc.touched
    exact ⟨(hinner i hti).mpr hi, (hinner j htj).mpr hj, hc.of_inner⟩

theorem elide_keeps_disabled (hacyclic : ∀ i, ¬ Relation.TransGen g.Joins i i)
    (hplain : ∀ e ∈ g.edges, Plain e.weight) :
    (∀ i j, g.elide.Joins i j ↔
      g.spared i = true ∧ g.spared j = true ∧ ∃ c, g.Chain {k | g.spared k = false} i j c) ∧
    (∀ e ∈ g.elide.edges,
      (e.weight = some 0 ↔ ∀ c, g.Chain {k | g.spared k = false} e.source e.target c →
        ∃ d ∈ c, d.weight = some 0) ∧
      (e.weight = none ↔ ∀ c, g.Chain {k | g.spared k = false} e.source e.target c →
        ∀ d ∈ c, d.weight = none)) ∧
    ∀ order : List Nat, order.Perm g.inner →
      ∀ e, e ∈ (order.foldl elideNode g).edges ↔ e ∈ g.elide.edges := by
  have hbridged : Bridged (g.chainsPast {i | i ∈ g.inner}) g.elide.edges :=
    bridged_of_perm hacyclic hplain (.refl _)
  have hjoins : ∀ i j, g.elide.Joins i j ↔
      g.spared i = true ∧ g.spared j = true ∧ ∃ c, g.Chain {k | g.spared k = false} i j c := by
    intro i j
    rw [Joins, hbridged.mem_ends_iff]
    simp only [mem_chainsPast_inner, exists_and_left]
  refine ⟨hjoins, fun e he => ?_, fun order horder e => ?_⟩
  · have hweighs := hbridged.weighs e he
    obtain ⟨hsource, htarget, -⟩ := (hjoins e.source e.target).mp (joins_of_mem_edges he)
    rw [hweighs.disabled, hweighs.unset]
    simp only [Edge.ends, mem_chainsPast_inner, hsource, htarget, true_and, and_self]
  · have hother := bridged_of_perm hacyclic hplain horder
    exact ⟨fun he => hother.subset hbridged he, fun he => hbridged.subset hother he⟩

def gated : Graph where
  tokens := [.start, .mark .openGroup, .text "" none, .mark .alternative, .text "b" none,
    .mark .closeGroup, .mark .terminator, .finish]
  edges := [⟨0, 1, none⟩, ⟨1, 2, some 0⟩, ⟨1, 4, some 1⟩, ⟨2, 5, none⟩, ⟨4, 5, none⟩, ⟨5, 6, none⟩,
    ⟨6, 7, none⟩]
  distinct := by simp [Distinct, Edge.ends]

theorem spans_gated : gated.Spans 0 7 := by
  have hspan := bipolar_forked.spans
  rw [source_forked, sink_forked] at hspan
  exact ⟨hspan.ranked, hspan.within, hspan.entered, hspan.exited, hspan.not_entered,
    hspan.not_exited, hspan.touched⟩

theorem inner_gated : gated.inner = [1, 2, 5, 6] := by
  rw [inner, spans_gated.source_eq, spans_gated.sink_eq]
  rfl

theorem elide_keeps_disabled_of_gated :
    gated.elide.edges = [⟨0, 4, some 1⟩, ⟨4, 7, none⟩, ⟨0, 7, some 0⟩] ∧
    (∀ c, gated.Chain {k | gated.spared k = false} 0 7 c → ∃ d ∈ c, d.weight = some 0) ∧
    (∀ c, gated.Chain {k | gated.spared k = false} 4 7 c → ∀ d ∈ c, d.weight = none) ∧
    (¬ ∀ c, gated.Chain {k | gated.spared k = false} 0 4 c → ∃ d ∈ c, d.weight = some 0) ∧
    ⟨0, 7, some 0⟩ ∈ ([6, 2, 5, 1].foldl elideNode gated).edges := by
  have hedges : gated.elide.edges = [⟨0, 4, some 1⟩, ⟨4, 7, none⟩, ⟨0, 7, some 0⟩] := by
    rw [elide, inner_gated]
    rfl
  obtain ⟨-, hweights, horders⟩ := elide_keeps_disabled spans_gated.acyclic
    (show ∀ e ∈ gated.edges, Plain e.weight by decide)
  rw [hedges] at hweights horders
  have hblank := hweights ⟨0, 7, some 0⟩ (by simp)
  have hend := hweights ⟨4, 7, none⟩ (by simp)
  have hword := hweights ⟨0, 4, some 1⟩ (by simp)
  have horder : [6, 2, 5, 1].Perm gated.inner := by
    rw [inner_gated]
    decide
  exact ⟨hedges, hblank.1.mp rfl, hend.2.mp rfl, mt hword.1.mpr (by decide),
    (horders _ horder _).mpr (by simp)⟩

end Graph

end SpokenGrammar
