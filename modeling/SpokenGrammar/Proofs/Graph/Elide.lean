import SpokenGrammar.Graph.Elide
import SpokenGrammar.Proofs.Graph.Route
import SpokenGrammar.Proofs.Language.Substitution

namespace SpokenGrammar

namespace Graph

variable {g : Graph} {s t i j k : Nat}

theorem mem_ends_bridges {es : List Edge} :
    (i, j) ∈ (bridges es k).map Edge.ends ↔
      (i, k) ∈ es.map Edge.ends ∧ (k, j) ∈ es.map Edge.ends := by
  simp only [bridges, List.mem_map, List.mem_flatMap, List.mem_filter, decide_eq_true_eq,
    Edge.ends, Prod.mk.injEq]
  constructor
  · rintro ⟨e, ⟨x, ⟨hx, hxk⟩, y, ⟨hy, hyk⟩, rfl⟩, hi, hj⟩
    exact ⟨⟨x, hx, hi, hxk⟩, ⟨y, hy, hyk, hj⟩⟩
  · rintro ⟨⟨x, hx, hi, hxk⟩, ⟨y, hy, hyk, hj⟩⟩
    exact ⟨x.bridge y, ⟨x, ⟨hx, hxk⟩, y, ⟨hy, hyk⟩, rfl⟩, hi, hj⟩

theorem joins_elideNode :
    (g.elideNode k).Joins i j ↔
      (i ≠ k ∧ j ≠ k ∧ g.Joins i j) ∨ (g.Joins i k ∧ g.Joins k j) := by
  simp only [Joins, elideNode, mem_ends_addEdges, mem_ends_bridges]
  refine or_congr_left ?_
  simp only [List.mem_map, List.mem_filter, Edge.touches, Bool.not_eq_true', Bool.or_eq_false_iff,
    decide_eq_false_iff_not, Edge.ends, Prod.mk.injEq]
  constructor
  · rintro ⟨e, ⟨he, hi, hj⟩, rfl, rfl⟩
    exact ⟨hi, hj, e, he, rfl, rfl⟩
  · rintro ⟨hi, hj, e, he, rfl, rfl⟩
    exact ⟨e, ⟨he, hi, hj⟩, rfl, rfl⟩

theorem ranked_elideNode {rank : Nat → Nat} (hr : ∀ i j, g.Joins i j → rank i < rank j) :
    ∀ i j, (g.elideNode k).Joins i j → rank i < rank j := by
  intro i j hij
  rcases joins_elideNode.mp hij with ⟨-, -, hij⟩ | ⟨hik, hkj⟩
  · exact hr i j hij
  · exact (hr i k hik).trans (hr k j hkj)

theorem touched_of_elideNode (hi : (g.elideNode k).Touched i) : g.Touched i := by
  obtain ⟨j, hij | hij⟩ := hi
  · rcases joins_elideNode.mp hij with ⟨-, -, hij⟩ | ⟨hik, -⟩
    · exact ⟨j, .inl hij⟩
    · exact ⟨k, .inl hik⟩
  · rcases joins_elideNode.mp hij with ⟨-, -, hij⟩ | ⟨-, hkj⟩
    · exact ⟨j, .inr hij⟩
    · exact ⟨k, .inr hkj⟩

theorem ne_of_touched_elideNode (h : g.Spans s t) (hi : (g.elideNode k).Touched i) : i ≠ k := by
  rintro rfl
  obtain ⟨j, hij | hij⟩ := hi
  · rcases joins_elideNode.mp hij with ⟨hne, -⟩ | ⟨hii, -⟩
    · exact hne rfl
    · exact h.not_joins_self i hii
  · rcases joins_elideNode.mp hij with ⟨-, hne, -⟩ | ⟨-, hii⟩
    · exact hne rfl
    · exact h.not_joins_self i hii

theorem exists_joins_elideNode (h : g.Spans s t) (ht : k ≠ t) (hik : i ≠ k) (hij : g.Joins i j) :
    ∃ l, (g.elideNode k).Joins i l := by
  by_cases hjk : j = k
  · subst hjk
    obtain ⟨l, hl⟩ := h.exited j ⟨i, .inr hij⟩ ht
    exact ⟨l, joins_elideNode.mpr (.inr ⟨hij, hl⟩)⟩
  · exact ⟨j, joins_elideNode.mpr (.inl ⟨hik, hjk, hij⟩)⟩

theorem exists_joins_elideNode_to (h : g.Spans s t) (hs : k ≠ s) (hjk : j ≠ k)
    (hij : g.Joins i j) : ∃ l, (g.elideNode k).Joins l j := by
  by_cases hik : i = k
  · subst hik
    obtain ⟨l, hl⟩ := h.entered i ⟨j, .inl hij⟩ hs
    exact ⟨l, joins_elideNode.mpr (.inr ⟨hl, hij⟩)⟩
  · exact ⟨i, joins_elideNode.mpr (.inl ⟨hik, hjk, hij⟩)⟩

theorem spans_elideNode (h : g.Spans s t) (hs : k ≠ s) (ht : k ≠ t) :
    (g.elideNode k).Spans s t where
  ranked := by
    obtain ⟨rank, hrank⟩ := h.ranked
    exact ⟨rank, ranked_elideNode hrank⟩
  within := by
    intro i j hij
    exact ⟨h.lt_of_touched (touched_of_elideNode ⟨j, .inl hij⟩),
      h.lt_of_touched (touched_of_elideNode ⟨i, .inr hij⟩)⟩
  entered := by
    intro i hi his
    obtain ⟨l, hl⟩ := h.entered i (touched_of_elideNode hi) his
    exact exists_joins_elideNode_to h hs (ne_of_touched_elideNode h hi) hl
  exited := by
    intro i hi hit
    obtain ⟨l, hl⟩ := h.exited i (touched_of_elideNode hi) hit
    exact exists_joins_elideNode h ht (ne_of_touched_elideNode h hi) hl
  not_entered := by
    intro i his
    rcases joins_elideNode.mp his with ⟨-, -, his⟩ | ⟨-, hks⟩
    · exact h.not_entered i his
    · exact h.not_entered k hks
  not_exited := by
    intro j htj
    rcases joins_elideNode.mp htj with ⟨-, -, htj⟩ | ⟨htk, -⟩
    · exact h.not_exited j htj
    · exact h.not_exited k htk
  touched := by
    obtain ⟨j, hj⟩ := h.exists_exit
    obtain ⟨l, hl⟩ := exists_joins_elideNode h ht hs.symm hj
    exact ⟨l, .inl hl⟩

theorem route_elideNode {p : List Nat} (r : Route g.Joins i j p) (hj : j ≠ k) :
    (i ≠ k → Route (g.elideNode k).Joins i j (p.filter (· ≠ k))) ∧
    (i = k → ∀ h, h ≠ k → g.Joins h k →
      Route (g.elideNode k).Joins h j (h :: p.filter (· ≠ k))) := by
  -- At the node left out, the route waits for the step after it.
  induction r with
  | here j =>
    constructor
    · intro hne
      rw [List.filter_singleton, decide_eq_true hne]
      exact .here j
    · intro heq
      exact absurd heq hj
  | @step i m j p him r ih =>
    obtain ⟨ihne, iheq⟩ := ih hj
    constructor
    · intro hne
      rw [List.filter_cons_of_pos (by simpa using hne)]
      by_cases hmk : m = k
      · exact iheq hmk i hne (hmk ▸ him)
      · exact .step (joins_elideNode.mpr (.inl ⟨hne, hmk, him⟩)) (ihne hmk)
    · rintro rfl h hh hhi
      rw [List.filter_cons_of_neg (by simp)]
      by_cases hmi : m = i
      · exact iheq hmi h hh hhi
      · exact .step (joins_elideNode.mpr (.inr ⟨hhi, him⟩)) (ihne hmi)

theorem exists_route_of_elideNode {p : List Nat} (h : g.Spans s t)
    (r : Route (g.elideNode k).Joins i j p) (hi : i ≠ k) :
    ∃ q, Route g.Joins i j q ∧ p = q.filter (· ≠ k) := by
  induction r with
  | here i => exact ⟨[i], .here i, by rw [List.filter_singleton, decide_eq_true hi]; rfl⟩
  | @step i m j p him r ih =>
    obtain ⟨q, hq, rfl⟩ := ih (ne_of_touched_elideNode h ⟨i, .inr him⟩)
    have hcons : i :: q.filter (· ≠ k) = (i :: q).filter (· ≠ k) :=
      (List.filter_cons_of_pos (by simpa using hi)).symm
    rcases joins_elideNode.mp him with ⟨-, -, him⟩ | ⟨hik, hkm⟩
    · exact ⟨i :: q, .step him hq, hcons⟩
    · refine ⟨i :: k :: q, .step hik (.step hkm hq), ?_⟩
      rw [hcons]
      simp [List.filter_cons]

theorem mem_paths_elideNode (h : g.Spans s t) (hs : k ≠ s) (ht : k ≠ t) {p : List Nat} :
    p ∈ (g.elideNode k).paths ↔ ∃ q ∈ g.paths, p = q.filter (· ≠ k) := by
  simp only [h.mem_paths, (spans_elideNode h hs ht).mem_paths]
  constructor
  · intro r
    exact exists_route_of_elideNode h r hs.symm
  · rintro ⟨q, hq, rfl⟩
    exact (route_elideNode hq ht.symm).1 hs.symm

theorem spans_foldl_elideNode (h : g.Spans s t) {nodes : List Nat} (hs : s ∉ nodes)
    (ht : t ∉ nodes) : (nodes.foldl elideNode g).Spans s t := by
  induction nodes generalizing g with
  | nil => exact h
  | cons k nodes ih =>
    have hs' := List.ne_and_not_mem_of_not_mem_cons hs
    have ht' := List.ne_and_not_mem_of_not_mem_cons ht
    exact ih (spans_elideNode h hs'.1.symm ht'.1.symm) hs'.2 ht'.2

theorem mem_paths_foldl_elideNode (h : g.Spans s t) {nodes : List Nat} (hs : s ∉ nodes)
    (ht : t ∉ nodes) {p : List Nat} :
    p ∈ (nodes.foldl elideNode g).paths ↔ ∃ q ∈ g.paths, p = q.filter (· ∉ nodes) := by
  induction nodes generalizing g with
  | nil => simp
  | cons k nodes ih =>
    have hs' := List.ne_and_not_mem_of_not_mem_cons hs
    have ht' := List.ne_and_not_mem_of_not_mem_cons ht
    have hfilter : ∀ q : List Nat,
        q.filter (· ∉ k :: nodes) = (q.filter (· ≠ k)).filter (· ∉ nodes) := by
      intro q
      rw [List.filter_filter]
      refine List.filter_congr fun i _ => ?_
      rw [← Bool.decide_and]
      exact decide_eq_decide.mpr (by rw [List.mem_cons, not_or, and_comm])
    rw [List.foldl_cons, ih (spans_elideNode h hs'.1.symm ht'.1.symm) hs'.2 ht'.2]
    simp only [mem_paths_elideNode h hs'.1.symm ht'.1.symm, hfilter]
    constructor
    · rintro ⟨_, ⟨q, hq, rfl⟩, rfl⟩
      exact ⟨q, hq, rfl⟩
    · rintro ⟨q, hq, rfl⟩
      exact ⟨_, ⟨q, hq, rfl⟩, rfl⟩

theorem touched_of_elide (hi : g.elide.Touched i) : g.Touched i := by
  rw [elide] at hi
  generalize g.inner = nodes at hi
  induction nodes generalizing g with
  | nil => exact hi
  | cons n nodes ih => exact touched_of_elideNode (ih hi)

theorem mem_inner :
    i ∈ g.inner ↔ ∃ a, g.tokens[i]? = some a ∧ a.isStructural = true ∧
      i ≠ g.source ∧ i ≠ g.sink ∧ g.Touched i := by
  simp only [inner, List.mem_map, List.mem_filter, Bool.and_eq_true, bne_iff_ne, ← touches_iff,
    Prod.exists, List.mem_zipIdx_iff_getElem?, and_assoc]
  constructor
  · rintro ⟨a, _, ha, hstruct, hs, ht, htouch, rfl⟩
    exact ⟨a, ha, hstruct, hs, ht, htouch⟩
  · rintro ⟨a, ha, hstruct, hs, ht, htouch⟩
    exact ⟨a, i, ha, hstruct, hs, ht, htouch, rfl⟩

theorem source_not_mem_inner : g.source ∉ g.inner := by
  rw [mem_inner]
  rintro ⟨-, -, -, hne, -⟩
  exact hne rfl

theorem sink_not_mem_inner : g.sink ∉ g.inner := by
  rw [mem_inner]
  rintro ⟨-, -, -, -, hne, -⟩
  exact hne rfl

def spared (g : Graph) (i : Nat) : Bool :=
  i = g.source || i = g.sink || !(g.tokens[i]?).any Token.isStructural

def Reduced (g : Graph) : Prop :=
  ∀ i, g.Touched i → g.spared i = true

theorem mem_inner_iff : i ∈ g.inner ↔ g.Touched i ∧ g.spared i = false := by
  simp only [mem_inner, spared, Bool.or_eq_false_iff, decide_eq_false_iff_not,
    Bool.not_eq_false', Option.any_eq_true]
  constructor
  · rintro ⟨a, ha, hstructural, hs, ht, htouched⟩
    exact ⟨htouched, ⟨hs, ht⟩, a, ha, hstructural⟩
  · rintro ⟨htouched, ⟨hs, ht⟩, a, ha, hstructural⟩
    exact ⟨a, ha, hstructural, hs, ht, htouched⟩

theorem elide_of_reduced (h : g.Reduced) : g.elide = g := by
  have hinner : g.inner = [] := by
    rw [List.eq_nil_iff_forall_not_mem]
    intro i hi
    obtain ⟨htouched, hspared⟩ := mem_inner_iff.mp hi
    rw [h i htouched] at hspared
    cases hspared
  rw [elide, hinner]
  rfl

theorem Spans.elide (h : g.Spans s t) : g.elide.Spans s t :=
  spans_foldl_elideNode h (h.source_eq ▸ source_not_mem_inner) (h.sink_eq ▸ sink_not_mem_inner)

theorem mem_paths_elide (h : g.Spans s t) {p : List Nat} :
    p ∈ g.elide.paths ↔ ∃ q ∈ g.paths, p = q.filter (· ∉ g.inner) :=
  mem_paths_foldl_elideNode h (h.source_eq ▸ source_not_mem_inner)
    (h.sink_eq ▸ sink_not_mem_inner)

theorem touched_elideNode (h : g.Spans s t) (hs : k ≠ s) (ht : k ≠ t) (hik : i ≠ k)
    (hi : g.Touched i) : (g.elideNode k).Touched i := by
  obtain ⟨j, hij | hji⟩ := hi
  · obtain ⟨l, hl⟩ := exists_joins_elideNode h ht hik hij
    exact ⟨l, .inl hl⟩
  · obtain ⟨l, hl⟩ := exists_joins_elideNode_to h hs hik hji
    exact ⟨l, .inr hl⟩

theorem touched_foldl_elideNode_iff (h : g.Spans s t) {nodes : List Nat} (hs : s ∉ nodes)
    (ht : t ∉ nodes) : (nodes.foldl elideNode g).Touched i ↔ g.Touched i ∧ i ∉ nodes := by
  induction nodes generalizing g with
  | nil => simp
  | cons k nodes ih =>
    have hs' := List.ne_and_not_mem_of_not_mem_cons hs
    have ht' := List.ne_and_not_mem_of_not_mem_cons ht
    rw [List.foldl_cons, ih (spans_elideNode h hs'.1.symm ht'.1.symm) hs'.2 ht'.2, List.mem_cons,
      not_or, ← and_assoc]
    refine and_congr_left' ⟨fun hi => ?_, fun ⟨hi, hik⟩ => ?_⟩
    · exact ⟨touched_of_elideNode hi, ne_of_touched_elideNode h hi⟩
    · exact touched_elideNode h hs'.1.symm ht'.1.symm hik hi

namespace Spans

variable (h : g.Spans s t)
include h

theorem touched_elide_iff : g.elide.Touched i ↔ g.Touched i ∧ i ∉ g.inner :=
  touched_foldl_elideNode_iff h (h.source_eq ▸ source_not_mem_inner)
    (h.sink_eq ▸ sink_not_mem_inner)

theorem spared_elide (i : Nat) : g.elide.spared i = g.spared i := by
  rw [spared, spared, tokens_elide, h.elide.source_eq, h.elide.sink_eq, h.source_eq, h.sink_eq]

theorem reduced_elide : g.elide.Reduced := by
  intro i hi
  obtain ⟨htouched, hinner⟩ := h.touched_elide_iff.mp hi
  rw [h.spared_elide]
  by_contra hspared
  exact hinner (mem_inner_iff.mpr ⟨htouched, Bool.eq_false_iff.mpr hspared⟩)

theorem elide_elide : g.elide.elide = g.elide :=
  elide_of_reduced h.reduced_elide

theorem mem_paths_elide_iff {p : List Nat} :
    p ∈ g.elide.paths ↔ ∃ q ∈ g.paths, p = q.filter g.spared := by
  have hfilter : ∀ q ∈ g.paths, q.filter (· ∉ g.inner) = q.filter g.spared := by
    intro q hq
    refine List.filter_congr fun i hi => ?_
    have htouched := h.touched_of_mem hq hi
    simp only [mem_inner_iff, htouched, true_and, Bool.not_eq_false, Bool.decide_eq_true]
  rw [mem_paths_elide h]
  constructor
  · rintro ⟨q, hq, rfl⟩
    exact ⟨q, hq, hfilter q hq⟩
  · rintro ⟨q, hq, rfl⟩
    exact ⟨q, hq, (hfilter q hq).symm⟩

end Spans

end Graph

end SpokenGrammar
