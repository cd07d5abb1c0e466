import SpokenGrammar.Proofs.Attempt
import SpokenGrammar.Proofs.Graph.Composition
import SpokenGrammar.Rule.References

namespace SpokenGrammar

variable {P : String → Prop} {r guest : Rule} {t u : RuleTable} {name : String}
  {todo places : List Nat} {g h : Graph}

namespace Rule

theorem mem_places {i : Nat} :
    i ∈ r.places name ↔ r.graph.tokens[i]? = some (.reference name) ∧ r.graph.Touched i := by
  have hname : ∀ t : Token, t.referenceName = some name ↔ t = .reference name := by
    intro t
    cases t <;> simp [Token.referenceName]
  simp only [places, List.mem_map, List.mem_filter, Bool.and_eq_true, decide_eq_true_eq,
    Graph.touches_iff, Prod.exists, List.mem_zipIdx_iff_getElem?, hname]
  constructor
  · rintro ⟨t, j, ⟨ht, rfl, htouched⟩, rfl⟩
    exact ⟨ht, htouched⟩
  · rintro ⟨ht, htouched⟩
    exact ⟨_, i, ⟨ht, rfl, htouched⟩, rfl⟩

theorem nodup_places (r : Rule) (name : String) : (r.places name).Nodup := by
  have hall : (r.graph.tokens.zipIdx.map Prod.snd).Nodup := by
    rw [List.zipIdx_map_snd]
    exact List.nodup_range'
  exact hall.sublist (List.filter_sublist.map _)

theorem nodup_flatMap_places (r : Rule) {names : List String} (h : names.Nodup) :
    (names.flatMap r.places).Nodup := by
  rw [List.nodup_flatMap]
  refine ⟨fun name _ => r.nodup_places name, h.imp fun {name name'} hne => ?_⟩
  intro i hi hi'
  have heq := (mem_places.mp hi).1.symm.trans (mem_places.mp hi').1
  exact hne (Token.reference.inj (Option.some.inj heq))

def called (r : Rule) : List String :=
  r.references.filter fun name => !Text.allBlank name.toList

def spliceName (t : RuleTable) (r : Rule) (g : Graph) (name : String) : Except Fault Graph :=
  match t.find name with
  | none => .error (.unknownReference name)
  | some guest => spliceAll guest.graph g (r.places name)

theorem spliceName_missing (r : Rule) (g : Graph) (h : t.find name = none) :
    spliceName t r g name = .error (.unknownReference name) := by
  rw [spliceName, h]

theorem spliceName_found (r : Rule) (g : Graph) (h : t.find name = some guest) :
    spliceName t r g name = spliceAll guest.graph g (r.places name) := by
  rw [spliceName, h]

theorem resolve_eq (r : Rule) (t : RuleTable) :
    r.resolve t = (r.called.foldlM (spliceName t r) r.graph).map fun graph => { r with graph } := by
  change (r.called.foldlM (spliceName t r) r.graph >>= fun graph => pure { r with graph }) = _
  cases r.called.foldlM (spliceName t r) r.graph <;> rfl

theorem exists_graph_of_resolve {q : Rule} (h : r.resolve t = .ok q) :
    ∃ graph, q = { r with graph } := by
  rw [resolve_eq] at h
  obtain ⟨graph, -, rfl⟩ := Attempt.map_eq_ok.mp h
  exact ⟨graph, rfl⟩

theorem exists_find_of_resolve {q : Rule} (hq : r.resolve t = .ok q) (hname : name ∈ r.called) :
    ∃ guest, t.find name = some guest := by
  rw [resolve_eq] at hq
  obtain ⟨g, hg, -⟩ := Attempt.map_eq_ok.mp hq
  obtain ⟨k, k', hk⟩ := Attempt.forall_of_foldlM hg name hname
  cases hfind : t.find name with
  | none =>
    rw [spliceName_missing r k hfind] at hk
    cases hk
  | some guest => exact ⟨guest, rfl⟩

theorem resolve_congr (h : ∀ name ∈ r.called, t.find name = u.find name) :
    r.resolve t = r.resolve u := by
  have hfold : ∀ (names : List String) (g : Graph), names ⊆ r.called →
      names.foldlM (spliceName t r) g = names.foldlM (spliceName u r) g := by
    intro names
    induction names with
    | nil => exact fun _ _ => rfl
    | cons name names ih =>
      intro g hsub
      have hstep : spliceName t r g name = spliceName u r g name := by
        rw [spliceName, spliceName, h name (hsub List.mem_cons_self)]
      rw [List.foldlM_cons, List.foldlM_cons, hstep]
      cases spliceName u r g name with
      | error f => rfl
      | ok g' => exact ih g' fun x hx => hsub (List.mem_cons_of_mem _ hx)
  rw [resolve_eq, resolve_eq, hfold r.called r.graph (List.Subset.refl _)]

theorem resolve_eq_self (hsettled : r.graph.Settled)
    (hfound : ∀ name ∈ r.called, ∃ guest, t.find name = some guest) : r.resolve t = .ok r := by
  have hplaces : ∀ name, r.places name = [] := by
    intro name
    rw [List.eq_nil_iff_forall_not_mem]
    intro i hi
    obtain ⟨htoken, htouched⟩ := mem_places.mp hi
    exact hsettled i name htouched htoken
  have hfold : ∀ names ⊆ r.called, names.foldlM (spliceName t r) r.graph = .ok r.graph := by
    intro names
    induction names with
    | nil => exact fun _ => rfl
    | cons name names ih =>
      intro hsub
      obtain ⟨guest, hguest⟩ := hfound name (hsub List.mem_cons_self)
      rw [List.foldlM_cons, spliceName_found r _ hguest, hplaces]
      exact ih fun x hx => hsub (List.mem_cons_of_mem _ hx)
  rw [resolve_eq, hfold r.called (List.Subset.refl _)]
  rfl

end Rule

/-- The graph of `r` with some references spliced over, those at `todo` still left. -/
structure Pending (r : Rule) (todo : List Nat) (g : Graph) : Prop where
  spanning : g.Spanning
  prefix_tokens : r.graph.tokens <+: g.tokens
  touched : ∀ i ∈ todo, g.Touched i

namespace Pending

variable {i : Nat}

theorem start (hspan : r.graph.Spanning) :
    Pending r (r.called.flatMap r.places) r.graph := by
  refine ⟨hspan, List.prefix_refl _, fun i hi => ?_⟩
  obtain ⟨name, -, hi⟩ := List.mem_flatMap.mp hi
  exact (Rule.mem_places.mp hi).2

theorem token (hp : Pending r todo g) {t : Token} (h : r.graph.tokens[i]? = some t) :
    g.tokens[i]? = some t := by
  obtain ⟨extra, hextra⟩ := hp.prefix_tokens
  rw [← hextra, List.getElem?_append_left (List.getElem?_eq_some_iff.mp h).1, h]

theorem exists_splice (hp : Pending r (i :: todo) g) (hguest : guest.graph.Spanning) :
    ∃ h, g.splice guest.graph i = .ok h := by
  obtain ⟨s, t, hspan⟩ := hp.spanning
  obtain ⟨u, v, hspan'⟩ := hguest
  exact Graph.splice_eq_ok hspan.isEmpty_eq_false hspan'.isEmpty_eq_false
    (hspan.lt_of_touched (hp.touched i List.mem_cons_self))

theorem splice (hp : Pending r (i :: todo) g) (hguest : guest.graph.Spanning) (hi : i ∉ todo)
    (hsplice : g.splice guest.graph i = .ok h) : Pending r todo h := by
  refine ⟨Graph.spanning_splice hp.spanning hguest hsplice (hp.touched i List.mem_cons_self), ?_,
    fun j hj => ?_⟩
  · rw [Graph.tokens_splice hsplice]
    exact hp.prefix_tokens.trans (List.prefix_append _ _)
  · have hji : j ≠ i := fun heq => hi (heq ▸ hj)
    exact Graph.touched_splice_host hp.spanning hguest hsplice
      (hp.touched j (List.mem_cons_of_mem _ hj)) hji

end Pending

namespace Rule

section Invariant

variable {I : List Nat → Graph → Prop}

theorem exists_spliceAll
    (hstep : ∀ i todo g, i ∈ places → i ∉ todo → I (i :: todo) g →
      ∃ h, g.splice guest.graph i = .ok h ∧ I todo h)
    (hnodup : (places ++ todo).Nodup) (h : I (places ++ todo) g) :
    ∃ h, spliceAll guest.graph g places = .ok h ∧ I todo h := by
  induction places generalizing g with
  | nil => exact ⟨g, rfl, h⟩
  | cons i places ih =>
    rw [List.cons_append, List.nodup_cons] at hnodup
    obtain ⟨k, hk, hleft⟩ := hstep i _ g List.mem_cons_self hnodup.1 h
    obtain ⟨l, hl, hdone⟩ :=
      ih (fun j todo g hj => hstep j todo g (List.mem_cons_of_mem _ hj)) hnodup.2 hleft
    refine ⟨l, ?_, hdone⟩
    rw [spliceAll, List.foldlM_cons, hk]
    exact hl

theorem resolve_cases (hdistinct : r.references.Nodup)
    (hstep : ∀ name ∈ r.called, ∀ guest, t.find name = some guest → ∀ i todo g,
      r.graph.tokens[i]? = some (.reference name) → i ∉ todo → I (i :: todo) g →
      ∃ h, g.splice guest.graph i = .ok h ∧ I todo h)
    (hstart : I (r.called.flatMap r.places) r.graph) :
    (∃ g, r.resolve t = .ok { r with graph := g } ∧ I [] g) ∨
    ∃ name ∈ r.called, t.find name = none ∧ r.resolve t = .error (.unknownReference name) := by
  have hround : ∀ (name : String) (l : List String) (g : Graph),
      (I ((name :: l).flatMap r.places) g ∧ name :: l ⊆ r.called ∧ (name :: l).Nodup) →
      (∃ g', spliceName t r g name = .ok g' ∧
        I (l.flatMap r.places) g' ∧ l ⊆ r.called ∧ l.Nodup) ∨
      ∃ f, spliceName t r g name = .error f ∧
        ∃ name ∈ r.called, t.find name = none ∧ f = .unknownReference name := by
    rintro name l g ⟨hleft, hsub, hnodup⟩
    have hcalled := hsub List.mem_cons_self
    cases hfind : t.find name with
    | none => exact .inr ⟨_, spliceName_missing r g hfind, name, hcalled, hfind, rfl⟩
    | some guest =>
      have hplaces := r.nodup_flatMap_places hnodup
      rw [List.flatMap_cons] at hleft hplaces
      obtain ⟨g', hg', hleft'⟩ := exists_spliceAll (fun i todo g hi =>
        hstep name hcalled guest hfind i todo g (mem_places.mp hi).1) hplaces hleft
      refine .inl ⟨g', (spliceName_found r g hfind).trans hg', hleft', ?_,
        (List.nodup_cons.mp hnodup).2⟩
      exact fun x hx => hsub (List.mem_cons_of_mem _ hx)
  rcases Attempt.foldlM_cases (I := fun l g => I (l.flatMap r.places) g ∧ l ⊆ r.called ∧ l.Nodup)
      hround ⟨hstart, List.Subset.refl _, hdistinct.filter _⟩ with
    ⟨g, hg, hdone, -⟩ | ⟨f, hf, name, hcalled, hfind, rfl⟩
  · refine .inl ⟨g, ?_, hdone⟩
    rw [resolve_eq, hg]
    rfl
  · refine .inr ⟨name, hcalled, hfind, ?_⟩
    rw [resolve_eq, hf]
    rfl

end Invariant

end Rule

/-- A graph that is composed but for the places still left and for references with `P`. -/
structure Splicing (P : String → Prop) (r : Rule) (todo : List Nat) (g : Graph) : Prop
    extends Pending r todo g where
  composed : g.Composed fun i name => i ∈ todo ∨ P name

theorem Splicing.exists_splice {i : Nat} (hs : Splicing P r (i :: todo) g)
    (hguest : guest.graph.Composed fun _ => P)
    (htoken : r.graph.tokens[i]? = some (.reference name)) (hi : i ∉ todo) :
    ∃ h, g.splice guest.graph i = .ok h ∧ Splicing P r todo h := by
  have htouched := hs.touched i List.mem_cons_self
  obtain ⟨h, hsplice⟩ := hs.toPending.exists_splice hguest.spanning
  refine ⟨h, hsplice, hs.toPending.splice hguest.spanning hi hsplice, ?_⟩
  refine hs.composed.splice hguest hsplice htouched (hs.token htoken) ?_ fun _ _ hP => .inr hP
  rintro j name' hji (hj | hP)
  · exact .inl ((List.mem_cons.mp hj).resolve_left hji)
  · exact .inr hP

namespace Rule

structure Compiled (P : String → Prop) (r : Rule) : Prop where
  composed : r.graph.Composed fun _ name => name ∈ r.called ∨ P name
  distinct : r.references.Nodup

theorem Compiled.mem_todo {i : Nat} (h : r.Compiled P) (hi : r.graph.Touched i)
    (hname : r.graph.tokens[i]? = some (.reference name)) :
    i ∈ r.called.flatMap r.places ∨ P name := by
  refine (h.composed.residue i name hi hname).imp_left fun hcalled => ?_
  exact List.mem_flatMap.mpr ⟨name, hcalled, mem_places.mpr ⟨hname, hi⟩⟩

theorem Compiled.splicing (h : r.Compiled P) :
    Splicing P r (r.called.flatMap r.places) r.graph where
  toPending := .start h.composed.spanning
  composed := ⟨h.composed.spanning, h.composed.manifest, fun _ _ hi hname => h.mem_todo hi hname⟩

theorem Compiled.resolve_cases (h : r.Compiled P)
    (hguests : ∀ name ∈ r.called, ∀ guest, t.find name = some guest →
      guest.graph.Composed fun _ => P) :
    (∃ g, r.resolve t = .ok { r with graph := g } ∧ g.Composed (fun _ => P) ∧
      r.graph.tokens <+: g.tokens) ∨
    ∃ name ∈ r.called, t.find name = none ∧ r.resolve t = .error (.unknownReference name) := by
  refine (Rule.resolve_cases h.distinct (fun name hcalled guest hfind i todo g htoken hi hs =>
    hs.exists_splice (hguests name hcalled guest hfind) htoken hi) h.splicing).imp_left ?_
  rintro ⟨g, hg, hs⟩
  refine ⟨g, hg, hs.composed.imp ?_, hs.prefix_tokens⟩
  rintro i name (hi | hP)
  · cases hi
  · exact hP

end Rule

end SpokenGrammar
