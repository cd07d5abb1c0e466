import Mathlib.Data.List.Perm.Subperm
import SpokenGrammar.Grammar.Order
import SpokenGrammar.Proofs.Attempt
import SpokenGrammar.Proofs.Repetition
import SpokenGrammar.Proofs.Rule.References

namespace SpokenGrammar

def Followed (next : String → List String) (l : List String) : Prop :=
  ∀ before x after, l = before ++ x :: after → next x ⊆ after

theorem Followed.append {next : String → List String} {level rest : List String}
    (hlevel : ∀ x ∈ level, next x ⊆ rest) (hrest : Followed next rest) :
    Followed next (level ++ rest) := by
  intro before x after heq
  rcases List.append_eq_append_iff.mp heq with ⟨mid, rfl, hmid⟩ | ⟨mid, rfl, hmid⟩
  · exact hrest mid x after hmid
  · cases mid with
    | nil => exact hrest [] x after hmid.symm
    | cons y mid =>
      obtain ⟨rfl, rfl⟩ := List.cons.inj hmid
      intro z hz
      exact List.mem_append_right _ (hlevel x (by simp) hz)

theorem Followed.precedes {next : String → List String} {l : List String} (h : Followed next l)
    {x y : String} (hy : y ∈ next x) : Precedes y x l.reverse := by
  intro before after heq
  have hl : l = after.reverse ++ x :: before.reverse := by
    rw [← List.reverse_reverse l, heq]
    simp
  exact List.mem_reverse.mp (h _ x _ hl hy)

theorem breadthFirst_succ (next : String → List String) (fuel : Nat) (level : List String) :
    breadthFirst next (fuel + 1) level = level ++ breadthFirst next fuel (level.flatMap next) := by
  cases level with
  | nil => cases fuel <;> rfl
  | cons x level => rfl

theorem subset_breadthFirst (next : String → List String) (fuel : Nat) (level : List String) :
    level ⊆ breadthFirst next (fuel + 1) level := by
  rw [breadthFirst_succ]
  exact List.subset_append_left _ _

section Acyclic

variable {next : String → List String} {names : List String}
  (hacyclic : ∀ x, ¬ Relation.TransGen (Refers next) x x)
  (hnames : ∀ x, next x ≠ [] → x ∈ names)
include hacyclic hnames

/-- Distinct names with references, each of which leads to `x`. -/
structure Trail (next : String → List String) (x : String) (trail : List String) : Prop where
  distinct : trail.Nodup
  refers : ∀ c ∈ trail, next c ≠ []
  leads : ∀ c ∈ trail, Relation.TransGen (Refers next) c x

omit hnames in
theorem Trail.cons {x y : String} {trail : List String} (h : Trail next x trail) (hy : y ∈ next x) :
    Trail next y (x :: trail) := by
  constructor
  · refine List.nodup_cons.mpr ⟨?_, h.distinct⟩
    intro hx
    exact hacyclic x (h.leads x hx)
  · intro c hc
    rcases List.mem_cons.mp hc with rfl | hc
    · exact List.ne_nil_of_mem hy
    · exact h.refers c hc
  · intro c hc
    rcases List.mem_cons.mp hc with rfl | hc
    · exact .single hy
    · exact (h.leads c hc).tail hy

omit hacyclic in
theorem Trail.length_le {x : String} {trail : List String} (h : Trail next x trail) :
    trail.length ≤ names.length :=
  (h.distinct.subperm fun c hc => hnames c (h.refers c hc)).length_le

theorem followed_breadthFirst {fuel : Nat} {level : List String}
    (hlevel : ∀ x ∈ level, ∃ trail, Trail next x trail ∧ trail.length + fuel = names.length + 1) :
    Followed next (breadthFirst next fuel level) := by
  -- The fuel and the trail to any name of a level make up one more than there are names.
  induction fuel generalizing level with
  | zero =>
    intro before x after heq
    rw [breadthFirst] at heq
    simp at heq
  | succ fuel ih =>
    rw [breadthFirst_succ]
    refine Followed.append ?_ (ih ?_)
    · intro x hx y hy
      obtain ⟨trail, htrail, hlength⟩ := hlevel x hx
      have hlonger := (htrail.cons hacyclic hy).length_le hnames
      rw [List.length_cons] at hlonger
      cases fuel with
      | zero => omega
      | succ fuel =>
        exact subset_breadthFirst _ _ _ (List.mem_flatMap.mpr ⟨x, hx, hy⟩)
    · intro y hy
      obtain ⟨x, hx, hy⟩ := List.mem_flatMap.mp hy
      obtain ⟨trail, htrail, hlength⟩ := hlevel x hx
      refine ⟨x :: trail, htrail.cons hacyclic hy, ?_⟩
      rw [List.length_cons]
      omega

end Acyclic

namespace Grammar

variable {g : Grammar} {order : List String}

theorem mem_publicRules {g : Grammar} {name : String} {r : Rule} :
    (name, r) ∈ g.publicRules ↔ g.rules.find name = some r ∧ r.isPublic = true := by
  rw [publicRules, List.mem_filter, RuleTable.find_eq_some_iff]

theorem not_reaches_of_validate (h : g.validate = .ok ()) (name : String) :
    ¬ Relation.TransGen (Refers g.rules.references) name name := by
  intro hcycle
  obtain ⟨y, hy, -⟩ := Relation.TransGen.head'_iff.mp hcycle
  obtain ⟨r, hr⟩ :=
    RuleTable.mem_names_iff.mp (RuleTable.mem_names_of_references (List.ne_nil_of_mem hy))
  have hcheck := Attempt.eq_ok_of_forM h _ (RuleTable.find_eq_some_iff.mp hr)
  exact Rule.checkRecursion_eq_ok.mp hcheck ((RuleTable.transGen_iff hr).mp hcycle)

theorem exists_trail (g : Grammar) (x : String) :
    ∃ trail, Trail g.rules.references x trail ∧
      trail.length + (g.rules.entries.length + 1) = g.rules.names.length + 1 :=
  ⟨[], ⟨.nil, by simp, by simp⟩, by simp [RuleTable.names]⟩

theorem compositionOrder_eq_ok (h : g.compositionOrder = .ok order) :
    (∀ e ∈ g.publicRules, e.1 ∈ order) ∧ Followed g.rules.references order := by
  obtain ⟨_, hvalid, h⟩ := Attempt.bind_eq_ok.mp h
  rcases Except.ok.inj h with rfl
  constructor
  · intro e he
    exact subset_breadthFirst _ _ _ (List.mem_map.mpr ⟨e, he, rfl⟩)
  · have hnames : ∀ x, g.rules.references x ≠ [] → x ∈ g.rules.names :=
      fun x => RuleTable.mem_names_of_references
    exact followed_breadthFirst (not_reaches_of_validate hvalid) hnames fun x _ => g.exists_trail x

end Grammar

end SpokenGrammar
