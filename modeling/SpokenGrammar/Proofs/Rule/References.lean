import Mathlib.Data.List.Nodup
import Mathlib.Logic.Relation
import Mathlib.Tactic.ByContra
import SpokenGrammar.Proofs.Rule.Table
import SpokenGrammar.Rule.References

namespace SpokenGrammar

def Refers (next : String → List String) (a b : String) : Prop :=
  b ∈ next a

def missing (all seen : List String) : List String :=
  all.filter (· ∉ seen)

theorem length_missing_lt {all seen new : List String} (hnew : new ≠ [])
    (hsub : new ⊆ missing all seen) :
    (missing all (seen ++ new)).length < (missing all seen).length := by
  have hagain : missing all (seen ++ new) = (missing all seen).filter (· ∉ new) := by
    rw [missing, missing, List.filter_filter]
    refine List.filter_congr fun x _ => ?_
    simp [Bool.and_comm]
  obtain ⟨x, hx⟩ := List.exists_mem_of_ne_nil new hnew
  rw [hagain]
  exact List.length_filter_lt_length_iff_exists.mpr ⟨x, hsub hx, by simpa using hx⟩

theorem closed_closure {next : String → List String} {all : List String}
    (hall : ∀ x, next x ⊆ all) {fuel : Nat} {seen latest : List String}
    (hseen : ∀ x ∈ seen, x ∈ latest ∨ next x ⊆ seen)
    (hfuel : (missing all seen).length < fuel) :
    ∀ x ∈ closure next fuel seen latest, next x ⊆ closure next fuel seen latest := by
  -- The names seen are closed but for the latest, and each round finds one that was missing.
  induction fuel generalizing seen latest with
  | zero => omega
  | succ fuel ih =>
    have hmem : ∀ y, y ∈ ((latest.flatMap next).filter (· ∉ seen)).eraseDups ↔
        (∃ x ∈ latest, y ∈ next x) ∧ y ∉ seen := by
      intro y
      simp [List.mem_eraseDups]
    rw [closure]
    generalize ((latest.flatMap next).filter (· ∉ seen)).eraseDups = new at hmem ⊢
    split
    · intro x hx y hy
      rcases hseen x hx with hlatest | hclosed
      · by_contra hyseen
        cases (hmem y).mpr ⟨⟨x, hlatest, hy⟩, hyseen⟩
      · exact hclosed hy
    · rename_i hnew
      have hsub : new ⊆ missing all seen := by
        intro y hy
        obtain ⟨⟨x, -, hxy⟩, hyseen⟩ := (hmem y).mp hy
        exact List.mem_filter.mpr ⟨hall x hxy, by simpa using hyseen⟩
      have hlt := length_missing_lt hnew hsub
      refine ih ?_ (by omega)
      intro x hx
      rcases List.mem_append.mp hx with hx | hx
      · rcases hseen x hx with hlatest | hclosed
        · right
          intro y hy
          by_cases hyseen : y ∈ seen
          · exact List.mem_append_left _ hyseen
          · exact List.mem_append_right _ ((hmem y).mpr ⟨⟨x, hlatest, hy⟩, hyseen⟩)
        · exact .inr fun y hy => List.mem_append_left _ (hclosed hy)
      · exact .inl hx

theorem reached_of_mem_closure {next : String → List String} {P : String → Prop}
    (hnext : ∀ x, P x → ∀ y ∈ next x, P y) {fuel : Nat} {seen latest : List String}
    (hseen : ∀ x ∈ seen, P x) (hlatest : ∀ x ∈ latest, P x) :
    ∀ x ∈ closure next fuel seen latest, P x := by
  induction fuel generalizing seen latest with
  | zero => exact hseen
  | succ fuel ih =>
    have hnew : ∀ y ∈ ((latest.flatMap next).filter (· ∉ seen)).eraseDups, P y := by
      intro y hy
      rw [List.mem_eraseDups, List.mem_filter, List.mem_flatMap] at hy
      obtain ⟨⟨x, hx, hxy⟩, -⟩ := hy
      exact hnext x (hlatest x hx) y hxy
    rw [closure]
    split
    · exact hseen
    · refine ih (fun x hx => ?_) hnew
      rcases List.mem_append.mp hx with hx | hx
      · exact hseen x hx
      · exact hnew x hx

namespace RuleTable

variable {t : RuleTable} {name : String} {r : Rule}

theorem references_eq (h : t.find name = some r) : t.references name = r.references := by
  rw [references, h]
  rfl

theorem mem_names_of_references (h : t.references name ≠ []) : name ∈ t.names := by
  by_contra hname
  rw [references, find_eq_none_iff.mpr hname] at h
  exact h rfl

theorem transGen_iff (h : t.find name = some r) {y : String} :
    Relation.TransGen (Refers t.references) name y ↔
      ∃ x ∈ r.references, Relation.ReflTransGen (Refers t.references) x y := by
  rw [Relation.TransGen.head'_iff, ← references_eq h]
  rfl

theorem references_subset (t : RuleTable) (name : String) :
    t.references name ⊆ t.entries.flatMap fun e => e.2.references := by
  intro y hy
  cases hfound : t.find name with
  | none =>
    rw [references, hfound] at hy
    cases hy
  | some r =>
    rw [references_eq hfound] at hy
    exact List.mem_flatMap.mpr ⟨(name, r), find_eq_some_iff.mp hfound, hy⟩

theorem mem_reachable {names : List String} {x y : String} (hx : x ∈ names)
    (h : Relation.ReflTransGen (Refers t.references) x y) : y ∈ t.reachable names := by
  have hfuel : (missing (t.entries.flatMap fun e => e.2.references) names.eraseDups).length <
      t.rounds := Nat.lt_succ_of_le (List.length_filter_le _ _)
  have hclosed := closed_closure t.references_subset (fun z hz => .inl hz) hfuel
  induction h with
  | refl => exact subset_closure _ _ _ _ (List.mem_eraseDups.mpr hx)
  | tail _ hyz ih => exact hclosed _ ih hyz

theorem mem_reachable_iff {names : List String} {y : String} :
    y ∈ t.reachable names ↔ ∃ x ∈ names, Relation.ReflTransGen (Refers t.references) x y := by
  constructor
  · have hnames : ∀ y ∈ names.eraseDups,
        ∃ x ∈ names, Relation.ReflTransGen (Refers t.references) x y :=
      fun y hy => ⟨y, List.mem_eraseDups.mp hy, .refl⟩
    refine reached_of_mem_closure ?_ hnames hnames y
    rintro y ⟨x, hx, hxy⟩ z hz
    exact ⟨x, hx, hxy.tail hz⟩
  · rintro ⟨x, hx, hxy⟩
    exact mem_reachable hx hxy

end RuleTable

namespace Rule

variable {t : RuleTable} {name : String} {r : Rule} {f : Fault}

theorem checkRecursion_eq_error : r.checkRecursion name t = .error f ↔
    f = .selfReference name ∧
      ∃ x ∈ r.references, Relation.ReflTransGen (Refers t.references) x name := by
  rw [← RuleTable.mem_reachable_iff, checkRecursion]
  split
  · rename_i hreached
    simp [hreached, eq_comm]
  · rename_i hreached
    simp [hreached]

theorem checkRecursion_eq_ok : r.checkRecursion name t = .ok () ↔
    ¬ ∃ x ∈ r.references, Relation.ReflTransGen (Refers t.references) x name := by
  rw [← RuleTable.mem_reachable_iff, checkRecursion]
  split
  · rename_i hreached
    simp [hreached]
  · rename_i hreached
    simp [hreached]

end Rule

end SpokenGrammar
