import SpokenGrammar.Proofs.Grammar.Reach

namespace SpokenGrammar

variable {t : RuleTable} {name : String}

theorem missing_cons_of_not_mem {all seen : List String} {x : String} (hx : x ∉ all) :
    missing all (x :: seen) = missing all seen := by
  refine List.filter_congr fun y hy => ?_
  have hne : y ≠ x := fun heq => hx (heq ▸ hy)
  simp [hne]

theorem length_missing_cons_lt {all seen : List String} {x : String} (hx : x ∈ all)
    (hseen : x ∉ seen) : (missing all (x :: seen)).length < (missing all seen).length := by
  have hsub : [x] ⊆ missing all seen := by simp [missing, hx, hseen]
  have hsame : missing all (x :: seen) = missing all (seen ++ [x]) :=
    List.filter_congr fun y _ => by simp [or_comm]
  rw [hsame]
  exact length_missing_lt (List.cons_ne_nil x []) hsub

namespace RuleTable

/-- Whether `name` is met when the names on a stack are visited. A name that has not been seen yet
is followed: what it refers to comes on top, the last reference first. -/
def meets (t : RuleTable) (name : String) : List String → List String → Bool
  | [], _ => false
  | x :: todo, seen =>
    if x = name then true
    else if x ∈ seen then t.meets name todo seen
    else t.meets name ((t.references x).reverse ++ todo) (x :: seen)
termination_by todo seen => ((missing t.names seen).length, todo.length)
decreasing_by
  · exact Prod.Lex.right _ (Nat.lt_succ_self _)
  · rename_i hseen
    by_cases hx : x ∈ t.names
    · exact Prod.Lex.left _ _ (length_missing_cons_lt hx hseen)
    · have hnone : t.references x = [] := by
        by_contra hsome
        exact hx (mem_names_of_references hsome)
      rw [missing_cons_of_not_mem hx, hnone]
      exact Prod.Lex.right _ (Nat.lt_succ_self _)

/-- Whether what the names seen refer to has been seen or is still to be visited, and `name` is not
among them. -/
structure Frontier (t : RuleTable) (name : String) (todo seen : List String) : Prop where
  not_mem : name ∉ seen
  followed : ∀ x ∈ seen, ∀ y ∈ t.references x, y ∈ seen ∨ y ∈ todo

namespace Frontier

variable {todo seen : List String} {x : String}

theorem start (t : RuleTable) (name : String) (todo : List String) : t.Frontier name todo [] :=
  ⟨List.not_mem_nil, fun _ hx => absurd hx List.not_mem_nil⟩

theorem skip (h : t.Frontier name (x :: todo) seen) (hx : x ∈ seen) :
    t.Frontier name todo seen := by
  refine ⟨h.not_mem, fun y hy z hz => ?_⟩
  rcases h.followed y hy z hz with hz | hz
  · exact .inl hz
  · rcases List.mem_cons.mp hz with rfl | hz
    · exact .inl hx
    · exact .inr hz

theorem follow (h : t.Frontier name (x :: todo) seen) (hx : x ≠ name) :
    t.Frontier name ((t.references x).reverse ++ todo) (x :: seen) := by
  constructor
  · rw [List.mem_cons, not_or]
    exact ⟨hx.symm, h.not_mem⟩
  · intro y hy z hz
    rw [List.mem_cons, List.mem_append, List.mem_reverse]
    rcases List.mem_cons.mp hy with rfl | hy
    · exact .inr (.inl hz)
    · rcases h.followed y hy z hz with hz | hz
      · exact .inl (.inr hz)
      · rcases List.mem_cons.mp hz with rfl | hz
        · exact .inl (.inl rfl)
        · exact .inr (.inr hz)

theorem exists_todo (h : t.Frontier name todo seen) (hx : x ∈ seen)
    (hreaches : Relation.ReflTransGen (Refers t.references) x name) :
    ∃ y ∈ todo, Relation.ReflTransGen (Refers t.references) y name := by
  induction hreaches using Relation.ReflTransGen.head_induction_on with
  | refl => exact absurd hx h.not_mem
  | @head x y hxy hreaches ih =>
    rcases h.followed x hx y hxy with hy | hy
    · exact ih hy
    · exact ⟨y, hy, hreaches⟩

end Frontier

theorem meets_iff {todo seen : List String} (h : t.Frontier name todo seen) :
    t.meets name todo seen = true ↔
      ∃ x ∈ todo, Relation.ReflTransGen (Refers t.references) x name := by
  fun_induction meets t name todo seen with
  | case1 seen => simp
  | case2 todo seen => exact iff_of_true rfl ⟨name, List.mem_cons_self, .refl⟩
  | case3 x todo seen hne hseen ih =>
    rw [ih (h.skip hseen)]
    constructor
    · rintro ⟨y, hy, hreaches⟩
      exact ⟨y, List.mem_cons_of_mem _ hy, hreaches⟩
    · rintro ⟨y, hy, hreaches⟩
      rcases List.mem_cons.mp hy with rfl | hy
      · exact (h.skip hseen).exists_todo hseen hreaches
      · exact ⟨y, hy, hreaches⟩
  | case4 x todo seen hne hseen ih =>
    rw [ih (h.follow hne)]
    constructor
    · rintro ⟨y, hy, hreaches⟩
      rcases List.mem_append.mp hy with hy | hy
      · exact ⟨x, List.mem_cons_self, .head (List.mem_reverse.mp hy) hreaches⟩
      · exact ⟨y, List.mem_cons_of_mem _ hy, hreaches⟩
    · rintro ⟨y, hy, hreaches⟩
      rcases List.mem_cons.mp hy with rfl | hy
      · exact (h.follow hne).exists_todo List.mem_cons_self hreaches
      · exact ⟨y, List.mem_append_right _ hy, hreaches⟩

end RuleTable

theorem Rule.checkRecursion_eq_meets (r : Rule) (name : String) (t : RuleTable) :
    r.checkRecursion name t =
      if t.meets name r.references.reverse [] then .error (.selfReference name) else .ok () := by
  have hmeets := RuleTable.meets_iff (RuleTable.Frontier.start t name r.references.reverse)
  simp only [List.mem_reverse] at hmeets
  split
  · rename_i hfound
    exact checkRecursion_eq_error.mpr ⟨rfl, hmeets.mp hfound⟩
  · rename_i hfound
    exact checkRecursion_eq_ok.mpr fun hreaches => hfound (hmeets.mpr hreaches)

namespace Grammar

variable {g : Grammar} {f : Fault}

theorem validate_eq_ok :
    g.validate = .ok () ↔ ∀ x, ¬ Relation.TransGen (Refers g.rules.references) x x := by
  refine ⟨not_reaches_of_validate, fun hacyclic => ?_⟩
  rcases g.validate_cases with hvalid | ⟨x, -, hcycle⟩
  · exact hvalid
  · exact absurd hcycle (hacyclic x)

theorem validate_eq_error : g.validate = .error f ↔
    ∃ before x r after, g.rules.entries = before ++ (x, r) :: after ∧ f = .selfReference x ∧
      Relation.TransGen (Refers g.rules.references) x x ∧
      ∀ e ∈ before, ¬ Relation.TransGen (Refers g.rules.references) e.1 e.1 := by
  have hentry : ∀ e ∈ g.rules.entries, Relation.TransGen (Refers g.rules.references) e.1 e.1 ↔
      ∃ y ∈ e.2.references, Relation.ReflTransGen (Refers g.rules.references) y e.1 :=
    fun e he => RuleTable.transGen_iff (RuleTable.find_eq_some_iff.mpr he)
  rw [validate, Attempt.forM_eq_error]
  constructor
  · rintro ⟨before, ⟨x, r⟩, after, hentries, hfault, hbefore⟩
    rw [hentries] at hentry
    obtain ⟨rfl, hreaches⟩ := Rule.checkRecursion_eq_error.mp hfault
    refine ⟨before, x, r, after, hentries, rfl, (hentry (x, r) (by simp)).mpr hreaches, ?_⟩
    intro e he
    rw [hentry e (List.mem_append_left _ he)]
    exact Rule.checkRecursion_eq_ok.mp (hbefore e he)
  · rintro ⟨before, x, r, after, hentries, rfl, hcycle, hbefore⟩
    rw [hentries] at hentry
    refine ⟨before, (x, r), after, hentries, ?_, fun e he => ?_⟩
    · exact Rule.checkRecursion_eq_error.mpr ⟨rfl, (hentry (x, r) (by simp)).mp hcycle⟩
    · have hnone := hbefore e he
      rw [hentry e (List.mem_append_left _ he)] at hnone
      exact Rule.checkRecursion_eq_ok.mpr hnone

theorem recursion_check_exact (r : Rule) (name : String) (t : RuleTable) (g : Grammar) :
    (r.checkRecursion name t =
      if t.meets name r.references.reverse [] then .error (.selfReference name) else .ok ()) ∧
    (r.checkRecursion name t = .error (.selfReference name) ↔
      ∃ x ∈ r.references, Relation.ReflTransGen (Refers t.references) x name) ∧
    (r.checkRecursion name t = .ok () ↔
      ¬ ∃ x ∈ r.references, Relation.ReflTransGen (Refers t.references) x name) ∧
    (g.validate = .ok () ↔ ∀ x, ¬ Relation.TransGen (Refers g.rules.references) x x) ∧
    ∀ f, g.validate = .error f ↔
      ∃ before x q after, g.rules.entries = before ++ (x, q) :: after ∧ f = .selfReference x ∧
        Relation.TransGen (Refers g.rules.references) x x ∧
        ∀ e ∈ before, ¬ Relation.TransGen (Refers g.rules.references) e.1 e.1 := by
  refine ⟨r.checkRecursion_eq_meets name t, ?_, Rule.checkRecursion_eq_ok, validate_eq_ok,
    fun f => validate_eq_error⟩
  rw [Rule.checkRecursion_eq_error]
  exact and_iff_right rfl

end Grammar

end SpokenGrammar
