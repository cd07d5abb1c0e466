import SpokenGrammar.Proofs.Grammar.Order

namespace SpokenGrammar

def RuleTable.Leads (t : RuleTable) (name : String) : Prop :=
  ∃ x r, t.find x = some r ∧ r.isPublic = true ∧
    Relation.ReflTransGen (Refers t.references) x name

def RuleTable.Recursive (t : RuleTable) : Prop :=
  ∃ name, Relation.TransGen (Refers t.references) name name

def RuleTable.Lacks (t : RuleTable) (name : String) : Prop :=
  name ∉ t.names ∧ ∃ x, t.Leads x ∧ name ∈ t.references x

theorem RuleTable.Leads.next {t : RuleTable} {x y : String} (h : t.Leads x)
    (hy : y ∈ t.references x) : t.Leads y := by
  obtain ⟨z, r, hr, hpublic, hzx⟩ := h
  exact ⟨z, r, hr, hpublic, hzx.tail hy⟩

theorem RuleTable.Leads.mono {t u : RuleTable} {name : String} (h : t.Leads name)
    (hsub : ∀ x r, t.find x = some r → u.find x = some r) : u.Leads name := by
  obtain ⟨x, r, hr, hpublic, hreaches⟩ := h
  have hrefers : ∀ a b, Refers t.references a b → Refers u.references a b := by
    intro a b hab
    obtain ⟨q, hq⟩ := mem_names_iff.mp (mem_names_of_references (List.ne_nil_of_mem hab))
    rw [Refers, references_eq (hsub a q hq), ← references_eq hq]
    exact hab
  exact ⟨x, r, hsub x r hr, hpublic, Relation.ReflTransGen.mono hrefers _ _ hreaches⟩

theorem reached_of_mem_breadthFirst {next : String → List String} {P : String → Prop}
    (hnext : ∀ x, P x → ∀ y ∈ next x, P y) {fuel : Nat} {level : List String}
    (hlevel : ∀ x ∈ level, P x) : ∀ x ∈ breadthFirst next fuel level, P x := by
  induction fuel generalizing level with
  | zero => exact fun x hx => absurd hx List.not_mem_nil
  | succ fuel ih =>
    rw [breadthFirst_succ]
    intro x hx
    rcases List.mem_append.mp hx with hx | hx
    · exact hlevel x hx
    · refine ih (fun y hy => ?_) x hx
      obtain ⟨z, hz, hzy⟩ := List.mem_flatMap.mp hy
      exact hnext z (hlevel z hz) y hzy

theorem Followed.closed {next : String → List String} {l : List String} (h : Followed next l)
    {x : String} (hx : x ∈ l) : next x ⊆ l := by
  obtain ⟨before, after, rfl⟩ := List.append_of_mem hx
  intro y hy
  have hafter := h before x after rfl hy
  simp [hafter]

namespace Grammar

variable {g : Grammar} {order : List String}

theorem validate_cases (g : Grammar) :
    g.validate = .ok () ∨ ∃ name, g.validate = .error (.selfReference name) ∧
      Relation.TransGen (Refers g.rules.references) name name := by
  rcases Attempt.forM_cases (fun e : String × Rule => e.2.checkRecursion e.1 g.rules)
    g.rules.entries with hok | ⟨⟨name, r⟩, hmem, f, hf, hvalidate⟩
  · exact .inl hok
  · obtain ⟨rfl, hreaches⟩ := Rule.checkRecursion_eq_error.mp hf
    have hfind := RuleTable.find_eq_some_iff.mpr hmem
    exact .inr ⟨name, hvalidate, (RuleTable.transGen_iff hfind).mpr hreaches⟩

theorem compositionOrder_cases (g : Grammar) :
    (¬ g.rules.Recursive ∧ ∃ order, g.compositionOrder = .ok order) ∨
      ∃ name, g.compositionOrder = .error (.selfReference name) ∧
        Relation.TransGen (Refers g.rules.references) name name := by
  rcases g.validate_cases with hvalid | ⟨name, hvalidate, hcycle⟩
  · left
    refine ⟨fun ⟨name, hcycle⟩ => not_reaches_of_validate hvalid name hcycle, ?_⟩
    rw [compositionOrder, hvalid]
    exact ⟨_, rfl⟩
  · right
    refine ⟨name, ?_, hcycle⟩
    rw [compositionOrder, hvalidate]
    rfl

theorem mem_order_iff (h : g.compositionOrder = .ok order) {name : String} :
    name ∈ order ↔ g.rules.Leads name := by
  obtain ⟨hpublic, hfollowed⟩ := compositionOrder_eq_ok h
  constructor
  · obtain ⟨_, -, hbreadth⟩ := Attempt.bind_eq_ok.mp h
    rcases Except.ok.inj hbreadth with rfl
    refine reached_of_mem_breadthFirst (fun x hx y hy => hx.next hy) ?_ name
    intro x hx
    obtain ⟨⟨x, r⟩, he, rfl⟩ := List.mem_map.mp hx
    obtain ⟨hr, htrue⟩ := mem_publicRules.mp he
    exact ⟨x, r, hr, htrue, .refl⟩
  · rintro ⟨x, r, hr, htrue, hreaches⟩
    induction hreaches with
    | refl => exact hpublic (x, r) (mem_publicRules.mpr ⟨hr, htrue⟩)
    | tail _ hyz ih => exact hfollowed.closed ih hyz

theorem not_lacks_of_order (h : g.compositionOrder = .ok order)
    (hcomplete : ∀ x ∈ order, g.rules.references x ⊆ g.rules.names) (name : String) :
    ¬ g.rules.Lacks name := by
  rintro ⟨hname, x, hleads, hrefers⟩
  exact hname (hcomplete x ((mem_order_iff h).mpr hleads) hrefers)

theorem not_recursive_of_order (h : g.compositionOrder = .ok order) : ¬ g.rules.Recursive := by
  rcases g.compositionOrder_cases with ⟨hacyclic, -⟩ | ⟨name, herror, -⟩
  · exact hacyclic
  · cases h.symm.trans herror

end Grammar

end SpokenGrammar
