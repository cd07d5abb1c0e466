import SpokenGrammar.Proofs.Grammar.Reach
import SpokenGrammar.Proofs.Grammar.Resolution
import SpokenGrammar.Proofs.Rule.Compiled

/-!
# Finished rules

A rule is finished when the finished rules that it refers to have been spliced in. There is one
finished rule for a name, whichever way it is reached, and resolving it once more leaves it alone.
So a table may be resolved bit by bit: a run that is stopped leaves a table that is underway to the
same result.
-/

namespace SpokenGrammar

namespace RuleTable

variable {minimize : Bool} {t t' u v : RuleTable} {name : String} {q q' : Rule}
  {done names : List String}

inductive Finished (minimize : Bool) (t : RuleTable) : String → Rule → Prop where
  | intro {name : String} {r q : Rule} {u : RuleTable} (guests : String → Rule) :
      t.find name = some r → (∀ x ∈ r.called, u.find x = some (guests x)) →
      (∀ x ∈ r.called, Finished minimize t x (guests x)) → r.resolve u = .ok q →
      Finished minimize t name (if minimize then q.elide else q)

theorem Finished.unique (h : t.Finished minimize name q) (h' : t.Finished minimize name q') :
    q = q' := by
  induction h generalizing q' with
  | @intro name r q u guests hr hfind _ hq ih =>
    cases h' with
    | @intro _ r' p u' guests' hr' hfind' hguests' hq' =>
      obtain rfl := Option.some.inj (hr.symm.trans hr')
      have hsame : ∀ x ∈ r.called, u.find x = u'.find x := by
        intro x hx
        rw [hfind x hx, hfind' x hx, ih x hx (hguests' x hx)]
      rw [Rule.resolve_congr hsame] at hq
      rw [Except.ok.inj (hq.symm.trans hq')]

theorem Finished.mono (h : t.Finished minimize name q)
    (hsub : ∀ x r, t.find x = some r → t'.find x = some r) : t'.Finished minimize name q := by
  induction h with
  | intro guests hr hfind _ hq ih => exact .intro guests (hsub _ _ hr) hfind ih hq

def Compiled (t : RuleTable) : Prop :=
  ∀ name r, t.find name = some r → r.Compiled (fun _ => False) ∧ r.called = r.references

/-- Tables that have the rules of `t`, some of those that public rules lead to finished. -/
structure Underway (minimize : Bool) (t u : RuleTable) : Prop where
  names : u.names = t.names
  state : ∀ name q, u.find name = some q →
    t.find name = some q ∨ t.Leads name ∧ t.Finished minimize name q

namespace Underway

theorem start (minimize : Bool) (t : RuleTable) : Underway minimize t t :=
  ⟨rfl, fun _ _ h => .inl h⟩

variable (h : Underway minimize t u)
include h

theorem find_eq_none (hname : u.find name = none) : t.find name = none := by
  rw [find_eq_none_iff] at hname ⊢
  rwa [← h.names]

theorem find_eq_of_not_leads (hname : ¬ t.Leads name) : u.find name = t.find name := by
  cases hfind : u.find name with
  | none => exact (h.find_eq_none hfind).symm
  | some q =>
    rcases h.state name q hfind with hraw | ⟨hleads, -⟩
    · exact hraw.symm
    · exact absurd hleads hname

theorem replace (hq : u.find name = some q) (hleads : t.Leads name)
    (hfinished : t.Finished minimize name q') : Underway minimize t (u.replace name q') := by
  refine ⟨(names_replace ..).trans h.names, fun x p hp => ?_⟩
  by_cases hx : x = name
  · subst hx
    rw [find_replace_self hq] at hp
    obtain rfl := Option.some.inj hp
    exact .inr ⟨hleads, hfinished⟩
  · rw [find_replace_of_ne hx] at hp
    exact h.state x p hp

theorem add (hname : name ∉ t.names) (r : Rule) :
    Underway minimize (t.add name r) (u.add name r) := by
  have hname' : name ∉ u.names := by rwa [h.names]
  have hsub : ∀ x p, t.find x = some p → (t.add name r).find x = some p := by
    intro x p hp
    have hx : x ≠ name := by
      rintro rfl
      exact hname (mem_names_iff.mpr ⟨p, hp⟩)
    rwa [find_add hname, if_neg hx]
  refine ⟨?_, fun x p hp => ?_⟩
  · rw [names_add r hname, names_add r hname', h.names]
  · rw [find_add hname'] at hp
    split at hp
    · rename_i hx
      left
      rwa [find_add hname, if_pos hx]
    · rcases h.state x p hp with hraw | ⟨hleads, hfinished⟩
      · exact .inl (hsub x p hraw)
      · exact .inr ⟨hleads.mono hsub, hfinished.mono hsub⟩

end Underway

theorem finished_replace (hq : u.find name = some q) (hfinished : t.Finished minimize name q')
    (hdone : ∀ x ∈ done, ∀ p, u.find x = some p → t.Finished minimize x p) :
    ∀ x ∈ done ++ [name], ∀ p, (u.replace name q').find x = some p → t.Finished minimize x p := by
  intro x hx p hp
  by_cases hxn : x = name
  · subst hxn
    rw [find_replace_self hq] at hp
    exact Option.some.inj hp ▸ hfinished
  · rw [find_replace_of_ne hxn] at hp
    refine hdone x ((List.mem_append.mp hx).resolve_right fun hx => ?_) p hp
    exact hxn (List.mem_singleton.mp hx)

section Compiled

variable (ht : t.Compiled)
include ht

theorem Finished.exists_find (h : t.Finished minimize name q) :
    ∃ r, t.find name = some r ∧ q.references = r.references ∧ q.isPublic = r.isPublic ∧
      q.graph.Composed (fun _ _ => False) ∧ (if minimize then q.elide else q) = q := by
  induction h with
  | @intro name r q u guests hr hfind _ hq ih =>
    obtain ⟨hcompiled, -⟩ := ht name r hr
    have hguests : ∀ x ∈ r.called, ∀ guest, u.find x = some guest →
        guest.graph.Composed fun _ _ => False := by
      intro x hx guest hguest
      obtain rfl := Option.some.inj ((hfind x hx).symm.trans hguest)
      obtain ⟨-, -, -, -, hcomposed, -⟩ := ih x hx
      exact hcomposed
    rcases hcompiled.resolve_cases hguests with ⟨g, hg, hcomposed, -⟩ | ⟨x, -, -, hx⟩
    · obtain rfl := Except.ok.inj (hg.symm.trans hq)
      refine ⟨r, hr, ?_⟩
      cases minimize with
      | false => exact ⟨rfl, rfl, hcomposed, rfl⟩
      | true =>
        obtain ⟨i, j, hspan⟩ := hcomposed.spanning
        refine ⟨rfl, rfl, hcomposed.elide, ?_⟩
        simp only [if_true, Rule.elide, hspan.elide_elide]
    · cases hq.symm.trans hx

theorem Finished.composed (h : t.Finished minimize name q) :
    q.graph.Composed fun _ _ => False := by
  obtain ⟨-, -, -, -, hcomposed, -⟩ := h.exists_find ht
  exact hcomposed

theorem Underway.exists_find (h : Underway minimize t u) (hq : u.find name = some q) :
    ∃ r, t.find name = some r ∧ q.references = r.references ∧ q.isPublic = r.isPublic ∧
      q.Compiled (fun _ => False) := by
  rcases h.state name q hq with hraw | ⟨-, hfinished⟩
  · exact ⟨q, hraw, rfl, rfl, (ht name q hraw).1⟩
  · obtain ⟨r, hr, hreferences, hpublic, hcomposed, -⟩ := hfinished.exists_find ht
    refine ⟨r, hr, hreferences, hpublic, hcomposed.imp fun _ _ => False.elim, ?_⟩
    rw [hreferences]
    exact (ht name r hr).1.distinct

theorem Underway.references_eq (h : Underway minimize t u) : u.references = t.references := by
  funext name
  cases hfind : u.find name with
  | none => rw [references, references, hfind, h.find_eq_none hfind]
  | some q =>
    obtain ⟨r, hr, hreferences, -⟩ := h.exists_find ht hfind
    rw [RuleTable.references_eq hfind, RuleTable.references_eq hr, hreferences]

theorem Underway.exists_public_iff (h : Underway minimize t u) :
    (∃ q, u.find name = some q ∧ q.isPublic = true) ↔
      ∃ r, t.find name = some r ∧ r.isPublic = true := by
  constructor
  · rintro ⟨q, hq, htrue⟩
    obtain ⟨r, hr, -, hpublic, -⟩ := h.exists_find ht hq
    exact ⟨r, hr, hpublic ▸ htrue⟩
  · rintro ⟨r, hr, htrue⟩
    have hname : name ∈ u.names := by
      rw [h.names]
      exact mem_names_iff.mpr ⟨r, hr⟩
    obtain ⟨q, hq⟩ := mem_names_iff.mp hname
    obtain ⟨r', hr', -, hpublic, -⟩ := h.exists_find ht hq
    obtain rfl := Option.some.inj (hr.symm.trans hr')
    exact ⟨q, hq, hpublic.trans htrue⟩

theorem Underway.leads_iff (h : Underway minimize t u) : u.Leads name ↔ t.Leads name := by
  simp only [Leads, h.references_eq ht, ← and_assoc, exists_and_right, h.exists_public_iff ht]

theorem Underway.recursive_iff (h : Underway minimize t u) : u.Recursive ↔ t.Recursive := by
  rw [Recursive, Recursive, h.references_eq ht]

theorem Underway.resolve_cases (h : Underway minimize t u) (hq : u.find name = some q)
    (hdone : ∀ x ∈ t.references name, ∀ guest, u.find x = some guest →
      t.Finished minimize x guest) :
    (∃ q', q.resolve u = .ok q' ∧ t.Finished minimize name (if minimize then q'.elide else q') ∧
      t.references name ⊆ t.names) ∨
    ∃ x ∈ t.references name, x ∉ t.names ∧ q.resolve u = .error (.unknownReference x) := by
  obtain ⟨r, hr, hreferences, -, hcompiled⟩ := h.exists_find ht hq
  have hcalled : q.called = t.references name := by
    rw [RuleTable.references_eq hr, ← (ht name r hr).2, Rule.called, Rule.called, hreferences]
  rw [← hcalled] at hdone ⊢
  have hguests : ∀ x ∈ q.called, ∀ guest, u.find x = some guest →
      guest.graph.Composed fun _ _ => False :=
    fun x hx guest hguest => (hdone x hx guest hguest).composed ht
  rcases hcompiled.resolve_cases hguests with ⟨g, hg, -, -⟩ | ⟨x, hx, hnone, herror⟩
  · left
    have hfound : ∀ x ∈ q.called, ∃ guest, u.find x = some guest :=
      fun x hx => Rule.exists_find_of_resolve hg hx
    refine ⟨_, hg, ?_, ?_⟩
    · rcases h.state name q hq with hraw | ⟨-, hfinished⟩
      · have hget : ∀ x ∈ q.called, u.find x = some ((u.find x).getD default) := by
          intro x hx
          obtain ⟨guest, hguest⟩ := hfound x hx
          rw [hguest]
          rfl
        exact .intro _ hraw hget (fun x hx => hdone x hx _ (hget x hx)) hg
      · obtain ⟨-, -, -, -, hcomposed, helide⟩ := hfinished.exists_find ht
        rw [← Except.ok.inj ((Rule.resolve_eq_self hcomposed.settled hfound).symm.trans hg), helide]
        exact hfinished
    · intro x hx
      rw [← h.names]
      exact mem_names_iff.mpr (hfound x hx)
  · right
    refine ⟨x, hx, ?_, herror⟩
    rw [← h.names]
    exact find_eq_none_iff.mp hnone

theorem Underway.resolveAll (h : Underway minimize t u) (hleads : ∀ x ∈ names, t.Leads x)
    (hdone : ∀ x ∈ done, ∀ q, u.find x = some q → t.Finished minimize x q)
    (horder : ∀ x y, y ∈ t.references x → Precedes y x (done ++ names)) :
    ∃ v result, u.resolveAll minimize names = (v, result) ∧ Underway minimize t v ∧
      ((result = .ok () ∧ t.Complete names ∧
        ∀ x ∈ done ++ names, ∀ q, v.find x = some q → t.Finished minimize x q) ∨
      ∃ x ∈ names, ∃ y ∈ t.references x, y ∉ t.names ∧
        result = .error (.unknownReference y)) := by
  -- Whatever the first name refers to is done, whether its rule was finished before or not.
  induction names generalizing done u with
  | nil =>
    refine ⟨u, .ok (), rfl, h, .inl ⟨rfl, fun x hx => absurd hx List.not_mem_nil, ?_⟩⟩
    rwa [List.append_nil]
  | cons name names ih =>
    have hleads' : ∀ x ∈ names, t.Leads x := fun x hx => hleads x (List.mem_cons_of_mem _ hx)
    have hsplit : done ++ name :: names = done ++ [name] ++ names := by simp
    rw [hsplit] at horder
    have hrefers : ∀ y ∈ t.references name, y ∈ done := by
      intro y hy
      exact horder name y hy done names (by simp)
    cases hfind : u.find name with
    | none =>
      have hnone : t.references name ⊆ t.names := by
        rw [references, h.find_eq_none hfind]
        exact List.nil_subset _
      have hdone' : ∀ x ∈ done ++ [name], ∀ q, u.find x = some q → t.Finished minimize x q := by
        intro x hx q hq
        rcases List.mem_append.mp hx with hx | hx
        · exact hdone x hx q hq
        · rw [List.mem_singleton.mp hx, hfind] at hq
          cases hq
      obtain ⟨v, result, hrun, hv, hresult⟩ := ih h hleads' hdone' horder
      refine ⟨v, result, (resolveAll_missing minimize hfind).trans hrun, hv, ?_⟩
      rw [hsplit]
      rcases hresult with ⟨hok, hcomplete, hall⟩ | ⟨x, hx, herror⟩
      · exact .inl ⟨hok, List.forall_mem_cons.mpr ⟨hnone, hcomplete⟩, hall⟩
      · exact .inr ⟨x, List.mem_cons_of_mem _ hx, herror⟩
    | some q =>
      have hguests : ∀ y ∈ t.references name, ∀ guest, u.find y = some guest →
          t.Finished minimize y guest := fun y hy => hdone y (hrefers y hy)
      rcases h.resolve_cases ht hfind hguests with
        ⟨q', hq', hfinished, hfound⟩ | ⟨y, hy, hmissing, herror⟩
      · have hnext := h.replace hfind (hleads name List.mem_cons_self) hfinished
        have hdone' := finished_replace hfind hfinished hdone
        obtain ⟨v, result, hrun, hv, hresult⟩ := ih hnext hleads' hdone' horder
        refine ⟨v, result, (resolveAll_resolved minimize hfind hq').trans hrun, hv, ?_⟩
        rw [hsplit]
        rcases hresult with ⟨hok, hcomplete, hall⟩ | ⟨x, hx, herror⟩
        · exact .inl ⟨hok, List.forall_mem_cons.mpr ⟨hfound, hcomplete⟩, hall⟩
        · exact .inr ⟨x, List.mem_cons_of_mem _ hx, herror⟩
      · refine ⟨u, .error (.unknownReference y), ?_, h,
          .inr ⟨name, List.mem_cons_self, y, hy, hmissing, rfl⟩⟩
        rw [RuleTable.resolveAll, hfind]
        dsimp only
        rw [herror]

end Compiled

def Done (minimize : Bool) (t u : RuleTable) : Prop :=
  Underway minimize t u ∧ ∀ name q, t.Leads name → u.find name = some q → t.Finished minimize name q

theorem Done.unique (h : Done minimize t u) (h' : Done minimize t v) : u = v := by
  refine eq_of_find (h.1.names.trans h'.1.names.symm) fun name => ?_
  by_cases hleads : t.Leads name
  · cases hfind : u.find name with
    | none =>
      rw [find_eq_none_iff, h.1.names, ← h'.1.names, ← find_eq_none_iff] at hfind
      exact hfind.symm
    | some q =>
      have hname : name ∈ v.names := by
        rw [h'.1.names, ← h.1.names]
        exact mem_names_iff.mpr ⟨q, hfind⟩
      obtain ⟨q', hq'⟩ := mem_names_iff.mp hname
      rw [hq', (h.2 name q hleads hfind).unique (h'.2 name q' hleads hq')]
  · rw [h.1.find_eq_of_not_leads hleads, h'.1.find_eq_of_not_leads hleads]

end RuleTable

namespace Grammar

variable {g : Grammar} {t : RuleTable}

theorem resolve_cases (ht : t.Compiled) (h : t.Underway g.settings.minimize g.rules) :
    (∃ name, g.resolve = (g, .error (.selfReference name)) ∧
      Relation.TransGen (Refers t.references) name name) ∨
    ¬ t.Recursive ∧ ∃ rules result, g.resolve = ({ g with rules }, result) ∧
      t.Underway g.settings.minimize rules ∧
      ((result = .ok () ∧ (∀ name, ¬ t.Lacks name) ∧ t.Done g.settings.minimize rules) ∨
        ∃ name, t.Lacks name ∧ result = .error (.unknownReference name)) := by
  rcases g.compositionOrder_cases with ⟨hacyclic, order, horder⟩ | ⟨name, herror, hcycle⟩
  · right
    have hmem : ∀ x, x ∈ order.reverse.eraseDups ↔ t.Leads x := by
      intro x
      rw [List.mem_eraseDups, List.mem_reverse, mem_order_iff horder, h.leads_iff ht]
    have hprecedes : ∀ x y, y ∈ t.references x → Precedes y x ([] ++ order.reverse.eraseDups) := by
      intro x y hy
      rw [← h.references_eq ht] at hy
      exact ((compositionOrder_eq_ok horder).2.precedes hy).eraseDups
    obtain ⟨rules, result, hrun, hrules, hresult⟩ := h.resolveAll ht
      (fun x hx => (hmem x).mp hx) (fun x hx => absurd hx List.not_mem_nil) hprecedes
    refine ⟨(h.recursive_iff ht).not.mp hacyclic, rules, result, ?_, hrules, ?_⟩
    · rw [resolve, horder]
      dsimp only
      rw [hrun]
    · rcases hresult with ⟨hok, hcomplete, hall⟩ | ⟨x, hx, y, hy, hmissing, herror⟩
      · left
        refine ⟨hok, ?_, hrules, ?_⟩
        · rintro name ⟨hname, x, hx, hrefers⟩
          exact hname (hcomplete x ((hmem x).mpr hx) hrefers)
        · intro name q hleads hq
          exact hall name ((hmem name).mpr hleads) q hq
      · exact .inr ⟨y, ⟨hmissing, x, (hmem x).mp hx, hy⟩, herror⟩
  · left
    rw [h.references_eq ht] at hcycle
    refine ⟨name, ?_, hcycle⟩
    rw [resolve, herror]

end Grammar

end SpokenGrammar
