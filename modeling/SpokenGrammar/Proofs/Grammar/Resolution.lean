import SpokenGrammar.Grammar.Resolution
import SpokenGrammar.Proofs.Grammar.Order
import SpokenGrammar.Proofs.Rule.Resolve

namespace SpokenGrammar

variable {ρ : String → Language Char} {t u table : RuleTable} {done names : List String}
  {name : String} {r : Rule}

def RuleTable.Means (ρ : String → Language Char) (t : RuleTable) : Prop :=
  ∀ name r, t.find name = some r → ∃ p : Phrase, r.Means p ∧ p.language ρ = ρ name

def RuleTable.Complete (t : RuleTable) (names : List String) : Prop :=
  ∀ name ∈ names, t.references name ⊆ t.names

structure Abreast (ρ : String → Language Char) (table : RuleTable) (done : List String)
    (t u : RuleTable) : Prop where
  names : t.names = table.names ∧ u.names = table.names
  waiting : ∀ name r, name ∉ done → table.find name = some r →
    t.find name = some r ∧ u.find name = some r
  paired : ∀ name r, name ∈ done → table.find name = some r → ∃ q q',
    t.find name = some q ∧ u.find name = some q' ∧ Rule.Paired ρ name q q' ∧
      q.isPublic = r.isPublic ∧ q'.isPublic = r.isPublic

namespace Abreast

theorem start (ρ : String → Language Char) (table : RuleTable) :
    Abreast ρ table [] table table := by
  refine ⟨⟨rfl, rfl⟩, fun _ _ _ h => ⟨h, h⟩, fun _ _ h => ?_⟩
  cases h

theorem find_eq_none (h : Abreast ρ table done t u) (hname : table.find name = none) :
    t.find name = none ∧ u.find name = none := by
  rw [RuleTable.find_eq_none_iff] at hname ⊢
  rw [RuleTable.find_eq_none_iff, h.names.1, h.names.2]
  exact ⟨hname, hname⟩

theorem skip (h : Abreast ρ table done t u) (hname : table.find name = none) :
    Abreast ρ table (done ++ [name]) t u := by
  refine ⟨h.names, ?_, ?_⟩
  · intro x r hx hr
    exact h.waiting x r (fun hdone => hx (List.mem_append_left _ hdone)) hr
  · intro x r hx hr
    rcases List.mem_append.mp hx with hx | hx
    · exact h.paired x r hx hr
    · rcases List.mem_singleton.mp hx with rfl
      rw [hname] at hr
      cases hr

theorem replace {q q' : Rule} (h : Abreast ρ table done t u) (hr : table.find name = some r)
    (hdone : name ∉ done) (hpair : Rule.Paired ρ name q q') (hq : q.isPublic = r.isPublic)
    (hq' : q'.isPublic = r.isPublic) :
    Abreast ρ table (done ++ [name]) (t.replace name q) (u.replace name q') := by
  obtain ⟨ht, hu⟩ := h.waiting name r hdone hr
  refine ⟨?_, ?_, ?_⟩
  · rw [RuleTable.names_replace, RuleTable.names_replace]
    exact h.names
  · intro x r' hx hr'
    have hne : x ≠ name := fun heq => hx (List.mem_append_right _ (List.mem_singleton.mpr heq))
    rw [RuleTable.find_replace_of_ne hne, RuleTable.find_replace_of_ne hne]
    exact h.waiting x r' (fun hdone => hx (List.mem_append_left _ hdone)) hr'
  · intro x r' hx hr'
    by_cases hxn : x = name
    · subst hxn
      rw [hr] at hr'
      rcases Option.some.inj hr' with rfl
      exact ⟨q, q', RuleTable.find_replace_self ht, RuleTable.find_replace_self hu, hpair, hq, hq'⟩
    · have hx' : x ∈ done := (List.mem_append.mp hx).resolve_right fun hx =>
        hxn (List.mem_singleton.mp hx)
      rw [RuleTable.find_replace_of_ne hxn, RuleTable.find_replace_of_ne hxn]
      exact h.paired x r' hx' hr'

theorem exists_find (h : Abreast ρ table done t u) (hr : table.find name = some r) :
    ∃ q q', t.find name = some q ∧ u.find name = some q' ∧ q.isPublic = r.isPublic ∧
      q'.isPublic = r.isPublic ∧ (name ∈ done → Rule.Paired ρ name q q') := by
  by_cases hdone : name ∈ done
  · obtain ⟨q, q', hq, hq', hpair, hpublic, hpublic'⟩ := h.paired name r hdone hr
    exact ⟨q, q', hq, hq', hpublic, hpublic', fun _ => hpair⟩
  · obtain ⟨ht, hu⟩ := h.waiting name r hdone hr
    exact ⟨r, r, ht, hu, rfl, rfl, fun hdone' => absurd hdone' hdone⟩

theorem exists_of_find {q' : Rule} (h : Abreast ρ table done t u) (hq' : u.find name = some q') :
    ∃ r q, table.find name = some r ∧ t.find name = some q ∧ q.isPublic = r.isPublic ∧
      q'.isPublic = r.isPublic ∧ (name ∈ done → Rule.Paired ρ name q q') := by
  have hname : name ∈ table.names := by
    rw [← h.names.2]
    exact RuleTable.mem_names_iff.mpr ⟨q', hq'⟩
  obtain ⟨r, hr⟩ := RuleTable.mem_names_iff.mp hname
  obtain ⟨q, q₂, hq, hq₂, hsame, hsame', hpair⟩ := h.exists_find hr
  rcases Option.some.inj (hq'.symm.trans hq₂) with rfl
  exact ⟨r, q, hr, hq, hsame, hsame', hpair⟩

theorem exists_resolve (h : Abreast ρ table done t u) (hmeans : table.Means ρ)
    (hr : table.find name = some r) (hdone : r.references ⊆ done)
    (hfound : r.references ⊆ table.names) :
    ∃ g g', r.resolve t = .ok { r with graph := g } ∧ r.resolve u = .ok { r with graph := g' } ∧
      Rule.Paired ρ name { r with graph := g } { r with graph := g' } := by
  obtain ⟨p, hp, hlanguage⟩ := hmeans name r hr
  refine hp.exists_resolve ?_ hlanguage
  intro x hx
  obtain ⟨guest, hguest⟩ := RuleTable.mem_names_iff.mp (hfound hx)
  obtain ⟨q, q', hq, hq', hpair, -, -⟩ := h.paired x guest (hdone hx) hguest
  exact ⟨q, q', hq, hq', hpair⟩

end Abreast

namespace RuleTable

theorem resolveAll_missing (minimize : Bool) (h : t.find name = none) :
    resolveAll minimize (name :: names) t = resolveAll minimize names t := by
  rw [resolveAll, h]

theorem resolveAll_resolved (minimize : Bool) {q : Rule} (h : t.find name = some r)
    (hq : r.resolve t = .ok q) :
    resolveAll minimize (name :: names) t =
      resolveAll minimize names (t.replace name (if minimize then q.elide else q)) := by
  rw [resolveAll, h]
  dsimp only
  rw [hq]

theorem resolveAll_stopped (minimize : Bool) {f : Fault} (h : t.find name = some r)
    (hf : r.resolve t = .error f) : (resolveAll minimize (name :: names) t).2 = .error f := by
  rw [resolveAll, h]
  dsimp only
  rw [hf]

theorem resolveAll_incomplete (minimize : Bool) (names : List String) {p : Phrase} (hp : r.Means p)
    (hnames : t.names = table.names) (h : t.find name = some r)
    (hmissing : ¬ r.references ⊆ table.names) :
    (resolveAll minimize (name :: names) t).2 ≠ .ok () := by
  cases hq : r.resolve t with
  | ok q =>
    refine absurd (fun x hx => ?_) hmissing
    rw [← hnames]
    exact mem_names_iff.mpr (Rule.exists_find_of_resolve hq (hp.called_eq ▸ hx))
  | error f =>
    rw [resolveAll_stopped minimize h hq]
    intro heq
    cases heq

theorem resolveAll_abreast (minimize : Bool) (hmeans : table.Means ρ)
    (h : Abreast ρ table done t u) (hnodup : (done ++ names).Nodup)
    (horder : ∀ x y, y ∈ table.references x → Precedes y x (done ++ names)) :
    ((resolveAll false names t).2 = .ok () ↔ table.Complete names) ∧
      ((resolveAll minimize names u).2 = .ok () ↔ table.Complete names) ∧
      (table.Complete names →
        Abreast ρ table (done ++ names) (resolveAll false names t).1
          (resolveAll minimize names u).1) := by
  -- All that the first name refers to are done, so its rule resolves on both sides or on neither.
  induction names generalizing done t u with
  | nil =>
    have hcomplete : table.Complete [] := fun name hname => absurd hname List.not_mem_nil
    rw [List.append_nil]
    exact ⟨iff_of_true rfl hcomplete, iff_of_true rfl hcomplete, fun _ => h⟩
  | cons name names ih =>
    have hcons : table.Complete (name :: names) ↔
        table.references name ⊆ table.names ∧ table.Complete names := List.forall_mem_cons
    have hdone : name ∉ done := fun hmem =>
      (List.nodup_append.mp hnodup).2.2 name hmem name List.mem_cons_self rfl
    have hsplit : done ++ name :: names = done ++ [name] ++ names := by simp
    cases hfind : table.find name with
    | none =>
      obtain ⟨ht, hu⟩ := h.find_eq_none hfind
      have hnone : table.references name ⊆ table.names := by
        rw [references, hfind]
        exact List.nil_subset _
      rw [resolveAll_missing false ht, resolveAll_missing minimize hu, hsplit, hcons,
        and_iff_right hnone]
      exact ih (h.skip hfind) (hsplit ▸ hnodup) (hsplit ▸ horder)
    | some r =>
      obtain ⟨ht, hu⟩ := h.waiting name r hdone hfind
      rw [hcons, references_eq hfind]
      have hrefers : r.references ⊆ done := by
        intro y hy
        rw [← references_eq hfind] at hy
        exact horder name y hy done names rfl
      by_cases hfound : r.references ⊆ table.names
      · obtain ⟨g, g', hg, hg', hpair⟩ := h.exists_resolve hmeans hfind hrefers hfound
        rw [resolveAll_resolved false ht hg, resolveAll_resolved minimize hu hg', hsplit,
          and_iff_right hfound]
        exact ih (h.replace hfind hdone (hpair.elideIf minimize) rfl (Rule.isPublic_elideIf ..))
          (hsplit ▸ hnodup) (hsplit ▸ horder)
      · obtain ⟨p, hp, -⟩ := hmeans name r hfind
        have hincomplete : ¬ (r.references ⊆ table.names ∧ table.Complete names) :=
          fun hcomplete => hfound hcomplete.1
        have hplain := resolveAll_incomplete false names hp h.names.1 ht hfound
        have hthin := resolveAll_incomplete minimize names hp h.names.2 hu hfound
        exact ⟨iff_of_false hplain hincomplete, iff_of_false hthin hincomplete,
          fun hcomplete => absurd hcomplete hincomplete⟩

end RuleTable

end SpokenGrammar
