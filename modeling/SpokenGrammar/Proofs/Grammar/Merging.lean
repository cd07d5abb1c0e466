import SpokenGrammar.Proofs.Grammar.Calls
import SpokenGrammar.Proofs.Graph.Reduction

namespace SpokenGrammar

variable {r q : Rule} {t u : RuleTable} {name : String} {minimize : Bool} {names : List String}

namespace RuleTable

theorem find_add_or (t : RuleTable) (x : String) (r : Rule) (name : String) :
    (t.add x r).find name = (t.find name).or (if name = x then some r else none) := by
  by_cases hx : x ∈ t.names
  · rw [add_of_mem hx]
    split
    · rename_i hname
      obtain ⟨q, hq⟩ := mem_names_iff.mp (hname ▸ hx)
      rw [hq, Option.some_or]
    · rw [Option.or_none]
  · rw [find_add hx]
    split
    · rename_i hname
      rw [hname, find_eq_none_iff.mpr hx, Option.none_or]
    · rw [Option.or_none]

theorem find_foldl_add (f : Rule → Rule) (entries : List (String × Rule)) (t : RuleTable)
    (name : String) :
    (entries.foldl (fun t (x, r) => t.add x (f r)) t).find name =
      (t.find name).or ((entries.find? (·.1 = name)).map fun e => f e.2) := by
  induction entries generalizing t with
  | nil => rw [List.foldl_nil, List.find?_nil, Option.map_none, Option.or_none]
  | cons e entries ih =>
    rw [List.foldl_cons, ih, find_add_or, Option.or_assoc, List.find?_cons]
    by_cases he : name = e.1
    · rw [if_pos he, Option.some_or, decide_eq_true he.symm]
      rfl
    · rw [if_neg he, Option.none_or, decide_eq_false (Ne.symm he)]

theorem names_foldl_add (f : Rule → Rule) {entries : List (String × Rule)}
    (h : (entries.map (·.1)).Nodup) (t : RuleTable) :
    (entries.foldl (fun t (x, r) => t.add x (f r)) t).names =
      t.names ++ (entries.map (·.1)).filter (· ∉ t.names) := by
  induction entries generalizing t with
  | nil => simp
  | cons e entries ih =>
    obtain ⟨name, r⟩ := e
    rw [List.map_cons, List.nodup_cons] at h
    rw [List.foldl_cons, List.map_cons]
    refine (ih h.2 _).trans ?_
    dsimp only
    by_cases hname : name ∈ t.names
    · simp [add_of_mem hname, hname]
    · have hrest : (entries.map (·.1)).filter (· ∉ t.names ++ [name]) =
          (entries.map (·.1)).filter (· ∉ t.names) := by
        refine List.filter_congr fun x hx => ?_
        have hne : x ≠ name := fun heq => h.1 (heq ▸ hx)
        simp [hne]
      simp only [names_add _ hname, hrest]
      simp [hname]

end RuleTable

theorem Grammar.find_merge (g other : Grammar) (name : String) :
    (g.merge other).rules.find name =
      (g.rules.find name).or ((other.rules.find name).map Rule.toPrivate) := by
  refine (RuleTable.find_foldl_add ..).trans (congrArg _ ?_)
  rw [RuleTable.find, Option.map_map]
  rfl

theorem Grammar.names_merge (g other : Grammar) :
    (g.merge other).rules.names =
      g.rules.names ++ other.rules.names.filter (· ∉ g.rules.names) :=
  RuleTable.names_foldl_add Rule.toPrivate other.rules.distinct g.rules

namespace Rule

def Lends (r q : Rule) : Prop :=
  q.isPublic = false ∧ (q.graph = r.graph ∨ q.graph = r.graph.elide)

theorem lends_toPrivate (r : Rule) : r.Lends r.toPrivate :=
  ⟨rfl, .inl rfl⟩

namespace Lends

theorem elide (h : r.Lends q) (hspan : r.graph.Spanning) : r.Lends q.elide := by
  obtain ⟨i, j, hspan⟩ := hspan
  obtain ⟨hpublic, hgraph | hgraph⟩ := h
  · exact ⟨hpublic, .inr (congrArg Graph.elide hgraph)⟩
  · refine ⟨hpublic, .inr ?_⟩
    rw [Rule.elide, hgraph, hspan.elide_elide]

theorem settled (h : r.Lends q) (hsettled : r.graph.Settled) : q.graph.Settled := by
  obtain ⟨-, hgraph | hgraph⟩ := h
  · rwa [hgraph]
  · rw [hgraph]
    intro i name hi
    rw [Graph.tokens_elide]
    exact hsettled i name (Graph.touched_of_elide hi)

theorem spanning (h : r.Lends q) (hspan : r.graph.Spanning) : q.graph.Spanning := by
  obtain ⟨-, hgraph | hgraph⟩ := h
  · rwa [hgraph]
  · rw [hgraph]
    exact Graph.spanning_elide hspan

theorem spells_iff (h : r.Lends q) (hspan : r.graph.Spanning) (s : String) :
    (∃ p ∈ q.graph.paths, q.record p = s) ↔ ∃ p ∈ r.graph.paths, r.record p = s := by
  obtain ⟨i, j, hspan⟩ := hspan
  simp only [record_eq]
  obtain ⟨-, hgraph | hgraph⟩ := h
  · rw [hgraph]
  · rw [hgraph]
    exact hspan.spells_elide_iff (String.ofList · = s)

end Lends

end Rule

def RuleTable.Borrows (t : RuleTable) (name : String) (r : Rule) : Prop :=
  ∃ q, t.find name = some q ∧ r.Lends q

theorem RuleTable.Borrows.add (h : t.Borrows name r) (x : String) (q : Rule) :
    (t.add x q).Borrows name r := by
  obtain ⟨p, hp, hlends⟩ := h
  exact ⟨p, by rw [find_add_or, hp, Option.some_or], hlends⟩

theorem RuleTable.Borrows.resolveAll (h : t.Borrows name r) (hspan : r.graph.Spanning)
    (hsettled : r.graph.Settled) : (t.resolveAll minimize names).1.Borrows name r := by
  -- Resolving the rule may fail, but it cannot change anything except by leaving nodes out.
  fun_induction RuleTable.resolveAll minimize names t with
  | case1 => exact h
  | case2 x rest t hx ih => exact ih h
  | case3 => exact h
  | case4 x rest t p hp p' hp' ih =>
    refine ih ?_
    obtain ⟨q, hq, hlends⟩ := h
    by_cases hname : name = x
    · subst hname
      obtain rfl := Option.some.inj (hq.symm.trans hp)
      have hsame := Rule.resolve_eq_self (hlends.settled hsettled)
        fun x hx => Rule.exists_find_of_resolve hp' hx
      obtain rfl := Except.ok.inj (hsame.symm.trans hp')
      refine ⟨_, find_replace_self hq, ?_⟩
      cases minimize with
      | true => exact hlends.elide hspan
      | false => exact hlends
    · exact ⟨q, (find_replace_of_ne hname _).trans hq, hlends⟩

inductive Change where
  | call (c : Call)
  | insert (name : String) (r : Rule)
  | merge (other : Grammar)

namespace Grammar

variable {g other : Grammar} {calls : List Call} {settings : Settings}

def change (g : Grammar) : Change → Grammar
  | .call c => g.perform c
  | .insert name r =>
    match g.insert name r with
    | .ok h => h
    | .error _ => g
  | .merge other => g.merge other

theorem borrows_change (h : g.rules.Borrows name r) (hspan : r.graph.Spanning)
    (hsettled : r.graph.Settled) (c : Change) : (g.change c).rules.Borrows name r := by
  cases c with
  | call c =>
    cases c with
    | define d =>
      rw [change, perform]
      split
      · rename_i h' hd
        obtain ⟨q, -, -, -, rfl⟩ := declare_eq_ok.mp hd
        exact h.add d.name q
      · exact h
    | resolve =>
      rw [change, perform, resolve]
      split
      · exact h
      · exact h.resolveAll hspan hsettled
  | insert x q =>
    rw [change]
    split
    · rename_i h' hx
      obtain ⟨-, -, rfl⟩ := insert_eq_ok.mp hx
      exact h.add x q
    · exact h
  | merge other =>
    obtain ⟨q, hq, hlends⟩ := h
    exact ⟨q, by rw [change, find_merge, hq, Option.some_or], hlends⟩

theorem borrows_changes (h : g.rules.Borrows name r) (hspan : r.graph.Spanning)
    (hsettled : r.graph.Settled) (changes : List Change) :
    (changes.foldl change g).rules.Borrows name r := by
  induction changes generalizing g with
  | nil => exact h
  | cons c changes ih => exact ih (borrows_change h hspan hsettled c)

theorem Tracks.exists_resolve {raw : Grammar} (ht : Tracks raw g)
    (hacyclic : ¬ raw.rules.Recursive) (hcomplete : ∀ x, ¬ raw.rules.Lacks x) :
    ∃ final, g.resolve = (final, .ok ()) ∧ Tracks raw final := by
  rcases ht.resolve_cases with ⟨x, -, hrecursive⟩ | ⟨-, final, result, hfinal, ht', hresult⟩
  · exact absurd hrecursive hacyclic
  · rcases hresult with ⟨rfl, -, -⟩ | ⟨x, hlacks, -⟩
    · exact ⟨final, hfinal, ht'⟩
    · exact absurd hlacks (hcomplete x)

theorem composed_of_resolve (hpunctuation : settings.punctuation = {})
    (htaken : ∀ d ∈ taken { settings } calls, d.Terminated)
    (hresolve : (calls.foldl perform { settings }).resolve = (other, .ok ()))
    (hleads : other.rules.Leads name) (hr : other.rules.find name = some r) :
    r.graph.Composed fun _ _ => False := by
  obtain ⟨raw, -, htracks⟩ := (tracks_start hpunctuation).run htaken
  obtain ⟨-, -, -, hdone⟩ := htracks.exists_done hresolve
  have hleads' := (hdone.1.leads_iff htracks.compiled).mp hleads
  exact (hdone.2 name r hleads' hr).composed htracks.compiled

theorem merged_rules_keep_sentences (hpunctuation : settings.punctuation = {})
    (htaken : ∀ d ∈ taken { settings } calls, d.Terminated)
    (hresolve : (calls.foldl perform { settings }).resolve = (other, .ok ()))
    (hleads : other.rules.Leads name) (hr : other.rules.find name = some r)
    (hfree : name ∉ g.rules.names) (changes : List Change) :
    ∃ q, (changes.foldl change (g.merge other)).rules.find name = some q ∧ q.isPublic = false ∧
      ∃ ss ss', r.enumerate none = .ok ss ∧ q.enumerate none = .ok ss' ∧
        ∀ s : String, s ∈ ss' ↔ s ∈ ss := by
  have hcomposed := composed_of_resolve hpunctuation htaken hresolve hleads hr
  have hmerged : (g.merge other).rules.Borrows name r := by
    refine ⟨r.toPrivate, ?_, r.lends_toPrivate⟩
    rw [find_merge, RuleTable.find_eq_none_iff.mpr hfree, hr]
    rfl
  obtain ⟨q, hq, hlends⟩ :=
    borrows_changes hmerged hcomposed.spanning hcomposed.settled changes
  obtain ⟨ss, hss, hmem⟩ := Rule.exists_enumerate hcomposed.spanning
  obtain ⟨ss', hss', hmem'⟩ := Rule.exists_enumerate (hlends.spanning hcomposed.spanning)
  refine ⟨q, hq, hlends.1, ss, ss', hss, hss', fun s => ?_⟩
  rw [hmem', hmem, hlends.spells_iff hcomposed.spanning]

theorem merged_rules_keep_sentences_of_greeting :
    let settings : Settings := { minimize := false }
    let calls : List Call := [.define ⟨true, "<greet>", "hi <who> | bye;"⟩,
      .resolve, .define ⟨false, "<who>", "you [<all>];"⟩, .define ⟨false, "<all>", "all;"⟩]
    let g := [Call.define ⟨true, "<who>", "me;"⟩].foldl perform {}
    let changes : List Change := [.call (.define ⟨true, "<main>", "<greet> or <all>;"⟩),
      .call .resolve, .merge { g with settings }, .insert "<nobody>" default, .call .resolve]
    settings.punctuation = {} ∧ (∀ d ∈ taken { settings } calls, d.Terminated) ∧
      "<greet>" ∉ g.rules.names ∧ "<who>" ∈ g.rules.names ∧
      ∃ other r, (calls.foldl perform { settings }).resolve = (other, .ok ()) ∧
        other.rules.Leads "<greet>" ∧ other.rules.find "<greet>" = some r ∧
        ∃ q, (changes.foldl change (g.merge other)).rules.find "<greet>" = some q ∧
          q.isPublic = false ∧ ∃ ss ss', r.enumerate none = .ok ss ∧ q.enumerate none = .ok ss' ∧
            ∀ s : String, s ∈ ss' ↔ s ∈ ss := by
  intro settings calls g changes
  have htaken : ∀ d ∈ taken { settings } calls, d.Terminated :=
    Definition.terminated_of_check (by decide +kernel)
  have hcheck : (((taken { settings } calls).foldlM declare { settings }).toOption.any fun raw =>
      decide ("<greet>" ∈ raw.publicRules.map (·.1)) &&
      raw.compositionOrder.toOption.any fun order => order.all fun x =>
        (raw.rules.references x).all (· ∈ raw.rules.names)) = true := by decide +kernel
  obtain ⟨raw, hraw, hcheck⟩ := Attempt.exists_of_any hcheck
  obtain ⟨hpublic, hcheck⟩ := Bool.and_eq_true_iff.mp hcheck
  obtain ⟨order, horder, hcheck⟩ := Attempt.exists_of_any hcheck
  have hcomplete : ∀ x ∈ order, raw.rules.references x ⊆ raw.rules.names := by
    intro x hx y hy
    simpa using List.all_eq_true.mp (List.all_eq_true.mp hcheck x hx) y hy
  have hstart : Tracks { settings } { settings } := tracks_start rfl
  obtain ⟨raw', hraw', htracks⟩ := hstart.run htaken
  obtain rfl := Except.ok.inj (hraw.symm.trans hraw')
  obtain ⟨other, hother, htracks'⟩ := htracks.exists_resolve
    (not_recursive_of_order horder) (not_lacks_of_order horder hcomplete)
  obtain ⟨⟨_, p⟩, hp, rfl⟩ := List.mem_map.mp (of_decide_eq_true hpublic)
  obtain ⟨r, hr, hpublic⟩ := (htracks'.underway.exists_public_iff htracks.compiled).mpr
    ⟨p, mem_publicRules.mp hp⟩
  have hleads : other.rules.Leads "<greet>" := ⟨_, r, hr, hpublic, .refl⟩
  have hfree : "<greet>" ∉ g.rules.names := by decide +kernel
  exact ⟨rfl, htaken, hfree, by decide +kernel, other, r, hother, hleads, hr,
    merged_rules_keep_sentences rfl htaken hother hleads hr hfree changes⟩

end Grammar

end SpokenGrammar
