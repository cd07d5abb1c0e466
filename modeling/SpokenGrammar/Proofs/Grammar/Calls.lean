import SpokenGrammar.Proofs.Grammar.Completeness

namespace SpokenGrammar

inductive Call where
  | define (d : Definition)
  | resolve
  deriving DecidableEq, Repr

namespace Grammar

variable {g h raw final : Grammar} {d : Definition} {calls : List Call} {settings : Settings}

def perform (g : Grammar) : Call → Grammar
  | .define d =>
    match g.declare d with
    | .ok h => h
    | .error _ => g
  | .resolve => g.resolve.1

def taken (g : Grammar) : List Call → List Definition
  | [] => []
  | .define d :: calls =>
    match g.declare d with
    | .ok h => d :: h.taken calls
    | .error _ => g.taken calls
  | .resolve :: calls => g.resolve.1.taken calls

theorem insert_eq_ok {name : String} {r : Rule} :
    g.insert name r = .ok h ↔ isBlankName name = false ∧ name ∉ g.rules.names ∧
      h = { g with rules := g.rules.add name r } := by
  rw [insert]
  constructor
  · intro hg
    split at hg
    · cases hg
    · rename_i hblank
      split at hg
      · cases hg
      · rename_i hname
        exact ⟨by simpa using hblank, hname, (Except.ok.inj hg).symm⟩
  · rintro ⟨hblank, hname, rfl⟩
    rw [if_neg (by simp [hblank]), if_neg hname]

theorem declare_eq_ok :
    g.declare d = .ok h ↔ ∃ r, Rule.compile g.settings.punctuation d.expression d.isPublic = .ok r ∧
      isBlankName d.name = false ∧ d.name ∉ g.rules.names ∧
      h = { g with rules := g.rules.add d.name r } := by
  rw [declare, define]
  exact Attempt.bind_eq_ok.trans (exists_congr fun r => and_congr_right fun _ => insert_eq_ok)

structure Tracks (raw g : Grammar) : Prop where
  same : g = { raw with rules := g.rules }
  usual : raw.settings.punctuation = {}
  compiled : raw.rules.Compiled
  underway : raw.rules.Underway raw.settings.minimize g.rules

theorem tracks_start (hpunctuation : settings.punctuation = {}) :
    Tracks { settings } { settings } :=
  ⟨rfl, hpunctuation, (fun _ _ h => by cases h), .start _ _⟩

namespace Tracks

theorem settings_eq (ht : Tracks raw g) : g.settings = raw.settings := by
  rw [ht.same]

theorem declare (ht : Tracks raw g) (hd : d.Terminated) (hg : g.declare d = .ok h) :
    ∃ raw', raw.declare d = .ok raw' ∧ Tracks raw' h := by
  obtain ⟨r, hr, hblank, hname, rfl⟩ := declare_eq_ok.mp hg
  have hname' : d.name ∉ raw.rules.names := by rwa [← ht.underway.names]
  rw [ht.settings_eq] at hr
  refine ⟨_, declare_eq_ok.mpr ⟨r, hr, hblank, hname', rfl⟩, ?_, ht.usual, ?_,
    ht.underway.add hname' r⟩
  · rw [ht.same]
  · intro x q hq
    rw [RuleTable.find_add hname'] at hq
    split at hq
    · obtain rfl := Option.some.inj hq
      rw [ht.usual] at hr
      obtain ⟨tokens, htokens, body, rfl⟩ := hd
      exact Rule.compiled_of_terminated hr htokens
    · exact ht.compiled x q hq

theorem resolve_cases (ht : Tracks raw g) :
    (∃ name, g.resolve = (g, .error (.selfReference name)) ∧ raw.rules.Recursive) ∨
    ¬ raw.rules.Recursive ∧ ∃ g' result, g.resolve = (g', result) ∧ Tracks raw g' ∧
      ((result = .ok () ∧ (∀ name, ¬ raw.rules.Lacks name) ∧
        raw.rules.Done raw.settings.minimize g'.rules) ∨
        ∃ name, raw.rules.Lacks name ∧ result = .error (.unknownReference name)) := by
  have hunderway := ht.underway
  rw [← ht.settings_eq] at hunderway
  rcases Grammar.resolve_cases ht.compiled hunderway with
    ⟨name, hresolve, hcycle⟩ | ⟨hacyclic, rules, result, hresolve, hrules, hresult⟩
  · exact .inl ⟨name, hresolve, name, hcycle⟩
  · right
    rw [ht.settings_eq] at hrules hresult
    refine ⟨hacyclic, _, result, hresolve, ⟨?_, ht.usual, ht.compiled, hrules⟩, hresult⟩
    rw [ht.same]

theorem resolve (ht : Tracks raw g) : Tracks raw g.resolve.1 := by
  rcases ht.resolve_cases with ⟨name, hresolve, -⟩ | ⟨-, g', result, hresolve, ht', -⟩
  · rw [hresolve]
    exact ht
  · rw [hresolve]
    exact ht'

theorem exists_done (ht : Tracks raw g) (hg : g.resolve = (final, .ok ())) :
    ¬ raw.rules.Recursive ∧ (∀ name, ¬ raw.rules.Lacks name) ∧ Tracks raw final ∧
      raw.rules.Done raw.settings.minimize final.rules := by
  rcases ht.resolve_cases with ⟨name, hresolve, -⟩ | ⟨hacyclic, g', result, hresolve, ht', hresult⟩
  · cases hresolve.symm.trans hg
  · obtain ⟨rfl, rfl⟩ := Prod.mk.inj (hresolve.symm.trans hg)
    rcases hresult with ⟨-, hcomplete, hdone⟩ | ⟨name, -, herror⟩
    · exact ⟨hacyclic, hcomplete, ht', hdone⟩
    · cases herror

theorem resolve_eq {g₁ g₂ : Grammar} (ht₁ : Tracks raw g₁) (ht₂ : Tracks raw g₂)
    (hg₁ : g₁.resolve = (final, .ok ())) : g₂.resolve = (final, .ok ()) := by
  obtain ⟨hacyclic, hcomplete, htfinal, hdone⟩ := ht₁.exists_done hg₁
  rcases ht₂.resolve_cases with ⟨name, -, hrecursive⟩ | ⟨-, g', result, hresolve, ht', hresult⟩
  · exact absurd hrecursive hacyclic
  · rcases hresult with ⟨rfl, -, hdone'⟩ | ⟨name, hlacks, -⟩
    · rw [hresolve, ht'.same, hdone'.unique hdone, ← htfinal.same]
    · exact absurd hlacks (hcomplete name)

theorem run (ht : Tracks raw g) (htaken : ∀ d ∈ g.taken calls, d.Terminated) :
    ∃ raw', (g.taken calls).foldlM Grammar.declare raw = .ok raw' ∧
      Tracks raw' (calls.foldl perform g) := by
  induction calls generalizing raw g with
  | nil => exact ⟨raw, rfl, ht⟩
  | cons call calls ih =>
    cases call with
    -- Resolving leaves the definitions as they are, whatever comes of it.
    | resolve => exact ih ht.resolve htaken
    | define d =>
      rw [List.foldl_cons, perform, taken]
      rw [taken] at htaken
      cases hg : g.declare d with
      | error f =>
        rw [hg] at htaken
        exact ih ht htaken
      | ok h =>
        rw [hg] at htaken
        obtain ⟨raw₁, hraw₁, ht₁⟩ := ht.declare (htaken d List.mem_cons_self) hg
        obtain ⟨raw', hraw', ht'⟩ := ih ht₁ fun d hd => htaken d (List.mem_cons_of_mem _ hd)
        refine ⟨raw', ?_, ht'⟩
        rw [List.foldlM_cons, hraw₁]
        exact hraw'

end Tracks

theorem extra_resolutions_harmless (hpunctuation : settings.punctuation = {})
    (htaken : ∀ d ∈ taken { settings } calls, d.Terminated)
    (h : (calls.foldl perform { settings }).resolve = (final, .ok ())) :
    (∃ raw, (taken { settings } calls).foldlM declare { settings } = .ok raw ∧
      raw.resolve = (final, .ok ())) ∧ final.resolve = (final, .ok ()) := by
  obtain ⟨raw, hraw, htracks⟩ := (tracks_start hpunctuation).run htaken
  obtain ⟨-, -, hfinal, -⟩ := htracks.exists_done h
  have hstart : Tracks raw raw := ⟨rfl, htracks.usual, htracks.compiled, .start _ _⟩
  exact ⟨⟨raw, hraw, htracks.resolve_eq hstart h⟩, htracks.resolve_eq hfinal h⟩

theorem extra_resolutions_harmless_of_greeting :
    let settings : Settings := {}
    let calls : List Call := [.define ⟨true, "<greet>", "hi <who> | <bye>;"⟩,
      .define ⟨false, "<bye>", "bye;"⟩, .resolve, .define ⟨false, "<who>", "you [<all>];"⟩,
      .define ⟨true, "<who>", "me;"⟩, .resolve, .define ⟨false, "<all>", "all;"⟩]
    settings.punctuation = {} ∧ (∀ d ∈ taken { settings } calls, d.Terminated) ∧
      ∃ final, (calls.foldl perform { settings }).resolve = (final, .ok ()) ∧
        (∃ raw, (taken { settings } calls).foldlM declare { settings } = .ok raw ∧
          raw.resolve = (final, .ok ())) ∧ final.resolve = (final, .ok ()) := by
  intro settings calls
  have htaken : ∀ d ∈ taken { settings } calls, d.Terminated :=
    Definition.terminated_of_check (by decide +kernel)
  have hcheck : (((taken { settings } calls).foldlM declare { settings }).toOption.any fun raw =>
      raw.compositionOrder.toOption.any fun order => order.all fun x =>
        (raw.rules.references x).all (· ∈ raw.rules.names)) = true := by decide +kernel
  obtain ⟨raw, hraw, hcheck⟩ := Attempt.exists_of_any hcheck
  obtain ⟨order, horder, hcheck⟩ := Attempt.exists_of_any hcheck
  have hcomplete : ∀ x ∈ order, raw.rules.references x ⊆ raw.rules.names := by
    intro x hx y hy
    simpa using List.all_eq_true.mp (List.all_eq_true.mp hcheck x hx) y hy
  have hstart : Tracks { settings } { settings } := tracks_start rfl
  obtain ⟨raw', hraw', htracks⟩ := hstart.run htaken
  obtain rfl := Except.ok.inj (hraw.symm.trans hraw')
  rcases htracks.resolve_cases with ⟨name, -, hrecursive⟩ | ⟨-, final, result, hfinal, -, hresult⟩
  · exact absurd hrecursive (not_recursive_of_order horder)
  · rcases hresult with ⟨rfl, -, -⟩ | ⟨name, hlacks, -⟩
    · exact ⟨rfl, htaken, final, hfinal, extra_resolutions_harmless rfl htaken hfinal⟩
    · exact absurd hlacks (not_lacks_of_order horder hcomplete name)

end Grammar

end SpokenGrammar
