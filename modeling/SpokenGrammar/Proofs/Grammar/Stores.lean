import SpokenGrammar.Proofs.Grammar.Merging

/-!
# Order and rules in two stores

A grammar can be kept in two stores, its names in the order of their declaration and its rules by
name. A rule that is in one store only would be passed over in silence, so each call has to leave
the two as those of a grammar, also one that fails in the middle.
-/

namespace SpokenGrammar

variable {r : Rule} {t : RuleTable} {name x : String}

namespace RuleTable

theorem find_resolveAll (minimize : Bool) (names : List String) (h : t.find x = some r) :
    ∃ graph, (t.resolveAll minimize names).1.find x = some { r with graph } ∧
      (x ∉ names → graph = r.graph) := by
  fun_induction resolveAll minimize names t generalizing r with
  | case1 => exact ⟨r.graph, h, fun _ => rfl⟩
  | case2 name names t hmissing ih =>
    obtain ⟨graph, hgraph, hsame⟩ := ih h
    exact ⟨graph, hgraph, fun hx => hsame (List.not_mem_of_not_mem_cons hx)⟩
  | case3 => exact ⟨r.graph, h, fun _ => rfl⟩
  | case4 name names t q hq q' hresolve ih =>
    obtain ⟨k, rfl⟩ := Rule.exists_graph_of_resolve hresolve
    by_cases hx : x = name
    · subst hx
      obtain rfl := Option.some.inj (h.symm.trans hq)
      obtain ⟨graph, hgraph, -⟩ := ih (find_replace_self h)
      refine ⟨graph, ?_, fun hx => absurd List.mem_cons_self hx⟩
      rw [hgraph]
      cases minimize <;> rfl
    · obtain ⟨graph, hgraph, hsame⟩ := ih ((find_replace_of_ne hx _).trans h)
      exact ⟨graph, hgraph, fun hx => hsame (List.not_mem_of_not_mem_cons hx)⟩

end RuleTable

/-- A grammar whose rules are looked up by name only, through the names in order of declaration. -/
structure Stores where
  name : Option String := none
  imports : List String := []
  order : List String := []
  rules : RuleTable := .empty
  settings : Settings := {}

namespace Stores

def of (g : Grammar) : Stores where
  name := g.name
  imports := g.imports
  order := g.rules.names
  rules := g.rules
  settings := g.settings

def insert (s : Stores) (name : String) (r : Rule) : Stores × Except Fault Unit :=
  if Grammar.isBlankName name then (s, .error .blankRuleName)
  else if s.rules.contains name then (s, .error (.duplicateRules [name]))
  else ({ s with order := s.order ++ [name], rules := s.rules.put name r }, .ok ())

def define (s : Stores) (name expression : String) (isPublic : Bool) :
    Stores × Except Fault Unit :=
  match Rule.compile s.settings.punctuation expression isPublic with
  | .error f => (s, .error f)
  | .ok r => s.insert name r

def listing (s : Stores) : List (String × Rule) :=
  s.order.filterMap fun name => (s.rules.find name).map fun r => (name, r)

def borrow (s : Stores) (name : String) (r : Rule) : Stores :=
  if s.rules.contains name then s
  else { s with order := s.order ++ [name], rules := s.rules.put name r.toPrivate }

def merge (s other : Stores) : Stores :=
  other.listing.foldl (fun s (name, r) => s.borrow name r) s

def validate (s : Stores) : Except Fault Unit :=
  s.listing.forM fun (name, r) => r.checkRecursion name s.rules

def compositionOrder (s : Stores) : Except Fault (List String) := do
  s.validate
  return breadthFirst s.rules.references (s.listing.length + 1)
    ((s.listing.filter (·.2.isPublic)).map (·.1))

def resolveEach (minimize : Bool) :
    List String → List String → RuleTable → RuleTable × Except Fault Unit
  | _, [], t => (t, .ok ())
  | seen, name :: rest, t =>
    if name ∈ seen then resolveEach minimize seen rest t
    else
      match t.find name with
      | none => resolveEach minimize (name :: seen) rest t
      | some r =>
        match r.resolve t with
        | .error f => (t, .error f)
        | .ok r =>
          resolveEach minimize (name :: seen) rest (t.put name (if minimize then r.elide else r))

def resolve (s : Stores) : Stores × Except Fault Unit :=
  match s.compositionOrder with
  | .error f => (s, .error f)
  | .ok order =>
    let (rules, result) := resolveEach s.settings.minimize [] order.reverse s.rules
    ({ s with rules }, result)

theorem insert_of (g : Grammar) (name : String) (r : Rule) :
    (of g).insert name r =
      (of (g.change (.insert name r)), (g.insert name r).map fun _ => ()) := by
  rw [Grammar.change, Grammar.insert, insert]
  by_cases hblank : Grammar.isBlankName name = true
  · simp [hblank, Except.map]
  · by_cases hname : name ∈ g.rules.names
    · simp [hblank, hname, of, RuleTable.contains_iff, Except.map]
    · simp [hblank, hname, of, RuleTable.contains_iff, Except.map,
        RuleTable.put_of_not_mem hname, RuleTable.names_add r hname]

theorem define_of (g : Grammar) (d : Definition) :
    (of g).define d.name d.expression d.isPublic =
      (of (g.change (.call (.define d))), (g.declare d).map fun _ => ()) := by
  rw [Grammar.change, Grammar.perform, define]
  have hdeclare : g.declare d =
      (Rule.compile g.settings.punctuation d.expression d.isPublic >>= g.insert d.name) := rfl
  cases hr : Rule.compile g.settings.punctuation d.expression d.isPublic with
  | error f =>
    rw [hdeclare, hr]
    simp only [of, hr]
    rfl
  | ok r =>
    rw [hdeclare, hr]
    simp only [of, hr]
    exact insert_of g d.name r

theorem listing_of (g : Grammar) : (of g).listing = g.rules.entries :=
  g.rules.entries_eq.symm

theorem borrow_of (g : Grammar) (name : String) (r : Rule) :
    (of g).borrow name r = of { g with rules := g.rules.add name r.toPrivate } := by
  rw [borrow]
  by_cases hname : name ∈ g.rules.names
  · simp [of, RuleTable.contains_iff, hname, RuleTable.add_of_mem hname]
  · simp [of, RuleTable.contains_iff, hname, RuleTable.put_of_not_mem hname,
      RuleTable.names_add _ hname]

theorem merge_of (g other : Grammar) : (of g).merge (of other) = of (g.merge other) := by
  rw [merge, listing_of, Grammar.merge]
  induction other.rules.entries generalizing g with
  | nil => rfl
  | cons e entries ih =>
    obtain ⟨name, r⟩ := e
    simp only [List.foldl_cons, borrow_of]
    exact ih _

theorem compositionOrder_of (g : Grammar) : (of g).compositionOrder = g.compositionOrder := by
  rw [compositionOrder, validate, listing_of]
  rfl

theorem resolveEach_eq (minimize : Bool) (seen names : List String) (t : RuleTable) :
    resolveEach minimize seen names t =
      t.resolveAll minimize (names.filter (· ∉ seen)).eraseDups := by
  induction names generalizing seen t with
  | nil => rfl
  | cons name names ih =>
    rw [resolveEach]
    by_cases hseen : name ∈ seen
    · rw [if_pos hseen, List.filter_cons_of_neg (by simpa using hseen), ih]
    · have hrest : (names.filter (· ∉ seen)).filter (fun x => !x == name) =
          names.filter (· ∉ name :: seen) := by
        rw [List.filter_filter]
        refine List.filter_congr fun x _ => ?_
        by_cases hx : x = name <;> simp [hx]
      rw [if_neg hseen, List.filter_cons_of_pos (by simpa using hseen), List.eraseDups_cons, hrest]
      cases hfind : t.find name with
      | none => rw [RuleTable.resolveAll_missing minimize hfind, ih]
      | some r =>
        cases hresolve : r.resolve t with
        | error f => simp only [RuleTable.resolveAll, hfind, hresolve]
        | ok q =>
          have hname : name ∈ t.names := RuleTable.mem_names_iff.mpr ⟨r, hfind⟩
          simp only [RuleTable.resolveAll, hfind, hresolve, ih, RuleTable.put_of_mem hname]

theorem resolve_of (g : Grammar) : (of g).resolve = (of g.resolve.1, g.resolve.2) := by
  rw [resolve, compositionOrder_of, Grammar.resolve]
  cases horder : g.compositionOrder with
  | error f => rfl
  | ok order =>
    have hall : order.reverse.filter (· ∉ ([] : List String)) = order.reverse := by simp
    simp only [resolveEach_eq, hall]
    simp [of, RuleTable.names_resolveAll]

end Stores

namespace Grammar

variable {g h other : Grammar}

theorem resolve_outcome (g : Grammar) :
    g.resolve.1 = g ∨ ∃ order, (∀ name, name ∈ order ↔ g.rules.Leads name) ∧
      g.resolve.1 = { g with rules := (g.rules.resolveAll g.settings.minimize order).1 } := by
  rw [resolve]
  cases horder : g.compositionOrder with
  | error f => exact .inl rfl
  | ok order =>
    refine .inr ⟨order.reverse.eraseDups, fun name => ?_, rfl⟩
    rw [List.mem_eraseDups, List.mem_reverse, mem_order_iff horder]

theorem names_resolve (g : Grammar) : g.resolve.1.rules.names = g.rules.names := by
  rcases g.resolve_outcome with hsame | ⟨order, -, hresolved⟩
  · rw [hsame]
  · rw [hresolved, RuleTable.names_resolveAll]

def Named (g : Grammar) : Prop :=
  ∀ name ∈ g.rules.names, isBlankName name = false

namespace Named

theorem insert (hg : g.Named) (hinsert : g.insert name r = .ok h) : h.Named := by
  obtain ⟨hblank, hname, rfl⟩ := insert_eq_ok.mp hinsert
  intro x hx
  rw [RuleTable.names_add r hname] at hx
  rcases List.mem_append.mp hx with hx | hx
  · exact hg x hx
  · exact List.mem_singleton.mp hx ▸ hblank

theorem merge (hg : g.Named) (hother : other.Named) : (g.merge other).Named := by
  intro x hx
  rw [names_merge] at hx
  rcases List.mem_append.mp hx with hx | hx
  · exact hg x hx
  · exact hother x (List.mem_of_mem_filter hx)

theorem change (hg : g.Named) (c : Change) (hc : ∀ other, c = .merge other → other.Named) :
    (g.change c).Named := by
  cases c with
  | call c =>
    cases c with
    | define d =>
      rw [Grammar.change, perform]
      split
      · rename_i h hd
        obtain ⟨r, -, hr⟩ := Attempt.bind_eq_ok.mp hd
        exact hg.insert hr
      · exact hg
    | resolve =>
      intro x hx
      rw [Grammar.change, perform, names_resolve] at hx
      exact hg x hx
  | insert name r =>
    rw [Grammar.change]
    split
    · rename_i h hr
      exact hg.insert hr
    · exact hg
  | merge other => exact hg.merge (hc other rfl)

end Named

end Grammar

namespace Stores

variable {g : Grammar} {s : Stores} {f : Fault}

/-- Whether the stores are those of the grammar and answer calls as it does. -/
structure Answers (s : Stores) (g : Grammar) : Prop where
  same : s = of g
  define : ∀ name expression isPublic, (s.define name expression isPublic).2 =
    (g.define name expression isPublic).map fun _ => ()
  insert : ∀ name r, (s.insert name r).2 = (g.insert name r).map fun _ => ()
  resolve : s.resolve.2 = g.resolve.2

/-- Whether the names in order are those of the rules, each once, and none of them is blank. -/
structure Coherent (s : Stores) : Prop where
  nodup : s.order.Nodup
  mem_order : ∀ name, name ∈ s.order ↔ ∃ r, s.rules.find name = some r
  named : ∀ name ∈ s.order,
    Text.trim name.toList ≠ [] ∧ Text.trim name.toList ≠ ['<', '>']

structure Redraws (s u : Stores) : Prop where
  same : u = { s with rules := u.rules }
  missing : ∀ name, s.rules.find name = none → u.rules.find name = none
  found : ∀ name r, s.rules.find name = some r →
    ∃ graph, u.rules.find name = some { r with graph } ∧
      (¬ s.rules.Leads name → graph = r.graph)

structure Borrows (s other u : Stores) : Prop where
  same : u = { s with order := u.order, rules := u.rules }
  order : u.order = s.order ++ other.order.filter (· ∉ s.order)
  found : ∀ name, u.rules.find name =
    (s.rules.find name).or ((other.rules.find name).map Rule.toPrivate)

/-- A grammar and stores that have taken the same calls, some of which may have failed. -/
inductive Tandem : Grammar → Stores → Prop where
  | start (name : Option String) (imports : List String) (settings : Settings) :
      Tandem { name, imports, settings } { name, imports, settings }
  | define {g : Grammar} {s : Stores} (d : Definition) :
      Tandem g s → Tandem (g.change (.call (.define d)))
        (s.define d.name d.expression d.isPublic).1
  | insert {g : Grammar} {s : Stores} (name : String) (r : Rule) :
      Tandem g s → Tandem (g.change (.insert name r)) (s.insert name r).1
  | merge {g other : Grammar} {s u : Stores} :
      Tandem g s → Tandem other u → Tandem (g.change (.merge other)) (s.merge u)
  | resolve {g : Grammar} {s : Stores} :
      Tandem g s → Tandem (g.change (.call .resolve)) s.resolve.1

namespace Tandem

theorem eq_of (h : Tandem g s) : s = of g := by
  induction h with
  | start => rfl
  | define d _ ih => rw [ih, define_of]
  | insert name r _ ih => rw [ih, insert_of]
  | merge _ _ ih ih' => rw [ih, ih', merge_of]; rfl
  | resolve _ ih => rw [ih, resolve_of]; rfl

theorem named (h : Tandem g s) : g.Named := by
  induction h with
  | start => exact fun x hx => absurd hx List.not_mem_nil
  | define d _ ih => exact ih.change _ fun other heq => by cases heq
  | insert name r _ ih => exact ih.change _ fun other heq => by cases heq
  | @merge g other s u _ _ ih ih' =>
    refine ih.change _ fun other' heq => ?_
    obtain rfl := Change.merge.inj heq
    exact ih'
  | resolve _ ih => exact ih.change _ fun other heq => by cases heq

end Tandem

theorem answers_of (g : Grammar) : (of g).Answers g := by
  refine ⟨rfl, fun name expression isPublic => ?_, fun name r => ?_, ?_⟩
  · exact congrArg Prod.snd (define_of g ⟨isPublic, name, expression⟩)
  · exact congrArg Prod.snd (insert_of g name r)
  · exact congrArg Prod.snd (resolve_of g)

theorem coherent_of (hg : g.Named) : (of g).Coherent := by
  refine ⟨g.rules.distinct, fun name => RuleTable.mem_names_iff, fun name hname => ?_⟩
  have hblank := hg name hname
  simpa [Grammar.isBlankName] using hblank

theorem borrows_merge (g other : Grammar) : (of g).Borrows (of other) (of (g.merge other)) :=
  ⟨rfl, Grammar.names_merge g other, fun name => Grammar.find_merge g other name⟩

theorem redraws_resolve (g : Grammar) : (of g).Redraws (of g.resolve.1) := by
  rcases g.resolve_outcome with hsame | ⟨order, horder, hresolved⟩
  · rw [hsame]
    exact ⟨rfl, fun _ h => h, fun name r hr => ⟨r.graph, hr, fun _ => rfl⟩⟩
  · rw [hresolved]
    refine ⟨?_, fun name hname => ?_, fun name r hr => ?_⟩
    · simp [of, RuleTable.names_resolveAll]
    · rw [of, RuleTable.find_eq_none_iff] at hname ⊢
      rwa [RuleTable.names_resolveAll]
    · obtain ⟨graph, hgraph, hsame⟩ := RuleTable.find_resolveAll g.settings.minimize order hr
      exact ⟨graph, hgraph, fun hleads => hsame fun hname => hleads ((horder name).mp hname)⟩

theorem insert_error (h : (s.insert name r).2 = .error f) : (s.insert name r).1 = s := by
  unfold insert at h ⊢
  split
  · rfl
  · rename_i hblank
    split
    · rfl
    · rename_i hname
      rw [if_neg hblank, if_neg hname] at h
      cases h

theorem define_error {expression : String} {isPublic : Bool}
    (h : (s.define name expression isPublic).2 = .error f) :
    (s.define name expression isPublic).1 = s := by
  rw [define] at h ⊢
  cases hr : Rule.compile s.settings.punctuation expression isPublic with
  | error f => rfl
  | ok r =>
    rw [hr] at h
    exact insert_error h

theorem Tandem.calls_keep_stores (h : Tandem g s) :
    s.Answers g ∧
    s.Coherent ∧
    (∀ name expression isPublic f, (s.define name expression isPublic).2 = .error f →
      (s.define name expression isPublic).1 = s) ∧
    (∀ name r f, (s.insert name r).2 = .error f → (s.insert name r).1 = s) ∧
    (∀ other u, Tandem other u → s.Borrows u (s.merge u)) ∧
    s.Redraws s.resolve.1 := by
  have hnamed := h.named
  obtain rfl := h.eq_of
  refine ⟨answers_of g, coherent_of hnamed, fun _ _ _ _ => define_error, fun _ _ _ => insert_error,
    fun other u hu => ?_, ?_⟩
  · obtain rfl := hu.eq_of
    rw [merge_of]
    exact borrows_merge g other
  · rw [resolve_of]
    exact redraws_resolve g

theorem Tandem.calls_keep_stores_of_greeting :
    let s := ((((Stores.define {} "<greet>" "hi <who> <nobody>;" true).1.define
      "<greet>" "hi;" true).1.insert " " default).1.define "<who>" "you;" false).1
    let u := ((Stores.define {} "<who>" "me;" true).1.define "<all>" "all;" true).1
    s.order = ["<greet>", "<who>"] ∧ s.resolve.1.order = ["<greet>", "<who>"] ∧
      (s.merge u).order = ["<greet>", "<who>", "<all>"] ∧ (s.merge u).Coherent ∧
      s.Redraws s.resolve.1 := by
  intro s u
  have hs : Tandem _ s := .define ⟨false, "<who>", "you;"⟩ (.insert " " default (.define
    ⟨true, "<greet>", "hi;"⟩ (.define ⟨true, "<greet>", "hi <who> <nobody>;"⟩ (.start none [] {}))))
  have hu : Tandem _ u := .define ⟨true, "<all>", "all;"⟩
    (.define ⟨true, "<who>", "me;"⟩ (.start none [] {}))
  have horder : s.order = ["<greet>", "<who>"] := by decide +kernel
  have horder' : u.order = ["<who>", "<all>"] := by decide +kernel
  obtain ⟨-, -, -, -, hmerge, hresolve⟩ := hs.calls_keep_stores
  obtain ⟨-, hcoherent, -⟩ := (hs.merge hu).calls_keep_stores
  refine ⟨horder, ?_, ?_, hcoherent, hresolve⟩
  · rw [hresolve.same, horder]
  · rw [(hmerge _ u hu).order, horder, horder']
    decide

end Stores

end SpokenGrammar
