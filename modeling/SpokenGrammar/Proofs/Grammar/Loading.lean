import SpokenGrammar.Grammar.Loading
import SpokenGrammar.Proofs.Grammar.Resolution
import SpokenGrammar.Proofs.Grammar.Sentences

namespace SpokenGrammar

variable {p : Punctuation} {text : String} {source : Source} {settings : Settings}
  {t u table : RuleTable} {order : List String} {ρ : String → Language Char}

namespace Definition

def enter (p : Punctuation) (t : RuleTable) (d : Definition) : Except Fault RuleTable := do
  let r ← Rule.compile p d.expression d.isPublic
  if Grammar.isBlankName d.name then .error .blankRuleName
  else if d.name ∈ t.names then .error (.duplicateRules [d.name])
  else .ok (t.add d.name r)

def Enters (p : Punctuation) (d : Definition) (e : String × Rule) : Prop :=
  e.1 = d.name ∧ Rule.compile p d.expression d.isPublic = .ok e.2

theorem entries_of_enter {d : Definition} (h : enter p t d = .ok u) :
    ∃ e, d.Enters p e ∧ u.entries = t.entries ++ [e] := by
  obtain ⟨r, hr, h⟩ := Attempt.bind_eq_ok.mp h
  split at h
  · cases h
  · split at h
    · cases h
    · rename_i hname
      rcases Except.ok.inj h with rfl
      refine ⟨(d.name, r), ⟨rfl, hr⟩, ?_⟩
      rw [RuleTable.add, dif_neg hname]

theorem entries_of_foldlM {ds : List Definition} (h : ds.foldlM (enter p) t = .ok u) :
    ∃ new, List.Forall₂ (Enters p) ds new ∧ u.entries = t.entries ++ new := by
  induction ds generalizing t with
  | nil =>
    rcases Except.ok.inj h with rfl
    exact ⟨[], .nil, (List.append_nil _).symm⟩
  | cons d ds ih =>
    rw [List.foldlM_cons] at h
    obtain ⟨v, hv, h⟩ := Attempt.bind_eq_ok.mp h
    obtain ⟨e, he, hentries⟩ := entries_of_enter hv
    obtain ⟨new, hnew, hall⟩ := ih h
    refine ⟨e :: new, .cons he hnew, ?_⟩
    rw [hall, hentries, List.append_assoc, List.singleton_append]

end Definition

namespace Grammar

theorem declare_eq (g : Grammar) (d : Definition) :
    g.declare d = (d.enter g.settings.punctuation g.rules).map fun rules => { g with rules } := by
  rw [declare, define, Definition.enter]
  cases Rule.compile g.settings.punctuation d.expression d.isPublic with
  | error f => rfl
  | ok r =>
    change g.insert d.name r = Except.map _ (if isBlankName d.name then _ else
      if d.name ∈ g.rules.names then _ else _)
    rw [insert]
    split
    · rfl
    · split
      · rfl
      · rfl

theorem foldlM_declare (ds : List Definition) (g : Grammar) :
    ds.foldlM declare g =
      (ds.foldlM (Definition.enter g.settings.punctuation) g.rules).map
        fun rules => { g with rules } := by
  induction ds generalizing g with
  | nil => rfl
  | cons d ds ih =>
    rw [List.foldlM_cons, List.foldlM_cons, declare_eq]
    cases d.enter g.settings.punctuation g.rules with
    | error f => rfl
    | ok rules => exact ih { g with rules }

/-- The source of a text, the table of its rules, and the order in which they are resolved. -/
structure Loads (text : String) (p : Punctuation) (source : Source) (table : RuleTable)
    (order : List String) : Prop where
  read : Source.read text = .ok source
  unrepeated : repeated (source.rules.map Definition.name) = []
  entered : source.rules.foldlM (Definition.enter p) .empty = .ok table
  ordered : ∃ levels, ({ rules := table } : Grammar).compositionOrder = .ok levels ∧
    order = levels.reverse.eraseDups

theorem resolve_eq_ok {g h : Grammar} :
    g.resolve = (h, .ok ()) ↔ ∃ levels rules,
      ({ rules := g.rules } : Grammar).compositionOrder = .ok levels ∧
        g.rules.resolveAll g.settings.minimize levels.reverse.eraseDups = (rules, .ok ()) ∧
          h = { g with rules } := by
  have horder : g.compositionOrder = ({ rules := g.rules } : Grammar).compositionOrder := rfl
  rw [resolve, horder]
  cases ({ rules := g.rules } : Grammar).compositionOrder with
  | error f =>
    constructor
    · intro h
      cases h
    · rintro ⟨levels, rules, h, -⟩
      cases h
  | ok levels =>
    constructor
    · intro h
      obtain ⟨rfl, hok⟩ := Prod.mk.inj h
      exact ⟨levels, _, rfl, Prod.ext rfl hok, rfl⟩
    · rintro ⟨levels', rules, h, hall, rfl⟩
      rcases Except.ok.inj h with rfl
      dsimp only
      rw [hall]

theorem load_eq_ok {g : Grammar} :
    load text settings = .ok g ↔ ∃ source table order,
      Loads text settings.punctuation source table order ∧
        table.resolveAll settings.minimize order = (g.rules, .ok ()) ∧
          g = { name := source.name, imports := source.imports, rules := g.rules, settings } := by
  constructor
  · intro h
    obtain ⟨source, hsource, h⟩ := Attempt.bind_eq_ok.mp h
    dsimp only at h
    split at h
    · cases h
    · rename_i hunrepeated
      obtain ⟨raw, hraw, h⟩ := Attempt.bind_eq_ok.mp h
      obtain ⟨_, hok, h⟩ := Attempt.bind_eq_ok.mp h
      have hresolve : raw.resolve = (g, .ok ()) := Prod.ext (Except.ok.inj h) hok
      rw [foldlM_declare] at hraw
      obtain ⟨table, htable, rfl⟩ := Attempt.map_eq_ok.mp hraw
      obtain ⟨levels, rules, horder, hall, rfl⟩ := resolve_eq_ok.mp hresolve
      exact ⟨source, table, _, ⟨hsource, not_not.mp hunrepeated, htable, levels, horder, rfl⟩,
        hall, rfl⟩
  · rintro ⟨source, table, order, ⟨hsource, hunrepeated, htable, levels, horder, rfl⟩, hall, hg⟩
    let start : Grammar := { name := source.name, imports := source.imports, settings }
    have hraw : source.rules.foldlM declare start = .ok { start with rules := table } := by
      rw [foldlM_declare]
      exact Attempt.map_eq_ok.mpr ⟨table, htable, rfl⟩
    have hresolve : ({ start with rules := table } : Grammar).resolve = (g, .ok ()) :=
      resolve_eq_ok.mpr ⟨levels, g.rules, horder, hall, hg⟩
    refine Attempt.bind_eq_ok.mpr ⟨source, hsource, ?_⟩
    dsimp only
    rw [if_neg (not_not.mpr hunrepeated)]
    refine Attempt.bind_eq_ok.mpr ⟨_, hraw, ?_⟩
    rw [hresolve]
    rfl

namespace Loads

theorem unique {source' : Source} {table' : RuleTable} {order' : List String}
    (h : Loads text p source table order) (h' : Loads text p source' table' order') :
    source = source' ∧ table = table' ∧ order = order' := by
  obtain ⟨levels, hlevels, rfl⟩ := h.ordered
  obtain ⟨levels', hlevels', rfl⟩ := h'.ordered
  obtain rfl := Except.ok.inj (h.read.symm.trans h'.read)
  obtain rfl := Except.ok.inj (h.entered.symm.trans h'.entered)
  obtain rfl := Except.ok.inj (hlevels.symm.trans hlevels')
  exact ⟨rfl, rfl, rfl⟩

variable (h : Loads text p source table order)
include h

theorem entries : List.Forall₂ (Definition.Enters p) source.rules table.entries := by
  obtain ⟨new, hnew, hentries⟩ := Definition.entries_of_foldlM h.entered
  rw [hentries]
  exact hnew

theorem precedes (x y : String) (hy : y ∈ table.references x) : Precedes y x order := by
  obtain ⟨levels, hlevels, rfl⟩ := h.ordered
  exact ((compositionOrder_eq_ok hlevels).2.precedes hy).eraseDups

theorem nodup_order : order.Nodup := by
  obtain ⟨levels, -, rfl⟩ := h.ordered
  exact nodup_eraseDups _

theorem mem_order {name : String} {r : Rule} (hr : table.find name = some r)
    (hpublic : r.isPublic = true) : name ∈ order := by
  obtain ⟨levels, hlevels, rfl⟩ := h.ordered
  rw [List.mem_eraseDups, List.mem_reverse]
  exact (compositionOrder_eq_ok hlevels).1 (name, r) (mem_publicRules.mpr ⟨hr, hpublic⟩)

theorem exists_resolveAll_iff (hmeans : table.Means ρ) (minimize : Bool) :
    (∃ rules, table.resolveAll minimize order = (rules, .ok ())) ↔ table.Complete order := by
  have hiff := (RuleTable.resolveAll_abreast minimize hmeans (.start ρ table) h.nodup_order
    h.precedes).2.1
  rw [← hiff]
  constructor
  · rintro ⟨rules, hrules⟩
    exact congrArg Prod.snd hrules
  · intro hok
    exact ⟨_, Prod.ext rfl hok⟩

theorem abreast (hmeans : table.Means ρ) {minimize : Bool} {rules rules' : RuleTable}
    (hplain : table.resolveAll false order = (rules, .ok ()))
    (hrules : table.resolveAll minimize order = (rules', .ok ())) :
    Abreast ρ table order rules rules' := by
  have hcomplete := (h.exists_resolveAll_iff hmeans minimize).mp ⟨rules', hrules⟩
  have habreast := (RuleTable.resolveAll_abreast minimize hmeans (.start ρ table) h.nodup_order
    h.precedes).2.2 hcomplete
  rw [hplain, hrules, List.nil_append] at habreast
  exact habreast

theorem exists_abreast (hmeans : table.Means ρ) {minimize : Bool} {rules : RuleTable}
    (hrules : table.resolveAll minimize order = (rules, .ok ())) :
    ∃ plain, table.resolveAll false order = (plain, .ok ()) ∧
      Abreast ρ table order plain rules := by
  have hcomplete := (h.exists_resolveAll_iff hmeans minimize).mp ⟨rules, hrules⟩
  obtain ⟨plain, hplain⟩ := (h.exists_resolveAll_iff hmeans false).mpr hcomplete
  exact ⟨plain, hplain, h.abreast hmeans hplain hrules⟩

theorem exists_paired (hmeans : table.Means ρ) {minimize : Bool} {g g' : Grammar}
    (hplain : table.resolveAll false order = (g.rules, .ok ()))
    (hrules : table.resolveAll minimize order = (g'.rules, .ok ())) {name : String} {r' : Rule}
    (hpublic : (name, r') ∈ g'.publicRules) :
    ∃ r, (name, r) ∈ g.publicRules ∧ Rule.Paired ρ name r r' := by
  obtain ⟨hr', htrue⟩ := mem_publicRules.mp hpublic
  obtain ⟨raw, r, hraw, hr, hsame, hsame', hpair⟩ :=
    (h.abreast hmeans hplain hrules).exists_of_find hr'
  rw [htrue] at hsame'
  exact ⟨r, mem_publicRules.mpr ⟨hr, hsame.trans hsame'.symm⟩,
    hpair (h.mem_order hraw hsame'.symm)⟩

theorem resolved (hmeans : table.Means ρ) {minimize : Bool} {g : Grammar}
    (hrules : table.resolveAll minimize order = (g.rules, .ok ())) : g.Resolved ρ := by
  obtain ⟨plain, hplain, -⟩ := h.exists_abreast hmeans hrules
  rintro ⟨name, r⟩ hpublic
  have hpaired := h.exists_paired hmeans (g := { rules := plain }) hplain hrules hpublic
  obtain ⟨q, -, hpair⟩ := hpaired
  exact hpair.thin

theorem exists_public_iff (hmeans : table.Means ρ) {minimize : Bool} {g : Grammar}
    (hrules : table.resolveAll minimize order = (g.rules, .ok ())) (name : String) :
    (∃ r, (name, r) ∈ g.publicRules) ↔ ∃ r, table.find name = some r ∧ r.isPublic = true := by
  obtain ⟨plain, -, habreast⟩ := h.exists_abreast hmeans hrules
  constructor
  · rintro ⟨r, hpublic⟩
    obtain ⟨hr, htrue⟩ := mem_publicRules.mp hpublic
    obtain ⟨raw, -, hraw, -, -, hsame, -⟩ := habreast.exists_of_find hr
    exact ⟨raw, hraw, hsame ▸ htrue⟩
  · rintro ⟨raw, hraw, htrue⟩
    obtain ⟨-, r, -, hr, -, hsame, -⟩ := habreast.exists_find hraw
    exact ⟨r, mem_publicRules.mpr ⟨hr, hsame ▸ htrue⟩⟩

end Loads

end Grammar

end SpokenGrammar
