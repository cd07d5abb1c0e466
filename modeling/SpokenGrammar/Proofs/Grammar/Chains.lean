import Mathlib.Data.List.Chain
import Mathlib.Data.Set.Card
import Mathlib.Logic.Function.Iterate
import SpokenGrammar.Proofs.Grammar.Stores

namespace SpokenGrammar

variable {next : String → List String} {starts names : List String}

def visit (next : String → List String) : List String × List String → List String × List String
  | (order, []) => (order, [])
  | (order, x :: queue) => (order ++ [x], queue ++ next x)

theorem visit_level (order level later : List String) :
    (visit next)^[level.length] (order, level ++ later) =
      (order ++ level, later ++ level.flatMap next) := by
  induction level generalizing order later with
  | nil => simp
  | cons x level ih =>
    rw [List.length_cons, Function.iterate_succ_apply, List.cons_append, visit, List.append_assoc,
      ih, List.flatMap_cons]
    simp

def descents (next : String → List String) : List String → List (List String)
  | [] => []
  | x :: c => (next x).map (· :: x :: c)

def chainsOf (next : String → List String) (starts : List String) : Nat → List (List String)
  | 0 => starts.map ([·])
  | n + 1 => (chainsOf next starts n).flatMap (descents next)

theorem mem_chainsOf {n : Nat} {c : List String} : c ∈ chainsOf next starts n ↔
    c.length = n + 1 ∧ c.IsChain (fun y x => y ∈ next x) ∧ ∃ s ∈ starts, c.getLast? = some s := by
  induction n generalizing c with
  | zero =>
    rw [chainsOf, List.mem_map]
    constructor
    · rintro ⟨s, hs, rfl⟩
      exact ⟨rfl, List.isChain_singleton s, s, hs, rfl⟩
    · rintro ⟨hlength, -, s, hs, hlast⟩
      obtain ⟨x, rfl⟩ := List.length_eq_one_iff.mp hlength
      obtain rfl := Option.some.inj hlast
      exact ⟨x, hs, rfl⟩
  | succ n ih =>
    rw [chainsOf, List.mem_flatMap]
    constructor
    · rintro ⟨b, hb, hc⟩
      obtain ⟨hlength, hchain, s, hs, hlast⟩ := ih.mp hb
      cases b with
      | nil => cases hc
      | cons x b =>
        obtain ⟨y, hy, rfl⟩ := List.mem_map.mp hc
        refine ⟨by rw [List.length_cons, hlength], List.isChain_cons_cons.mpr ⟨hy, hchain⟩,
          s, hs, ?_⟩
        rw [List.getLast?_cons_cons, hlast]
    · rintro ⟨hlength, hchain, s, hs, hlast⟩
      match c, hlength with
      | y :: x :: b, hlength =>
        obtain ⟨hy, hchain⟩ := List.isChain_cons_cons.mp hchain
        rw [List.getLast?_cons_cons] at hlast
        exact ⟨x :: b, ih.mpr ⟨Nat.succ.inj hlength, hchain, s, hs, hlast⟩,
          List.mem_map.mpr ⟨y, hy, rfl⟩⟩

theorem nodup_chainsOf (hnext : ∀ x, (next x).Nodup) (hstarts : starts.Nodup) (n : Nat) :
    (chainsOf next starts n).Nodup := by
  induction n with
  | zero => exact hstarts.map fun x y h => (List.cons.inj h).1
  | succ n ih =>
    refine List.nodup_flatMap.mpr ⟨fun c _ => ?_, ih.imp fun {b c} hne => ?_⟩
    · cases c with
      | nil => exact .nil
      | cons x c => exact (hnext x).map fun y z h => (List.cons.inj h).1
    · intro d hd hd'
      cases b with
      | nil => cases hd
      | cons x b =>
        cases c with
        | nil => cases hd'
        | cons z c =>
          obtain ⟨y, -, rfl⟩ := List.mem_map.mp hd
          obtain ⟨y', -, heq⟩ := List.mem_map.mp hd'
          exact hne (List.cons.inj heq).2.symm

theorem nodup_flatMap_chainsOf (hnext : ∀ x, (next x).Nodup) (hstarts : starts.Nodup) (n : Nat) :
    ((List.range n).flatMap (chainsOf next starts)).Nodup := by
  refine List.nodup_flatMap.mpr ⟨fun k _ => nodup_chainsOf hnext hstarts k,
    List.nodup_range.imp fun {k l} hne c hc hc' => ?_⟩
  have hlength := (mem_chainsOf.mp hc).1.symm.trans (mem_chainsOf.mp hc').1
  exact hne (Nat.succ.inj hlength)

theorem heads_descents (cs : List (List String)) :
    (cs.flatMap (descents next)).filterMap List.head? =
      (cs.filterMap List.head?).flatMap next := by
  induction cs with
  | nil => rfl
  | cons c cs ih =>
    cases c with
    | nil => exact ih
    | cons x c =>
      have hheads : ((next x).map (· :: x :: c)).filterMap List.head? = next x := by
        rw [List.filterMap_map]
        exact List.filterMap_some
      rw [List.flatMap_cons, List.filterMap_append, ih, descents, hheads]
      rfl

/-- Each name of the order is the last one of a chain, the shorter chains first. -/
theorem breadthFirst_eq_heads (fuel n : Nat) :
    breadthFirst next fuel ((chainsOf next starts n).filterMap List.head?) =
      ((List.range' n fuel).flatMap (chainsOf next starts)).filterMap List.head? := by
  induction fuel generalizing n with
  | zero => rfl
  | succ fuel ih =>
    rw [breadthFirst_succ, ← heads_descents, List.range'_succ, List.flatMap_cons,
      List.filterMap_append]
    exact congrArg _ (ih (n + 1))

section Acyclic

variable (hacyclic : ∀ x, ¬ Relation.TransGen (Refers next) x x)
  (hnames : ∀ x, next x ≠ [] → x ∈ names)
include hacyclic

theorem trail_of_isChain {x : String} {c : List String}
    (h : (x :: c).IsChain fun y x => y ∈ next x) : Trail next x c := by
  induction c generalizing x with
  | nil => exact ⟨.nil, by simp, by simp⟩
  | cons y c ih =>
    obtain ⟨hx, h⟩ := List.isChain_cons_cons.mp h
    exact (ih h).cons hacyclic hx

include hnames

theorem length_le_of_isChain {c : List String} (h : c.IsChain fun y x => y ∈ next x) :
    c.length ≤ names.length + 1 := by
  cases c with
  | nil => exact Nat.zero_le _
  | cons x c => exact Nat.succ_le_succ ((trail_of_isChain hacyclic h).length_le hnames)

/-- The queue hands out level after level, and the last level refers to nothing. -/
theorem visit_breadthFirst {fuel : Nat} {level : List String}
    (hlevel : ∀ x ∈ level, ∃ trail, Trail next x trail ∧ trail.length + fuel = names.length + 1)
    (order : List String) :
    ∃ n, (visit next)^[n] (order, level) = (order ++ breadthFirst next fuel level, []) := by
  induction fuel generalizing level order with
  | zero =>
    cases level with
    | nil => exact ⟨0, by simp [breadthFirst]⟩
    | cons x level =>
      obtain ⟨trail, htrail, hlength⟩ := hlevel x List.mem_cons_self
      have hle := htrail.length_le hnames
      omega
  | succ fuel ih =>
    have hnext : ∀ y ∈ level.flatMap next,
        ∃ trail, Trail next y trail ∧ trail.length + fuel = names.length + 1 := by
      intro y hy
      obtain ⟨x, hx, hy⟩ := List.mem_flatMap.mp hy
      obtain ⟨trail, htrail, hlength⟩ := hlevel x hx
      exact ⟨x :: trail, htrail.cons hacyclic hy, by rw [List.length_cons]; omega⟩
    obtain ⟨n, hn⟩ := ih hnext (order ++ level)
    refine ⟨n + level.length, ?_⟩
    have hserved : (visit next)^[level.length] (order, level) =
        (order ++ level, level.flatMap next) := by
      simpa using visit_level order level []
    rw [Function.iterate_add_apply, hserved, hn, breadthFirst_succ, List.append_assoc]

end Acyclic

theorem Rule.nodup_references_of_compile {p : Punctuation} {expression : String} {isPublic : Bool}
    {r : Rule} (h : Rule.compile p expression isPublic = .ok r) : r.references.Nodup := by
  obtain ⟨tokens, -, -, -, -, -, hreferences⟩ := Rule.compile_eq_ok h
  rw [hreferences]
  exact nodup_eraseDups _

def Grammar.Listed (g : Grammar) : Prop :=
  ∀ name r, g.rules.find name = some r → r.references.Nodup

def Change.Listed : Change → Prop
  | .call _ => True
  | .insert _ r => r.references.Nodup
  | .merge other => other.Listed

namespace Grammar

variable {g h other : Grammar}

namespace Listed

theorem nodup_references (hg : g.Listed) (name : String) : (g.rules.references name).Nodup := by
  cases hfound : g.rules.find name with
  | none =>
    rw [RuleTable.references, hfound]
    exact .nil
  | some r =>
    rw [RuleTable.references_eq hfound]
    exact hg name r hfound

theorem insert {name : String} {r : Rule} (hg : g.Listed) (hr : r.references.Nodup)
    (hinsert : g.insert name r = .ok h) : h.Listed := by
  obtain ⟨-, hname, rfl⟩ := insert_eq_ok.mp hinsert
  intro x q hq
  rw [RuleTable.find_add hname] at hq
  split at hq
  · exact Option.some.inj hq ▸ hr
  · exact hg x q hq

theorem merge (hg : g.Listed) (hother : other.Listed) : (g.merge other).Listed := by
  intro x q hq
  rw [find_merge, Option.or_eq_some_iff] at hq
  rcases hq with hq | ⟨-, hq⟩
  · exact hg x q hq
  · obtain ⟨r, hr, rfl⟩ := Option.map_eq_some_iff.mp hq
    exact hother x r hr

theorem resolve (hg : g.Listed) : g.resolve.1.Listed := by
  intro x q hq
  have hredraws := Stores.redraws_resolve g
  cases hfound : g.rules.find x with
  | none => cases hq.symm.trans (hredraws.missing x hfound)
  | some r =>
    obtain ⟨graph, hgraph, -⟩ := hredraws.found x r hfound
    obtain rfl := Option.some.inj (hq.symm.trans hgraph)
    exact hg x r hfound

theorem change {c : Change} (hg : g.Listed) (hc : c.Listed) : (g.change c).Listed := by
  cases c with
  | call c =>
    cases c with
    | define d =>
      rw [Grammar.change, perform]
      split
      · rename_i h hd
        obtain ⟨r, hr, hinserted⟩ := Attempt.bind_eq_ok.mp hd
        exact hg.insert (Rule.nodup_references_of_compile hr) hinserted
      · exact hg
    | resolve => exact hg.resolve
  | insert name r =>
    rw [Grammar.change]
    split
    · rename_i h hinserted
      exact hg.insert hc hinserted
    · exact hg
  | merge other => exact hg.merge hc

theorem changes {changes : List Change} (hg : g.Listed) (hchanges : ∀ c ∈ changes, c.Listed) :
    (changes.foldl Grammar.change g).Listed := by
  induction changes generalizing g with
  | nil => exact hg
  | cons c changes ih =>
    obtain ⟨hc, hchanges⟩ := List.forall_mem_cons.mp hchanges
    exact ih (hg.change hc) hchanges

end Listed

def chainsTo (g : Grammar) (name : String) : Set (List String) :=
  {c | (∃ e ∈ g.publicRules, c.head? = some e.1) ∧ c.IsChain (Refers g.rules.references) ∧
    c.getLast? = some name}

/-- All chains from public rules, the last name first. No chain has more references than there are
rules. -/
def chains (g : Grammar) : List (List String) :=
  (List.range (g.rules.entries.length + 1)).flatMap
    (chainsOf g.rules.references (g.publicRules.map (·.1)))

theorem breadthFirst_eq_chains (g : Grammar) :
    breadthFirst g.rules.references (g.rules.entries.length + 1) (g.publicRules.map (·.1)) =
      g.chains.filterMap List.head? := by
  have hstart : (chainsOf g.rules.references (g.publicRules.map (·.1)) 0).filterMap List.head? =
      g.publicRules.map (·.1) := by
    rw [chainsOf, List.filterMap_map]
    exact List.filterMap_some
  rw [chains, List.range_eq_range', ← breadthFirst_eq_heads, hstart]

theorem nodup_chains (hlisted : g.Listed) : g.chains.Nodup :=
  nodup_flatMap_chainsOf hlisted.nodup_references
    (g.rules.distinct.sublist (List.filter_sublist.map _)) _

theorem mem_chains (hacyclic : ∀ x, ¬ Relation.TransGen (Refers g.rules.references) x x)
    {c : List String} {name : String} :
    (c.reverse ∈ g.chains ∧ c.reverse.head? = some name) ↔ c ∈ g.chainsTo name := by
  have hnames : ∀ x, g.rules.references x ≠ [] → x ∈ g.rules.names :=
    fun x => RuleTable.mem_names_of_references
  rw [chains, List.mem_flatMap, chainsTo, Set.mem_ofPred_eq, List.head?_reverse]
  constructor
  · rintro ⟨⟨n, -, hc⟩, hname⟩
    obtain ⟨-, hchain, s, hs, hlast⟩ := mem_chainsOf.mp hc
    obtain ⟨e, he, rfl⟩ := List.mem_map.mp hs
    rw [List.getLast?_reverse] at hlast
    exact ⟨⟨e, he, hlast⟩, List.isChain_reverse.mp hchain, hname⟩
  · rintro ⟨⟨e, he, hhead⟩, hchain, hname⟩
    have hchain' : c.reverse.IsChain fun y x => y ∈ g.rules.references x :=
      List.isChain_reverse.mpr hchain
    have hle := length_le_of_isChain hacyclic hnames hchain'
    rw [RuleTable.names, List.length_map, List.length_reverse] at hle
    have hpos : 0 < c.length := List.length_pos_iff.mpr fun hnil => by simp [hnil] at hname
    refine ⟨⟨c.length - 1, List.mem_range.mpr (by omega), ?_⟩, hname⟩
    refine mem_chainsOf.mpr ⟨by rw [List.length_reverse]; omega, hchain', e.1,
      List.mem_map.mpr ⟨e, he, rfl⟩, ?_⟩
    rw [List.getLast?_reverse, hhead]

theorem chainsTo_eq_toFinset
    (hacyclic : ∀ x, ¬ Relation.TransGen (Refers g.rules.references) x x) (name : String) :
    g.chainsTo name =
      (((g.chains.filter (·.head? = some name)).map List.reverse).toFinset :
        Set (List String)) := by
  ext c
  rw [Finset.mem_coe, List.mem_toFinset, ← mem_chains hacyclic, List.mem_map]
  constructor
  · rintro ⟨hc, hname⟩
    exact ⟨c.reverse, List.mem_filter.mpr ⟨hc, by simpa using hname⟩, List.reverse_reverse c⟩
  · rintro ⟨d, hd, rfl⟩
    rw [List.reverse_reverse]
    simpa using hd

theorem ncard_chainsTo (hlisted : g.Listed)
    (hacyclic : ∀ x, ¬ Relation.TransGen (Refers g.rules.references) x x) (name : String) :
    (g.chainsTo name).ncard = (g.chains.filterMap List.head?).count name := by
  have hnodup : ((g.chains.filter (·.head? = some name)).map List.reverse).Nodup :=
    ((nodup_chains hlisted).filter _).map List.reverse_injective
  rw [chainsTo_eq_toFinset hacyclic, Set.ncard_coe_finset, List.toFinset_card_of_nodup hnodup,
    List.length_map, List.count_filterMap, List.countP_eq_length_filter]
  exact congrArg _ (List.filter_congr fun c _ => (Bool.beq_eq_decide_eq ..).symm)

theorem order_counts_chains (hlisted : g.Listed) (hvalid : g.validate = .ok ()) :
    ∃ order, g.compositionOrder = .ok order ∧
      (∃ n, (visit g.rules.references)^[n] ([], g.publicRules.map (·.1)) = (order, [])) ∧
      (∀ name, (g.chainsTo name).Finite ∧ (g.chainsTo name).ncard = order.count name) ∧
      (∀ before name after, order = before ++ name :: after →
        g.rules.references name ⊆ after) ∧
      ∀ name, ∀ x ∈ g.rules.references name, Precedes x name order.reverse.eraseDups := by
  have hacyclic := not_reaches_of_validate hvalid
  have hnames : ∀ x, g.rules.references x ≠ [] → x ∈ g.rules.names :=
    fun x => RuleTable.mem_names_of_references
  obtain ⟨order, horder⟩ : ∃ order, g.compositionOrder = .ok order := by
    rw [compositionOrder, hvalid]
    exact ⟨_, rfl⟩
  have hfollowed := (compositionOrder_eq_ok horder).2
  obtain ⟨-, -, hbreadth⟩ := Attempt.bind_eq_ok.mp horder
  obtain rfl := Except.ok.inj hbreadth
  refine ⟨_, horder, ?_, fun name => ⟨?_, ?_⟩, hfollowed, fun name x hx =>
    (hfollowed.precedes hx).eraseDups⟩
  · exact visit_breadthFirst hacyclic hnames (fun x _ => g.exists_trail x) []
  · rw [chainsTo_eq_toFinset hacyclic]
    exact Finset.finite_toSet _
  · rw [ncard_chainsTo hlisted hacyclic, breadthFirst_eq_chains]

theorem order_counts_chains_of_shared :
    let ds : List Definition := [⟨true, "<a>", "<c> <c>;"⟩, ⟨true, "<b>", "<c> <x>;"⟩,
      ⟨true, "<c>", "<d>;"⟩, ⟨false, "<d>", "d;"⟩]
    ∃ g order, ds.foldlM declare {} = .ok g ∧ g.Listed ∧ g.validate = .ok () ∧
      g.compositionOrder = .ok order ∧
      order = ["<a>", "<b>", "<c>", "<c>", "<c>", "<x>", "<d>", "<d>", "<d>"] ∧
      (g.chainsTo "<d>").ncard = 3 ∧ (g.chainsTo "<x>").ncard = 1 ∧
      Precedes "<d>" "<c>" order.reverse.eraseDups := by
  intro ds
  have hcheck : ((ds.foldlM declare {}).toOption.any fun g =>
      g.rules.entries.all (fun e => e.2.references.Nodup) &&
        g.validate.toOption.any (fun _ => true) &&
        decide ("<d>" ∈ g.rules.references "<c>") && g.compositionOrder.toOption == some
          ["<a>", "<b>", "<c>", "<c>", "<c>", "<x>", "<d>", "<d>", "<d>"]) = true := by
    decide +kernel
  obtain ⟨g, hg, hcheck⟩ := Attempt.exists_of_any hcheck
  obtain ⟨hcheck, horder⟩ := Bool.and_eq_true_iff.mp hcheck
  obtain ⟨hcheck, hrefers⟩ := Bool.and_eq_true_iff.mp hcheck
  obtain ⟨hentries, hcheck⟩ := Bool.and_eq_true_iff.mp hcheck
  have hlisted : g.Listed := fun name r hr =>
    of_decide_eq_true (List.all_eq_true.mp hentries _ (RuleTable.find_eq_some_iff.mp hr))
  obtain ⟨_, hvalid, -⟩ := Attempt.exists_of_any hcheck
  obtain ⟨order, hok, -, hcount, -, hprecedes⟩ := order_counts_chains hlisted hvalid
  rw [hok] at horder
  obtain rfl := Option.some.inj (eq_of_beq horder)
  exact ⟨g, _, hg, hlisted, hvalid, hok, rfl, (hcount "<d>").2, (hcount "<x>").2,
    hprecedes "<c>" "<d>" (of_decide_eq_true hrefers)⟩

end Grammar

end SpokenGrammar
