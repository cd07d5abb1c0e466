import Mathlib.Data.List.Permutation
import SpokenGrammar.Proofs.Graph.Reweighing
import SpokenGrammar.Proofs.Rule.Compiled
import SpokenGrammar.Proofs.Rule.Sentences

namespace SpokenGrammar

variable {r guest : Rule} {t : RuleTable} {name : String} {todo : List Nat} {g h : Graph} {i : Nat}
  {w : List Char}

def Graph.text (g : Graph) (i : Nat) : List Char :=
  (g.tokens[i]?).elim [] fun t => t.spelling.toList

namespace Rule

def sentences (r : Rule) : Language Char :=
  {w | ∃ ss, r.enumerate none = .ok ss ∧ String.ofList w ∈ ss}

theorem mem_sentences (hspan : r.graph.Spanning) :
    w ∈ r.sentences ↔ ∃ p ∈ r.graph.paths, w = r.graph.spell p := by
  obtain ⟨ss, hss, hmem⟩ := exists_enumerate hspan
  have hspells := r.spells_iff (String.ofList w)
  rw [String.toList_ofList, ← hmem] at hspells
  rw [hspells]
  constructor
  · rintro ⟨ss', hss', hw⟩
    exact Except.ok.inj (hss.symm.trans hss') ▸ hw
  · exact fun hw => ⟨ss, hss, hw⟩

theorem sentences_eq (hspan : r.graph.Spanning) :
    r.sentences = substitute (fun i => {r.graph.text i}) r.graph.paths := by
  ext w
  rw [mem_sentences hspan, mem_substitute_word]
  rfl

/-- A node stands for its text, and one that refers to a rule of the table for any sentence of the
rule. -/
def filling (t : RuleTable) (g : Graph) (i : Nat) : Language Char :=
  match g.tokens[i]? with
  | some (.reference name) => (t.find name).elim 0 sentences
  | some token => {token.spelling.toList}
  | none => {[]}

theorem filling_reference (hname : g.tokens[i]? = some (.reference name))
    (hguest : t.find name = some guest) : filling t g i = guest.sentences := by
  have hfilling : filling t g i = (t.find name).elim 0 sentences := by
    rw [filling, hname]
  rw [hfilling, hguest]
  rfl

theorem filling_eq_text (hname : ∀ name, g.tokens[i]? ≠ some (.reference name)) :
    filling t g i = {g.text i} := by
  rw [filling, Graph.text]
  split
  · rename_i name htoken
    exact absurd htoken (hname name)
  · rename_i token htoken
    rw [htoken]
    rfl
  · rename_i htoken
    rw [htoken]
    rfl

def fillingAt (t : RuleTable) (todo : List Nat) (g : Graph) (i : Nat) : Language Char :=
  if i ∈ todo then filling t g i else {g.text i}

theorem fillingAt_nil (t : RuleTable) (g : Graph) : fillingAt t [] g = fun i => {g.text i} :=
  funext fun _ => if_neg List.not_mem_nil

theorem fillingAt_splice_host {p : Nat} (hsplice : g.splice guest.graph p = .ok h)
    (hi : i < g.tokens.length) (hip : i ≠ p) :
    fillingAt t todo h i = fillingAt t (p :: todo) g i := by
  have hsame : h.tokens[i]? = g.tokens[i]? := by
    rw [Graph.tokens_splice hsplice, List.getElem?_append_left hi]
  simp only [fillingAt, List.mem_cons, hip, false_or, filling, Graph.text, hsame]

theorem fillingAt_splice_guest {p : Nat} (hsplice : g.splice guest.graph p = .ok h)
    (htodo : ∀ i ∈ todo, i < g.tokens.length) (i : Nat) :
    fillingAt t todo h (i + g.tokens.length) = {guest.graph.text i} := by
  have hspent : i + g.tokens.length ∉ todo := by
    intro hi
    have hlt := htodo _ hi
    omega
  rw [fillingAt, if_neg hspent, Graph.text, Graph.tokens_splice hsplice,
    List.getElem?_append_right (Nat.le_add_left ..), Nat.add_sub_cancel]
  rfl

end Rule

/-- A graph of which the places still left are to be filled from the table to say what `r` filled
from it says. -/
structure Filling (t : RuleTable) (r : Rule) (todo : List Nat) (g : Graph) : Prop
    extends Pending r todo g where
  sentences : substitute (Rule.fillingAt t todo g) g.paths =
    substitute (Rule.filling t r.graph) r.graph.paths
  settled : (∀ name guest, t.find name = some guest → guest.graph.Settled) →
    ∀ i name, g.Touched i → g.tokens[i]? = some (.reference name) → i ∈ todo

namespace Filling

theorem start (hr : r.Compiled fun _ => False) :
    Filling t r (r.called.flatMap r.places) r.graph where
  toPending := .start hr.composed.spanning
  sentences := by
    refine substitute_congr fun p hp i hi => ?_
    obtain ⟨u, v, hspan⟩ := hr.composed.spanning
    rw [Rule.fillingAt]
    split
    · rfl
    · rename_i htodo
      refine (Rule.filling_eq_text fun name hname => ?_).symm
      exact htodo ((hr.mem_todo (hspan.touched_of_mem hp hi) hname).resolve_right id)
  settled := fun _ _ _ hi hname => (hr.mem_todo hi hname).resolve_right id

theorem exists_splice (hf : Filling t r (i :: todo) g) (hfind : t.find name = some guest)
    (hguest : guest.graph.Spanning) (htoken : r.graph.tokens[i]? = some (.reference name))
    (hi : i ∉ todo) : ∃ h, g.splice guest.graph i = .ok h ∧ Filling t r todo h := by
  obtain ⟨h, hsplice⟩ := hf.toPending.exists_splice hguest
  obtain ⟨u, v, hspan⟩ := hf.spanning
  have htodo : ∀ j ∈ todo, j < g.tokens.length := fun j hj =>
    hspan.lt_of_touched (hf.touched j (List.mem_cons_of_mem _ hj))
  refine ⟨h, hsplice, hf.toPending.splice hguest hi hsplice, ?_,
    fun hsettled j name' hj hname' => ?_⟩
  · rw [← hf.sentences]
    refine Graph.substitute_splice hf.spanning hguest hsplice
      (fun j hj => Rule.fillingAt_splice_host hsplice (hspan.lt_of_touched hj)) ?_
    rw [Rule.fillingAt, if_pos List.mem_cons_self, Rule.filling_reference (hf.token htoken) hfind,
      Rule.sentences_eq hguest]
    exact congrArg (substitute · _) (funext (Rule.fillingAt_splice_guest hsplice htodo))
  · rcases Graph.token_splice_cases hf.spanning hguest hsplice hj hname' with
      ⟨hji, hj, hhost⟩ | ⟨y, hy, hguest', rfl⟩
    · exact (List.mem_cons.mp (hf.settled hsettled j name' hj hhost)).resolve_left hji
    · exact absurd hguest' (hsettled name guest hfind y name' hy)

theorem mem_sentences (hf : Filling t r [] g) :
    (∃ p ∈ g.paths, w = g.spell p) ↔
      ∃ p ∈ r.graph.paths, w ∈ (p.map (Rule.filling t r.graph)).prod := by
  rw [← mem_substitute, ← hf.sentences, Rule.fillingAt_nil, mem_substitute_word]
  rfl

end Filling

namespace Rule

variable {expression : String} {isPublic : Bool} {body : List Token}

theorem resolve_substitutes (hcompile : compile {} expression isPublic = .ok r)
    (hread : Token.read {} expression = .ok (body ++ [.mark .terminator, .finish]))
    (hguests : ∀ name ∈ r.references, ∃ guest, t.find name = some guest ∧ guest.graph.Bipolar) :
    ∃ q, r.resolve t = .ok q ∧ q.expression = r.expression ∧ q.isPublic = r.isPublic ∧
      q.references = r.references ∧
      (∃ ss, q.enumerate none = .ok ss ∧
        ∀ s : String, s ∈ ss ↔ ∃ p ∈ r.graph.paths, s.toList ∈ (p.map (filling t r.graph)).prod) ∧
      ((∀ name guest, t.find name = some guest → guest.graph.Settled) →
        q.graph.Settled ∧ q.resolve t = .ok q) := by
  obtain ⟨hcompiled, hcalled⟩ := compiled_of_terminated hcompile hread
  have hstep : ∀ name ∈ r.called, ∀ guest, t.find name = some guest → ∀ i todo g,
      r.graph.tokens[i]? = some (.reference name) → i ∉ todo → Filling t r (i :: todo) g →
      ∃ h, g.splice guest.graph i = .ok h ∧ Filling t r todo h := by
    intro name hname guest hfind i todo g htoken hi hf
    obtain ⟨guest', hfind', hbipolar⟩ := hguests name (hcalled ▸ hname)
    obtain rfl := Option.some.inj (hfind.symm.trans hfind')
    exact hf.exists_splice hfind ⟨_, _, hbipolar.spans⟩ htoken hi
  rcases resolve_cases hcompiled.distinct hstep (.start hcompiled) with
    ⟨g, hg, hf⟩ | ⟨name, hname, hnone, -⟩
  · refine ⟨_, hg, rfl, rfl, rfl, ?_, fun hsettled => ?_⟩
    · obtain ⟨ss, hss, hmem⟩ := exists_enumerate (r := { r with graph := g }) hf.spanning
      refine ⟨ss, hss, fun s => ?_⟩
      rw [hmem, ← spells_iff, hf.mem_sentences]
    · have hdone : g.Settled := by
        intro i name hi hname
        cases hf.settled hsettled i name hi hname
      refine ⟨hdone, resolve_eq_self hdone fun name hname => ?_⟩
      obtain ⟨guest, hfind, -⟩ := hguests name (List.mem_filter.mp hname).1
      exact ⟨guest, hfind⟩
  · obtain ⟨guest, hfind, -⟩ := hguests name (hcalled ▸ hname)
    cases hnone.symm.trans hfind

theorem resolve_substitutes_of_repeated :
    ∃ r guest q, compile {} "<a>-<a>;" true = .ok r ∧ compile {} "x|y;" false = .ok guest ∧
      guest.graph.Bipolar ∧ guest.graph.Settled ∧
      r.resolve (.add .empty "<a>" guest) = .ok q ∧
      (∃ p ∈ r.graph.paths,
        "x-y".toList ∈ (p.map (filling (.add .empty "<a>" guest) r.graph)).prod) ∧
      q.graph.Settled ∧ q.resolve (.add .empty "<a>" guest) = .ok q := by
  have hread : Token.read {} "<a>-<a>;" =
      .ok ([.start, .reference "<a>", .text "-" none, .reference "<a>"] ++
        [.mark .terminator, .finish]) := by
    decide +kernel
  have hread' : Token.read {} "x|y;" =
      .ok ([.start, .text "x" none, .mark .alternative, .text "y" none] ++
        [.mark .terminator, .finish]) := by
    decide +kernel
  have hcheck : ((Graph.ofTokens ([.start, .reference "<a>", .text "-" none, .reference "<a>"] ++
      [.mark .terminator, .finish])).toOption.any fun g =>
        (Graph.ofTokens ([.start, .text "x" none, .mark .alternative, .text "y" none] ++
          [.mark .terminator, .finish])).toOption.any fun h =>
            (g.allPaths none).toOption.any (· == [[0, 1, 2, 3, 4, 5]]) &&
              (h.allPaths none).toOption.any (· == [[0, 1, 4, 5], [0, 3, 4, 5]])) = true := by
    cbv
  obtain ⟨g, hg, hcheck⟩ := Attempt.exists_of_any hcheck
  obtain ⟨h, hh, hcheck⟩ := Attempt.exists_of_any hcheck
  obtain ⟨hcheck, hcheck'⟩ := Bool.and_eq_true_iff.mp hcheck
  obtain ⟨ps, hps, hcheck⟩ := Attempt.exists_of_any hcheck
  obtain ⟨qs, hqs, hcheck'⟩ := Attempt.exists_of_any hcheck'
  obtain rfl := beq_iff_eq.mp hcheck
  obtain rfl := beq_iff_eq.mp hcheck'
  obtain ⟨r, hr, hnames, rfl⟩ : ∃ r, compile {} "<a>-<a>;" true = .ok r ∧
      r.references = ["<a>"] ∧ r.graph = g :=
    ⟨_, compile_of_bare true hread hg (by decide), rfl, rfl⟩
  obtain ⟨guest, hguest, hnone, rfl⟩ : ∃ guest, compile {} "x|y;" false = .ok guest ∧
      guest.references = [] ∧ guest.graph = h :=
    ⟨_, compile_of_bare false hread' hh (by decide), rfl, rfl⟩
  obtain ⟨hcompiled, hcalled⟩ := compiled_of_terminated hguest hread'
  obtain ⟨u, v, hspan⟩ := hcompiled.composed.spanning
  have hsettled : guest.graph.Settled := by
    intro i name hi hname
    rcases hcompiled.composed.residue i name hi hname with hname | hname
    · rw [hcalled, hnone] at hname
      cases hname
    · exact hname
  have hfind : ∀ name guest', (RuleTable.add .empty "<a>" guest).find name = some guest' ↔
      name = "<a>" ∧ guest' = guest := by
    intro name guest'
    rw [RuleTable.find_eq_some_iff, ← Prod.mk.injEq]
    exact List.mem_singleton
  have hguests : ∀ name ∈ r.references, ∃ guest', (RuleTable.add .empty "<a>" guest).find name =
      some guest' ∧ guest'.graph.Bipolar := by
    intro name hname
    obtain rfl := List.mem_singleton.mp (hnames ▸ hname)
    exact ⟨guest, (hfind _ _).mpr ⟨rfl, rfl⟩, hspan.bipolar⟩
  obtain ⟨q, hq, -, -, -, -, hdone⟩ := resolve_substitutes hr hread hguests
  obtain ⟨hsettled', hagain⟩ := hdone fun name guest' hfound => by
    obtain ⟨-, rfl⟩ := (hfind _ _).mp hfound
    exact hsettled
  have hpath : [0, 1, 2, 3, 4, 5] ∈ r.graph.paths := by
    obtain ⟨s, t, hspan'⟩ := (compiled_of_terminated hr hread).1.composed.spanning
    exact (hspan'.mem_of_allPaths hps _).mp (List.mem_singleton_self _)
  have hsaid : ∀ s ∈ ["x", "y"], s.toList ∈ guest.sentences := by
    intro s hs
    have hrecorded : [[0, 1, 4, 5], [0, 3, 4, 5]].map guest.record = ["x", "y"] := by
      simp only [List.map_cons, List.map_nil, record, Graph.tokens_of_ofTokens hh]
      decide +kernel
    exact ⟨_, Attempt.map_eq_ok.mpr ⟨_, hqs, hrecorded⟩, by rwa [String.ofList_toList]⟩
  have hfilled : [] ++ ("x".toList ++ ("-".toList ++ ("y".toList ++ ([] ++ ([] ++ []))))) ∈
      ([0, 1, 2, 3, 4, 5].map (filling (.add .empty "<a>" guest) r.graph)).prod := by
    have htokens := Graph.tokens_of_ofTokens hg
    have hreference : ∀ i s, r.graph.tokens[i]? = some (.reference "<a>") → s ∈ ["x", "y"] →
        s.toList ∈ filling (.add .empty "<a>" guest) r.graph i := by
      intro i s hi hs
      rw [filling_reference hi ((hfind _ _).mpr ⟨rfl, rfl⟩)]
      exact hsaid s hs
    have hx := hreference 1 "x" (by rw [htokens]; rfl) (by simp)
    have hy := hreference 3 "y" (by rw [htokens]; rfl) (by simp)
    refine Language.append_mem_mul ?_ (Language.append_mem_mul hx (Language.append_mem_mul ?_
      (Language.append_mem_mul hy (Language.append_mem_mul ?_ (Language.append_mem_mul ?_ rfl)))))
    all_goals
      rw [filling, htokens]
      rfl
  exact ⟨r, guest, q, hr, hguest, hspan.bipolar, hsettled, hq, ⟨_, hpath, hfilled⟩, hsettled',
    hagain⟩

end Rule

end SpokenGrammar
