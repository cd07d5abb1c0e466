import Mathlib.Data.List.Permutation
import SpokenGrammar.Proofs.Graph.Reweighing
import SpokenGrammar.Proofs.Rule.Sentences

namespace SpokenGrammar

variable {α β : Type} [Recorder α] [Recorder β] {f : α → β}

namespace Recorder

structure Maps (f : α → β) : Prop where
  blank : f blank = blank
  node : ∀ n a, f (node n a) = node n (f a)
  text : ∀ t a, f (text t a) = text t (f a)
  reference : ∀ t a, f (reference t a) = reference t (f a)

theorem maps_fst : Maps (Prod.fst : α × β → α) :=
  ⟨rfl, fun _ _ => rfl, fun _ _ => rfl, fun _ _ => rfl⟩

theorem maps_snd : Maps (Prod.snd : α × β → β) :=
  ⟨rfl, fun _ _ => rfl, fun _ _ => rfl, fun _ _ => rfl⟩

theorem maps_toByteArray : Maps String.toByteArray :=
  ⟨rfl, fun _ _ => rfl, fun _ _ => String.toByteArray_append,
    fun _ _ => String.toByteArray_append⟩

def identifier (nodes : List Nat) : UInt64 :=
  nodes.foldl (fun id n => stir (stir 0 (.ofNat n)) id) 0xffffffffffffffff

theorem maps_identifier : Maps identifier := by
  refine ⟨rfl, fun n nodes => ?_, fun _ _ => rfl, fun _ _ => rfl⟩
  change identifier (nodes ++ [n]) = _
  rw [identifier, List.foldl_append]
  rfl

end Recorder

theorem Token.map_record (h : Recorder.Maps f) (i : Nat) (t : Option Token) (a : α) :
    f (record i t a) = record i t (f a) := by
  cases t with
  | none => exact h.node i a
  | some t =>
    cases t with
    | reference name => exact (h.reference name _).trans (congrArg _ (h.node i a))
    | _ => simp only [record, apply_ite f, h.text, h.node]

namespace Rule

theorem map_record (h : Recorder.Maps f) (r : Rule) (nodes : List Nat) :
    f (r.record nodes) = r.record nodes := by
  rw [record, record, ← h.blank]
  exact (List.foldl_hom f fun a i => (Token.map_record h i _ a).symm).symm

def textAt (r : Rule) (i : Nat) : String :=
  r.graph.tokens[i]?.elim "" Token.spelling

theorem record_join (r : Rule) (nodes : List Nat) :
    r.record nodes = String.join (nodes.map r.textAt) := by
  have hspell : (String.join (nodes.map r.textAt)).toList = r.graph.spell nodes := by
    rw [String.toList_join, List.flatMap_map, Graph.spell]
    refine List.flatMap_congr fun i _ => ?_
    rw [textAt]
    cases r.graph.tokens[i]? <;> rfl
  rw [record_eq, ← hspell, String.ofList_toList]

theorem record_nodes (r : Rule) (nodes : List Nat) : r.record nodes = nodes := by
  have hnode : ∀ (i : Nat) (t : Option Token) (l : List Nat), Token.record i t l = l ++ [i] := by
    intro i t l
    cases t with
    | none => rfl
    | some t => cases t <;> simp [Token.record, Recorder.node, Recorder.reference, Recorder.text]
  rw [record, funext fun l => funext fun i => hnode i _ l, List.foldl_append_eq_append,
    ← List.flatMap_def, List.flatMap_singleton']
  rfl

end Rule

/-- A rule with a copy of what each node adds to a sentence. -/
structure Templated extends Rule where
  template : List String

namespace Templated

variable {s u : Templated}

def of (r : Rule) : Templated where
  toRule := r
  template := r.spellings

def compile (p : Punctuation) (expression : String) (isPublic : Bool) : Except Fault Templated :=
  (Rule.compile p expression isPublic).map of

def toPrivate (s : Templated) : Templated :=
  { s with isPublic := false }

def elide (s : Templated) : Templated :=
  { s with graph := s.graph.elide }

def resolve (s : Templated) (t : RuleTable) : Except Fault Templated :=
  if s.references.isEmpty then .ok s else (s.toRule.resolve t).map of

def visit (s : Templated) (a : α) (i : Nat) : α :=
  let a := Recorder.node i a
  let text := s.template[i]?.getD ""
  match s.graph.tokens[i]? with
  | some (.reference _) => Recorder.reference text a
  | _ => if text = "" then a else Recorder.text text a

def materialize (s : Templated) (nodes : List Nat) : α :=
  nodes.foldl s.visit Recorder.blank

inductive Derived : Templated → Prop where
  | compile {p : Punctuation} {expression : String} {isPublic : Bool} {s : Templated} :
      compile p expression isPublic = .ok s → Derived s
  | resolve {s u : Templated} {t : RuleTable} : Derived s → s.resolve t = .ok u → Derived u
  | elide {s : Templated} : Derived s → Derived s.elide
  | toPrivate {s : Templated} : Derived s → Derived s.toPrivate

theorem elide_of (r : Rule) : (of r).elide = of r.elide := by
  simp [of, elide, Rule.elide, Rule.spellings, Graph.tokens_elide]

theorem toPrivate_of (r : Rule) : (of r).toPrivate = of r.toPrivate :=
  rfl

theorem resolve_of (r : Rule) (t : RuleTable) : (of r).resolve t = (r.resolve t).map of := by
  rw [resolve]
  split
  · rename_i hnone
    have hcalled : r.called = [] := by
      rw [Rule.called, show r.references = [] from List.isEmpty_iff.mp hnone]
      rfl
    rw [Rule.resolve_eq, hcalled]
    rfl
  · rfl

theorem getElem?_template_of (r : Rule) (i : Nat) :
    (of r).template[i]? = r.graph.tokens[i]?.map Token.spelling :=
  List.getElem?_map

theorem visit_of (r : Rule) (a : α) (i : Nat) :
    (of r).visit a i = Token.record i r.graph.tokens[i]? a := by
  rw [visit, getElem?_template_of, show (of r).graph = r.graph from rfl]
  cases r.graph.tokens[i]? with
  | none => rfl
  | some t => cases t <;> rfl

theorem materialize_of (r : Rule) (nodes : List Nat) :
    ((of r).materialize nodes : α) = r.record nodes := by
  have hvisit : (of r).visit = fun (a : α) i => Token.record i r.graph.tokens[i]? a :=
    funext fun a => funext (visit_of r a)
  rw [materialize, hvisit, Rule.record]

theorem Derived.exists_of (h : Derived s) : ∃ r, s = of r := by
  induction h with
  | compile hs =>
    obtain ⟨r, -, rfl⟩ := Attempt.map_eq_ok.mp hs
    exact ⟨r, rfl⟩
  | @resolve s u t _ hu ih =>
    obtain ⟨r, rfl⟩ := ih
    rw [resolve_of] at hu
    obtain ⟨q, -, rfl⟩ := Attempt.map_eq_ok.mp hu
    exact ⟨q, rfl⟩
  | elide _ ih =>
    obtain ⟨r, rfl⟩ := ih
    exact ⟨r.elide, elide_of r⟩
  | toPrivate _ ih =>
    obtain ⟨r, rfl⟩ := ih
    exact ⟨r.toPrivate, toPrivate_of r⟩

/-- The copy is never out of date, and a tuple of recorders, as nested pairs, takes down what each
of them does alone. -/
theorem Derived.recorders_agree (h : Derived s) :
    s.template.length = s.graph.tokens.length ∧
    (∀ i : Nat, s.template[i]? = s.graph.tokens[i]?.map Token.spelling) ∧
    ∀ nodes : List Nat,
      (∀ (α : Type) [Recorder α], (s.materialize nodes : α) = s.toRule.record nodes) ∧
      s.materialize nodes = String.join (nodes.map s.textAt) ∧
      s.materialize nodes = (String.join (nodes.map s.textAt)).toByteArray ∧
      s.materialize nodes = nodes ∧
      s.materialize nodes = Recorder.identifier nodes ∧
      (∀ (α β : Type) [Recorder α] [Recorder β],
        (s.materialize nodes : α × β) = (s.materialize nodes, s.materialize nodes)) ∧
      ∀ (α β γ δ ε ζ : Type) [Recorder α] [Recorder β] [Recorder γ] [Recorder δ] [Recorder ε]
        [Recorder ζ], (s.materialize nodes : α × β × γ × δ × ε × ζ) =
          (s.materialize nodes, s.materialize nodes, s.materialize nodes, s.materialize nodes,
            s.materialize nodes, s.materialize nodes) := by
  obtain ⟨r, rfl⟩ := h.exists_of
  have hpair : ∀ (nodes : List Nat) (α β : Type) [Recorder α] [Recorder β],
      (r.record nodes : α × β) = (r.record nodes, r.record nodes) := by
    intro nodes α β _ _
    exact Prod.ext (r.map_record Recorder.maps_fst nodes) (r.map_record Recorder.maps_snd nodes)
  refine ⟨List.length_map _, getElem?_template_of r, fun nodes => ?_⟩
  simp only [materialize_of]
  refine ⟨fun α _ => rfl, r.record_join nodes, ?_, r.record_nodes nodes, ?_,
    fun α β _ _ => hpair nodes α β, ?_⟩
  · exact (r.map_record Recorder.maps_toByteArray nodes).symm.trans
      (congrArg _ (r.record_join nodes))
  · exact (r.map_record Recorder.maps_identifier nodes).symm.trans
      (congrArg _ (r.record_nodes nodes))
  · intro α β γ δ ε ζ _ _ _ _ _ _
    simp only [hpair nodes]

theorem Derived.recorders_agree_of_greeting :
    ∃ s : Templated, s.Derived ∧ s.isPublic = false ∧
      s.template = ["", "hi ", "<name>", "", "", "", "bob ", "", "ann", "", ""] ∧
      s.materialize [1, 6, 99, 2] = "hi bob <name>" ∧
      s.materialize [1, 6, 99, 2] = "hi bob <name>".toByteArray ∧
      (s.materialize [1, 6, 99, 2] : List Nat × String) = ([1, 6, 99, 2], "hi bob <name>") := by
  have hread : Token.read {} "hi <name>;" =
      .ok [.start, .text "hi " none, .reference "<name>", .mark .terminator, .finish] := by
    decide +kernel
  have hcheck : ((Graph.ofTokens [.start, .text "hi " none, .reference "<name>",
      .mark .terminator, .finish]).toOption.any fun g =>
        (Graph.ofTokens [.start, .text "bob " none, .mark .alternative, .text "ann" none,
          .mark .terminator, .finish]).toOption.any fun h =>
            (Rule.resolve ⟨"hi <name>;", true, ["<name>"], g⟩
              (.add .empty "<name>" ⟨"bob |ann;", false, [], h⟩)).toOption.any fun r =>
                r.graph.tokens == [.start, .text "hi " none, .reference "<name>",
                  .mark .terminator, .finish, .start, .text "bob " none, .mark .alternative,
                  .text "ann" none, .mark .terminator, .finish]) = true := by
    cbv
  obtain ⟨g, hg, hcheck⟩ := Attempt.exists_of_any hcheck
  obtain ⟨h, -, hcheck⟩ := Attempt.exists_of_any hcheck
  obtain ⟨r, hr, htokens⟩ := Attempt.exists_of_any hcheck
  have hcompile : Templated.compile {} "hi <name>;" true =
      .ok (of ⟨"hi <name>;", true, ["<name>"], g⟩) :=
    Attempt.map_eq_ok.mpr ⟨_, Rule.compile_of_bare true hread hg (by decide), rfl⟩
  have hresolve : (of ⟨"hi <name>;", true, ["<name>"], g⟩).resolve
      (.add .empty "<name>" ⟨"bob |ann;", false, [], h⟩) = .ok (of r) :=
    (resolve_of _ _).trans (Attempt.map_eq_ok.mpr ⟨r, hr, rfl⟩)
  obtain ⟨s, hs⟩ : ∃ s, s = (of r).elide.toPrivate := ⟨_, rfl⟩
  have hderived : s.Derived := hs ▸ .toPrivate (.elide (.resolve (.compile hcompile) hresolve))
  have htemplate : s.template =
      ["", "hi ", "<name>", "", "", "", "bob ", "", "ann", "", ""] := by
    rw [hs]
    change r.graph.tokens.map Token.spelling = _
    rw [beq_iff_eq.mp htokens]
    rfl
  obtain ⟨-, hentry, hrecord⟩ := hderived.recorders_agree
  have htext : ∀ i, s.textAt i = s.template[i]?.getD "" := by
    intro i
    rw [hentry, Rule.textAt]
    cases s.graph.tokens[i]? <;> rfl
  have hjoin : String.join ([1, 6, 99, 2].map s.textAt) = "hi bob <name>" := by
    rw [funext htext, htemplate]
    decide
  obtain ⟨-, hsentence, hbytes, hnodes, -, hpair, -⟩ := hrecord [1, 6, 99, 2]
  rw [hjoin] at hsentence hbytes
  refine ⟨s, hderived, hs ▸ rfl, htemplate, hsentence, hbytes, ?_⟩
  rw [hpair, hnodes, hsentence]

end Templated

end SpokenGrammar
