namespace SpokenGrammar

structure Edge where
  source : Nat
  target : Nat
  weight : Option Float := none
  deriving BEq, Repr

/-- The greater of two numbers; what is not a number gives way. -/
def greater (a b : Float) : Float :=
  if a.isNaN then b else if a < b then b else a

def heavier : Option Float → Option Float → Option Float
  | none, none => none
  | a, b => some (greater (a.getD 1) (b.getD 1))

def chained : Option Float → Option Float → Option Float
  | none, none => none
  | a, b => some (a.getD 1 * b.getD 1)

namespace Edge

def ends (e : Edge) : Nat × Nat :=
  (e.source, e.target)

def value (e : Edge) : Float :=
  e.weight.getD 1

end Edge

def addEdge (e : Edge) : List Edge → List Edge
  | [] => [e]
  | k :: rest =>
    if k.source = e.source ∧ k.target = e.target then
      { k with weight := heavier k.weight e.weight } :: rest
    else k :: addEdge e rest

theorem addEdge_cons (e k : Edge) (rest : List Edge) :
    addEdge e (k :: rest) =
      if k.ends = e.ends then { k with weight := heavier k.weight e.weight } :: rest
      else k :: addEdge e rest := by
  simp [addEdge, Edge.ends]

theorem ends_addEdge (e : Edge) (es : List Edge) :
    (addEdge e es).map Edge.ends =
      if e.ends ∈ es.map Edge.ends then es.map Edge.ends else es.map Edge.ends ++ [e.ends] := by
  induction es with
  | nil => simp [addEdge]
  | cons k rest ih =>
    rw [addEdge_cons]
    by_cases h : k.ends = e.ends
    · rw [if_pos h, if_pos (by simp [h])]
      rfl
    · rw [if_neg h, List.map_cons, ih, List.map_cons]
      simp only [List.mem_cons, Ne.symm h, false_or]
      split <;> rfl

theorem addEdge_of_not_mem {e : Edge} {es : List Edge} (h : e.ends ∉ es.map Edge.ends) :
    addEdge e es = es ++ [e] := by
  induction es with
  | nil => rfl
  | cons k rest ih =>
    simp only [List.map_cons, List.mem_cons, not_or] at h
    rw [addEdge_cons, if_neg (Ne.symm h.1), ih h.2]
    rfl

def Distinct (es : List Edge) : Prop :=
  (es.map Edge.ends).Nodup

theorem distinct_nil : Distinct [] :=
  List.nodup_nil

theorem Distinct.addEdge {es : List Edge} (h : Distinct es) (e : Edge) :
    Distinct (addEdge e es) := by
  unfold Distinct at *
  rw [ends_addEdge]
  split
  · exact h
  · rename_i he
    refine List.nodup_append.2 ⟨h, by simp, ?_⟩
    rintro a ha b hb rfl
    exact he (List.mem_singleton.1 hb ▸ ha)

def addEdges (es new : List Edge) : List Edge :=
  new.foldl (fun es e => addEdge e es) es

theorem Distinct.addEdges {es : List Edge} (h : Distinct es) (new : List Edge) :
    Distinct (addEdges es new) := by
  induction new generalizing es with
  | nil => exact h
  | cons e new ih => exact ih (h.addEdge e)

theorem mem_ends_addEdges {es new : List Edge} {x : Nat × Nat} :
    x ∈ (addEdges es new).map Edge.ends ↔
      x ∈ es.map Edge.ends ∨ x ∈ new.map Edge.ends := by
  induction new generalizing es with
  | nil => simp [addEdges]
  | cons e new ih =>
    change x ∈ (addEdges (addEdge e es) new).map Edge.ends ↔ _
    rw [ih, ends_addEdge, List.map_cons, List.mem_cons]
    split
    · rename_i he
      exact ⟨fun h => h.imp_right .inr, fun h => h.elim .inl fun h =>
        h.elim (fun h => .inl (h ▸ he)) .inr⟩
    · rw [List.mem_append, List.mem_singleton, or_assoc]

theorem addEdges_of_distinct {es new : List Edge} (h : Distinct (es ++ new)) :
    addEdges es new = es ++ new := by
  induction new generalizing es with
  | nil => simp [addEdges]
  | cons e new ih =>
    change addEdges (addEdge e es) new = _
    rw [addEdge_of_not_mem, ih]
    · simp
    · simpa using h
    · unfold Distinct at h
      rw [List.map_append, List.map_cons] at h
      intro he
      exact (List.nodup_append.1 h).2.2 _ he _ (List.mem_cons_self ..) rfl

def endsBefore (a b : Nat × Nat) : Bool :=
  a.1 < b.1 || (a.1 = b.1 && a.2 < b.2)

theorem endsBefore_trans {a b c : Nat × Nat} (h₁ : endsBefore a b = true)
    (h₂ : endsBefore b c = true) : endsBefore a c = true := by
  simp only [endsBefore, Bool.or_eq_true, Bool.and_eq_true, decide_eq_true_eq] at *
  omega

def ascending : List (Nat × Nat) → Bool
  | a :: b :: rest => endsBefore a b && ascending (b :: rest)
  | _ => true

theorem pairwise_of_ascending {xs : List (Nat × Nat)} (h : ascending xs = true) :
    xs.Pairwise fun a b => endsBefore a b = true := by
  induction xs with
  | nil => exact .nil
  | cons a xs ih =>
    cases xs with
    | nil => simp
    | cons b rest =>
      simp only [ascending, Bool.and_eq_true] at h
      have hb := ih h.2
      refine .cons (fun c hc => ?_) hb
      rcases List.mem_cons.1 hc with rfl | hc
      · exact h.1
      · exact endsBefore_trans h.1 ((List.pairwise_cons.1 hb).1 c hc)

def sortedEnds (es : List Edge) : List (Nat × Nat) :=
  (es.map Edge.ends).mergeSort fun a b => !endsBefore b a

theorem sortedEnds_perm (es : List Edge) : (sortedEnds es).Perm (es.map Edge.ends) :=
  List.mergeSort_perm ..

theorem distinct_of_ascending {es : List Edge} (h : ascending (sortedEnds es) = true) :
    Distinct es := by
  refine (sortedEnds_perm es).nodup_iff.1 ((pairwise_of_ascending h).imp fun hab heq => ?_)
  subst heq
  simp [endsBefore] at hab

/-- Adds all edges to none. Edges that are seen to be distinct stay as they are. -/
def mergeEdges (es : List Edge) : List Edge :=
  if ascending (sortedEnds es) then es else addEdges [] es

theorem mergeEdges_eq (es : List Edge) : mergeEdges es = addEdges [] es := by
  unfold mergeEdges
  split
  · rename_i h
    exact (addEdges_of_distinct (show Distinct ([] ++ es) from distinct_of_ascending h)).symm
  · rfl

theorem distinct_mergeEdges (es : List Edge) : Distinct (mergeEdges es) :=
  mergeEdges_eq es ▸ distinct_nil.addEdges es

theorem mem_ends_mergeEdges {es : List Edge} {x : Nat × Nat} :
    x ∈ (mergeEdges es).map Edge.ends ↔ x ∈ es.map Edge.ends := by
  simp [mergeEdges_eq, mem_ends_addEdges]

theorem mergeEdges_of_distinct {es : List Edge} (h : Distinct es) : mergeEdges es = es :=
  (mergeEdges_eq es).trans (addEdges_of_distinct (show Distinct ([] ++ es) from h))

end SpokenGrammar
