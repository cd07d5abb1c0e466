import SpokenGrammar.Proofs.Rule.Template

namespace SpokenGrammar

def Siblings (p q : List Nat) : Prop :=
  p.length = q.length ∧ ∃! i : Nat, p[i]? ≠ q[i]?

variable {p q : List Nat} {m n : Nat}

theorem siblings_append (before after : List Nat) (h : m ≠ n) :
    Siblings (before ++ m :: after) (before ++ n :: after) := by
  refine ⟨by simp, before.length, by simpa using h, fun i hi => ?_⟩
  by_contra hne
  refine hi ?_
  rcases Nat.lt_or_gt_of_ne hne with hlt | hgt
  · rw [List.getElem?_append_left hlt, List.getElem?_append_left hlt]
  · obtain ⟨k, rfl⟩ := Nat.exists_eq_add_of_lt hgt
    rw [List.getElem?_append_right (by omega), List.getElem?_append_right (by omega),
      show before.length + k + 1 - before.length = k + 1 by omega]
    rfl

theorem Siblings.exists_parts (h : Siblings p q) : ∃ before m n after,
    p = before ++ m :: after ∧ q = before ++ n :: after ∧ m ≠ n := by
  obtain ⟨hlength, i, hi, hother⟩ := h
  have hagree : ∀ j, j ≠ i → p[j]? = q[j]? := fun j hj => by_contra fun h => hj (hother j h)
  have hp : i < p.length := by
    by_contra hlt
    exact hi (by rw [List.getElem?_eq_none (by omega), List.getElem?_eq_none (by omega)])
  have hq : i < q.length := hlength ▸ hp
  have hbefore : p.take i = q.take i := by
    refine List.ext_getElem? fun j => ?_
    rw [List.getElem?_take, List.getElem?_take]
    split
    · exact hagree j (by omega)
    · rfl
  have hafter : p.drop (i + 1) = q.drop (i + 1) := by
    refine List.ext_getElem? fun j => ?_
    rw [List.getElem?_drop, List.getElem?_drop]
    exact hagree _ (by omega)
  refine ⟨p.take i, p[i], q[i], p.drop (i + 1), ?_, ?_, fun heq => ?_⟩
  · rw [← List.drop_eq_getElem_cons hp, List.take_append_drop]
  · rw [hbefore, hafter, ← List.drop_eq_getElem_cons hq, List.take_append_drop]
  · exact hi (by rw [List.getElem?_eq_getElem hp, List.getElem?_eq_getElem hq, heq])

namespace Recorder

theorem rotate_injective : Function.Injective fun hash : UInt64 => hash <<< 5 ||| hash >>> 59 := by
  have hrotate : ∀ hash : UInt64,
      (hash <<< 5 ||| hash >>> 59).toBitVec = hash.toBitVec.rotateLeft 5 := by
    intro hash
    rw [BitVec.rotateLeft_def]
    rfl
  have hback : ∀ v : BitVec 64, (v.rotateLeft 5).rotateRight 5 = v := by
    intro v
    ext i hi
    grind
  intro hash hash' h
  have hbits := congrArg UInt64.toBitVec h
  dsimp only at hbits
  rw [hrotate, hrotate] at hbits
  rw [← UInt64.toBitVec_inj, ← hback hash.toBitVec, hbits, hback]

theorem multiply_injective : Function.Injective fun hash : UInt64 => hash * 0x517cc1b727220a95 := by
  -- The multiplier is odd.
  have hinverse : (0x517cc1b727220a95 * 0x2040003d780970bd : UInt64) = 1 := by decide
  intro hash hash' h
  have hback := congrArg (· * 0x2040003d780970bd) h
  simpa only [UInt64.mul_assoc, hinverse, UInt64.mul_one] using hback

theorem stir_left_injective (word : UInt64) : Function.Injective (stir · word) := by
  intro hash hash' h
  exact rotate_injective ((UInt64.xor_left_inj word).mp (multiply_injective h))

theorem stir_right_injective (hash : UInt64) : Function.Injective (stir hash) := by
  intro word word' h
  exact (UInt64.xor_right_inj _).mp (multiply_injective h)

theorem node_injective (n : Nat) : Function.Injective (node n : UInt64 → UInt64) :=
  stir_right_injective _

theorem eq_of_node_eq {hash : UInt64} (hm : m < 2 ^ 64) (hn : n < 2 ^ 64)
    (h : node m hash = node n hash) : m = n := by
  have hword : UInt64.ofNat m = UInt64.ofNat n :=
    stir_right_injective 0 (stir_left_injective hash h)
  have hnat := congrArg UInt64.toNat hword
  rwa [UInt64.toNat_ofNat_of_lt' hm, UInt64.toNat_ofNat_of_lt' hn] at hnat

theorem foldl_node_injective (s : List Nat) :
    Function.Injective fun hash : UInt64 => s.foldl (fun hash n => node n hash) hash := by
  induction s with
  | nil => exact fun _ _ h => h
  | cons n s ih => exact fun _ _ h => node_injective n (ih h)

theorem identifier_append (p s : List Nat) :
    identifier (p ++ s) = s.foldl (fun hash n => node n hash) (identifier p) :=
  List.foldl_append

theorem identifier_append_eq_iff (p q s : List Nat) :
    identifier (p ++ s) = identifier (q ++ s) ↔ identifier p = identifier q := by
  rw [identifier_append, identifier_append]
  exact (foldl_node_injective s).eq_iff

theorem identifier_ne (h : Siblings p q) (hp : ∀ n ∈ p, n < 2 ^ 64) (hq : ∀ n ∈ q, n < 2 ^ 64) :
    identifier p ≠ identifier q := by
  obtain ⟨before, m, n, after, rfl, rfl, hne⟩ := h.exists_parts
  rw [identifier_append, identifier_append]
  intro heq
  have hnode := foldl_node_injective after heq
  exact hne (eq_of_node_eq (hp m (by simp)) (hq n (by simp)) hnode)

end Recorder

namespace Rule

theorem record_identifier (r : Rule) (nodes : List Nat) :
    r.record nodes = Recorder.identifier nodes :=
  (r.map_record Recorder.maps_identifier nodes).symm.trans (congrArg _ (r.record_nodes nodes))

/-- Identifiers depend on the nodes alone, so the paths may be those of different rules. -/
theorem identifiers_separate_siblings (r r' : Rule) :
    (∀ (n : Nat) (hash : UInt64),
      Recorder.node n hash = [UInt64.ofNat n, hash].foldl Recorder.stir 0) ∧
    (∀ n, Function.Injective (Recorder.node n : UInt64 → UInt64)) ∧
    (∀ hash : UInt64, Set.InjOn (fun n => Recorder.node n hash) {n | n < 2 ^ 64}) ∧
    (∀ p q : List Nat, Siblings p q → (∀ n ∈ p, n < 2 ^ 64) → (∀ n ∈ q, n < 2 ^ 64) →
      (r.record p : UInt64) ≠ r'.record q) ∧
    ∀ p q s : List Nat, (r.record (p ++ s) : UInt64) = r'.record (q ++ s) ↔
      (r.record p : UInt64) = r'.record q := by
  simp only [record_identifier]
  refine ⟨fun n hash => rfl, Recorder.node_injective, ?_, ?_, Recorder.identifier_append_eq_iff⟩
  · exact fun hash m hm n hn h => Recorder.eq_of_node_eq hm hn h
  · exact fun p q h hp hq => Recorder.identifier_ne h hp hq

theorem identifiers_separate_siblings_of_turn :
    ∃ r : Rule, Rule.compile {} "go (left|right) now;" false = .ok r ∧
      r.graph.allPaths none = .ok [[0, 1, 2, 3, 6, 7, 8, 9], [0, 1, 2, 5, 6, 7, 8, 9]] ∧
      (r.record [0, 1, 2, 3, 6, 7, 8, 9] : UInt64) ≠ r.record [0, 1, 2, 5, 6, 7, 8, 9] ∧
      (r.record [0, 1, 2, 3] : UInt64) ≠ r.record [0, 1, 2, 5] := by
  have hread : Token.read {} "go (left|right) now;" =
      .ok [.start, .text "go " none, .mark .openGroup, .text "left" none, .mark .alternative,
        .text "right" none, .mark .closeGroup, .text " now" none, .mark .terminator, .finish] := by
    decide +kernel
  have hcheck : ((Graph.ofTokens [.start, .text "go " none, .mark .openGroup, .text "left" none,
      .mark .alternative, .text "right" none, .mark .closeGroup, .text " now" none,
      .mark .terminator, .finish]).toOption.any fun g => (g.allPaths none).toOption.any
        (· == [[0, 1, 2, 3, 6, 7, 8, 9], [0, 1, 2, 5, 6, 7, 8, 9]])) = true := by
    cbv
  obtain ⟨g, hg, hcheck⟩ := Attempt.exists_of_any hcheck
  obtain ⟨ps, hps, hcheck⟩ := Attempt.exists_of_any hcheck
  obtain rfl := beq_iff_eq.mp hcheck
  obtain ⟨r, hr, rfl⟩ : ∃ r, Rule.compile {} "go (left|right) now;" false = .ok r ∧ r.graph = g :=
    ⟨_, Rule.compile_of_bare false hread hg (by decide), rfl⟩
  obtain ⟨-, -, -, hne, hend⟩ := identifiers_separate_siblings r r
  have hsiblings : Siblings [0, 1, 2, 3, 6, 7, 8, 9] [0, 1, 2, 5, 6, 7, 8, 9] :=
    siblings_append [0, 1, 2] [6, 7, 8, 9] (by decide)
  have hwhole := hne _ _ hsiblings (by decide) (by decide)
  exact ⟨r, hr, hps, hwhole, mt (hend [0, 1, 2, 3] [0, 1, 2, 5] [6, 7, 8, 9]).mpr hwhole⟩

end Rule

end SpokenGrammar
