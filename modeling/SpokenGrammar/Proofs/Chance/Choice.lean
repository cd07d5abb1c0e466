import SpokenGrammar.Proofs.Chance.Total
import SpokenGrammar.Proofs.Chance.Yields

namespace SpokenGrammar

variable {α : Type} {choices : List α} {weights : List Float}

theorem pick_cases (draw total : Float) (last : α) (weighted : List (α × Float)) :
    (∃ c ∈ weighted, isUsable c.2 = true ∧ pick draw total last weighted = c.1) ∨
      (∀ c ∈ weighted, isUsable c.2 = false) ∧ pick draw total last weighted = last := by
  induction weighted generalizing total last with
  | nil => exact .inr ⟨by simp, rfl⟩
  | cons c rest ih =>
    obtain ⟨a, w⟩ := c
    rw [pick, share_beq_zero]
    cases hw : isUsable w with
    | false =>
      rcases ih total last with ⟨c, hc, husable, hpick⟩ | ⟨hnone, hpick⟩
      · exact .inl ⟨c, List.mem_cons_of_mem _ hc, husable, hpick⟩
      · exact .inr ⟨List.forall_mem_cons.mpr ⟨hw, hnone⟩, hpick⟩
    | true =>
      left
      simp only [Bool.not_true, Bool.false_eq_true, if_false]
      split
      · exact ⟨(a, w), List.mem_cons_self, hw, rfl⟩
      · rcases ih (total + share w) a with ⟨c, hc, husable, hpick⟩ | ⟨-, hpick⟩
        · exact ⟨c, List.mem_cons_of_mem _ hc, husable, hpick⟩
        · exact ⟨(a, w), List.mem_cons_self, hw, hpick⟩

theorem exists_mem_zip (hlen : choices.length = weights.length) {w : Float} (hw : w ∈ weights) :
    ∃ a, (a, w) ∈ choices.zip weights := by
  have hsnd : (choices.zip weights).map Prod.snd = weights :=
    List.map_snd_zip (Nat.le_of_eq hlen.symm)
  rw [← hsnd] at hw
  obtain ⟨⟨a, v⟩, hmem, rfl⟩ := List.mem_map.mp hw
  exact ⟨a, hmem⟩

theorem run_choose_unusable (hlen : choices.length = weights.length) (hne : choices ≠ [])
    (hnone : ∀ w ∈ weights, isUsable w = false) (s : Supply) :
    (choose choices weights).run s = (.error .zeroWeights, s) := by
  obtain ⟨first, rest, rfl⟩ := List.exists_cons_of_ne_nil hne
  rw [choose, if_neg (not_not_intro hlen)]
  dsimp only
  rw [if_pos (totalWeight_le_zero_iff.mpr hnone)]
  rfl

theorem run_choose_usable (hlen : choices.length = weights.length)
    (hsome : ∃ w ∈ weights, isUsable w = true) (s : Supply) :
    ∃ a w, (a, w) ∈ choices.zip weights ∧ isUsable w = true ∧
      (choose choices weights).run s = (.ok a, s.drop 4) := by
  obtain ⟨w, hw, husable⟩ := hsome
  obtain ⟨b, hb⟩ := exists_mem_zip hlen hw
  have htotal : ¬ totalWeight weights ≤ 0 := by
    rw [totalWeight_le_zero_iff]
    intro hnone
    simp [hnone w hw] at husable
  obtain ⟨first, rest, rfl⟩ := List.exists_cons_of_ne_nil
    (List.ne_nil_of_mem (List.of_mem_zip hb).1)
  have hrun : ∃ draw, (choose (first :: rest) weights).run s =
      (.ok (pick draw 0 first ((first :: rest).zip weights)), s.drop 4) := by
    rw [choose, if_neg (not_not_intro hlen)]
    dsimp only
    rw [if_neg htotal]
    exact ⟨_, rfl⟩
  obtain ⟨draw, hrun⟩ := hrun
  rcases pick_cases draw 0 first ((first :: rest).zip weights) with
    ⟨⟨a, v⟩, hmem, hv, hpick⟩ | ⟨hnone, -⟩
  · exact ⟨a, v, hmem, hv, hrun.trans (by rw [hpick])⟩
  · simp [hnone _ hb] at husable

theorem choice_is_usable (choices : List α) (weights : List Float) (s : Supply) :
    (choices.length ≠ weights.length →
      (choose choices weights).run s =
        (.error (.arityMismatch choices.length weights.length), s)) ∧
    (choices.length = weights.length → choices = [] →
      (choose choices weights).run s = (.error .emptyChoice, s)) ∧
    (choices.length = weights.length → choices ≠ [] →
      (∀ w ∈ weights, ¬ (w.isFinite = true ∧ 0 < w)) →
      (choose choices weights).run s = (.error .zeroWeights, s)) ∧
    (choices.length = weights.length → (∃ w ∈ weights, w.isFinite = true ∧ 0 < w) →
      ∃ a w, (a, w) ∈ choices.zip weights ∧ (w.isFinite = true ∧ 0 < w) ∧
        (choose choices weights).run s = (.ok a, s.drop 4)) := by
  simp only [← isUsable_iff, Bool.not_eq_true]
  refine ⟨fun hlen => ?_, fun hlen hnil => ?_, fun hlen hne hnone => ?_, fun hlen hsome => ?_⟩
  · unfold choose
    rw [if_pos hlen]
    rfl
  · unfold choose
    rw [if_neg (not_not_intro hlen), hnil]
    rfl
  · exact run_choose_unusable hlen hne hnone s
  · exact run_choose_usable hlen hsome s

theorem choice_is_usable_of_overflow :
    let huge := Float.ofBits 0x7fefffffffffffff
    let weights := [huge, 0 / 0, huge, -1]
    let s : Supply := [255, 255, 255, 255]
    (totalWeight weights).isInf = true ∧
      (∃ w ∈ weights, w.isFinite = true ∧ 0 < w) ∧
      (∃ a w, (a, w) ∈ ["a", "b", "c", "d"].zip weights ∧ (w.isFinite = true ∧ 0 < w) ∧
        (choose ["a", "b", "c", "d"] weights).run s = (.ok a, s.drop 4)) ∧
      ((choose ["a", "b", "c", "d"] weights).run s).1.toOption = some "c" := by
  intro huge weights s
  have husable : ∃ w ∈ weights, w.isFinite = true ∧ 0 < w :=
    ⟨huge, List.mem_cons_self, by decide⟩
  obtain ⟨-, -, -, hchosen⟩ := choice_is_usable ["a", "b", "c", "d"] weights s
  exact ⟨by decide, husable, hchosen rfl husable, by decide +kernel⟩

end SpokenGrammar
