import Mathlib.Data.List.Nodup
import Mathlib.Order.Lattice

namespace SpokenGrammar

section Lawful

variable {α : Type} [BEq α] [LawfulBEq α]

theorem nodup_eraseDups (l : List α) : l.eraseDups.Nodup := by
  induction hn : l.length using Nat.strongRecOn generalizing l with
  | ind n ih =>
    cases l with
    | nil => exact .nil
    | cons a l =>
      rw [List.eraseDups_cons, List.nodup_cons]
      have hlt : (l.filter fun b => !b == a).length < n := by
        have := List.length_filter_le (fun b => !b == a) l
        rw [List.length_cons] at hn
        omega
      refine ⟨?_, ih _ hlt _ rfl⟩
      rw [List.mem_eraseDups, List.mem_filter]
      simp

theorem eraseDups_snoc_of_mem {l : List α} {x : α} (h : x ∈ l) :
    (l ++ [x]).eraseDups = l.eraseDups := by
  simp [List.eraseDups_append, List.removeAll, h]

theorem eraseDups_snoc_of_not_mem {l : List α} {x : α} (h : x ∉ l) :
    (l ++ [x]).eraseDups = l.eraseDups ++ [x] := by
  have hkept : [x].removeAll l = [x] := by simp [List.removeAll, h]
  rw [List.eraseDups_append, hkept]
  rfl

end Lawful

variable {α : Type} [DecidableEq α] {x y : α} {l l' : List α}

def Precedes (y x : α) (l : List α) : Prop :=
  ∀ before after, l = before ++ x :: after → y ∈ before

theorem Precedes.eraseDups (h : Precedes y x l) : Precedes y x l.eraseDups := by
  intro before after heq
  have hx : x ∈ l := by
    rw [← List.mem_eraseDups, heq]
    simp
  obtain ⟨first, rest, rfl, hfirst⟩ := List.eq_append_cons_of_mem hx
  have hremoved : (x :: rest).removeAll first = x :: rest.removeAll first := by
    rw [List.removeAll, List.filter_cons_of_pos (by simpa using hfirst)]
    rfl
  rw [List.eraseDups_append, hremoved, List.eraseDups_cons] at heq
  have hfirst' : x ∉ first.eraseDups := by rwa [List.mem_eraseDups]
  have hrest : x ∉ ((rest.removeAll first).filter fun b => !b == x).eraseDups := by
    rw [List.mem_eraseDups, List.mem_filter]
    simp
  have hsame : first.eraseDups = before :=
    ((List.append_cons_inj_of_notMem hfirst' hrest).mp heq).1
  rw [← hsame, List.mem_eraseDups]
  exact h first rest rfl

theorem eraseRepsBy_loop (x : α) (l acc : List α) :
    List.eraseRepsBy.loop (· == ·) x l acc =
      acc.reverse ++ List.eraseRepsBy.loop (· == ·) x l [] := by
  -- What is accumulated stands before whatever the loop adds to it.
  induction l generalizing x acc with
  | nil => simp [List.eraseRepsBy.loop]
  | cons y l ih =>
    rw [List.eraseRepsBy.loop, List.eraseRepsBy.loop]
    cases x == y with
    | true => exact ih x acc
    | false =>
      dsimp only
      rw [ih y (x :: acc), ih y [x]]
      simp

theorem eraseReps_cons_self (x : α) (l : List α) :
    (x :: x :: l).eraseReps = (x :: l).eraseReps := by
  simp [List.eraseReps, List.eraseRepsBy, List.eraseRepsBy.loop]

theorem eraseReps_cons_of_ne (h : x ≠ y) (l : List α) :
    (x :: y :: l).eraseReps = x :: (y :: l).eraseReps := by
  have hxy : (x == y) = false := by simpa using h
  rw [List.eraseReps, List.eraseRepsBy, List.eraseRepsBy.loop, hxy]
  exact eraseRepsBy_loop y l [x]

theorem mem_eraseReps : x ∈ l.eraseReps ↔ x ∈ l := by
  induction l with
  | nil => rfl
  | cons y l ih =>
    cases l with
    | nil => rfl
    | cons z l =>
      by_cases hyz : y = z
      · subst hyz
        rw [eraseReps_cons_self, ih]
        simp
      · rw [eraseReps_cons_of_ne hyz, List.mem_cons, ih]
        exact List.mem_cons.symm

theorem pairwise_lt_eraseReps {β : Type} [LinearOrder β] {l : List β} (h : l.Pairwise (· ≤ ·)) :
    l.eraseReps.Pairwise (· < ·) := by
  induction l with
  | nil => exact .nil
  | cons x l ih =>
    cases l with
    | nil => exact List.pairwise_singleton _ _
    | cons y l =>
      obtain ⟨hx, hl⟩ := List.pairwise_cons.mp h
      by_cases hxy : x = y
      · subst hxy
        rw [eraseReps_cons_self]
        exact ih hl
      · rw [eraseReps_cons_of_ne hxy, List.pairwise_cons]
        refine ⟨?_, ih hl⟩
        intro z hz
        rw [mem_eraseReps] at hz
        have hlt : x < y := lt_of_le_of_ne (hx y List.mem_cons_self) hxy
        rcases List.mem_cons.mp hz with rfl | hz
        · exact hlt
        · exact lt_of_lt_of_le hlt ((List.pairwise_cons.mp hl).1 z hz)

end SpokenGrammar
