import Mathlib.Data.List.Infix
import SpokenGrammar.Source.Layout

namespace SpokenGrammar

namespace Layout

variable {c : Char} {s t r g h : List Char}

theorem skipOne_cons (hslash : c ≠ '/') (t : List Char) :
    skipOne (c :: t) = if isSpace c then some t else none := by
  unfold skipOne
  split
  · rename_i heq
    exact absurd (List.cons.inj heq).1 hslash
  · rename_i heq
    exact absurd (List.cons.inj heq).1 hslash
  · rename_i heq
    obtain ⟨rfl, rfl⟩ := List.cons.inj heq
    rfl
  · contradiction

theorem skipOne_space (hc : isSpace c = true) (t : List Char) : skipOne (c :: t) = some t := by
  have hslash : c ≠ '/' := by
    rintro rfl
    exact absurd hc (by decide)
  rw [skipOne_cons hslash, if_pos hc]

theorem skipOne_other (hc : isSpace c = false) (hslash : c ≠ '/') (t : List Char) :
    skipOne (c :: t) = none := by
  rw [skipOne_cons hslash, if_neg (Bool.eq_false_iff.mp hc)]

theorem skipOne_slash (hline : c ≠ '/') (hblock : c ≠ '*') (t : List Char) :
    skipOne ('/' :: c :: t) = none := by
  unfold skipOne
  split
  · rename_i heq
    exact absurd (List.cons.inj (List.cons.inj heq).2).1 hline
  · rename_i heq
    exact absurd (List.cons.inj (List.cons.inj heq).2).1 hblock
  · rename_i heq
    obtain ⟨rfl, rfl⟩ := List.cons.inj heq
    rfl
  · contradiction

theorem skip_of_skipOne (h : skipOne s = some r) : skip s = skip r := by
  rw [skip]
  split
  · rename_i r' h'
    rw [Option.some.inj (h'.symm.trans h)]
  · rename_i h'
    cases h'.symm.trans h

theorem skip_eq_self (h : skipOne s = none) : skip s = s := by
  rw [skip]
  split
  · rename_i r h'
    cases h'.symm.trans h
  · rfl

theorem skip_skip (s : List Char) : skip (skip s) = skip s :=
  skip_eq_self (skipOne_skip s)

theorem suffix_of_afterClose (h : afterClose s = some r) : r <:+ s := by
  fun_induction afterClose s with
  | case1 r' =>
    obtain rfl := Option.some.inj h
    exact List.suffix_append ['*', '/'] _
  | case2 c s hs ih => exact (ih h).trans (List.suffix_cons c s)
  | case3 => cases h

theorem suffix_of_skipOne (h : skipOne s = some r) : r <:+ s := by
  unfold skipOne at h
  split at h
  · rename_i t
    obtain rfl := Option.some.inj h
    exact (List.dropWhile_suffix _).trans (List.suffix_append ['/', '/'] t)
  · rename_i t
    exact (suffix_of_afterClose h).trans (List.suffix_append ['/', '*'] t)
  · split at h
    · obtain rfl := Option.some.inj h
      exact List.suffix_cons _ _
    · cases h
  · cases h

theorem skip_suffix (s : List Char) : skip s <:+ s := by
  fun_induction skip s with
  | case1 s r h ih => exact ih.trans (suffix_of_skipOne h)
  | case2 s h => exact List.suffix_refl s

def Blank (g : List Char) : Prop :=
  ∀ t, skip (g ++ t) = skip t

theorem blank_nil : Blank [] :=
  fun _ => rfl

theorem Blank.append (hg : Blank g) (hh : Blank h) : Blank (g ++ h) := by
  intro t
  rw [List.append_assoc, hg, hh]

theorem Blank.skip_eq (hg : Blank g) : skip g = [] := by
  have hnil : skip [] = [] := skip_eq_self rfl
  have hend := hg []
  rwa [List.append_nil, hnil] at hend

theorem blank_space (hc : isSpace c = true) : Blank [c] :=
  fun t => skip_of_skipOne (skipOne_space hc t)

theorem blank_line (h : '\n' ∉ s) : Blank ('/' :: '/' :: s ++ ['\n']) := by
  intro t
  have hbefore : ∀ x ∈ s, decide (x ≠ '\n') = true := by
    intro x hx
    rw [decide_eq_true_iff]
    rintro rfl
    exact h hx
  have hrest : skipOne ('/' :: '/' :: s ++ ['\n'] ++ t) = some ('\n' :: t) := by
    change some ((s ++ ['\n'] ++ t).dropWhile _) = _
    rw [List.append_assoc, List.dropWhile_append_of_pos hbefore]
    rfl
  rw [skip_of_skipOne hrest, skip_of_skipOne (skipOne_space rfl t)]

theorem afterClose_append (h : ¬ ['*', '/'] <:+: s) (t : List Char) :
    afterClose (s ++ '*' :: '/' :: t) = some t := by
  induction s with
  | nil => rfl
  | cons x s ih =>
    rw [List.infix_cons_iff, not_or] at h
    rw [List.cons_append, afterClose]
    · exact ih h.2
    · rintro u rfl hu
      cases s with
      | nil => cases hu
      | cons y s =>
        obtain ⟨rfl, -⟩ := List.cons.inj hu
        exact h.1 (List.prefix_append ['*', '/'] s)

theorem blank_block (h : ¬ ['*', '/'] <:+: s) : Blank ('/' :: '*' :: s ++ ['*', '/']) := by
  intro t
  have hrest : skipOne ('/' :: '*' :: s ++ ['*', '/'] ++ t) = some t := by
    change afterClose (s ++ ['*', '/'] ++ t) = _
    rw [List.append_assoc]
    exact afterClose_append h t
  exact skip_of_skipOne hrest

def opens : List Char → Bool
  | '/' :: '/' :: _ => true
  | '/' :: '*' :: _ => true
  | c :: _ => isSpace c
  | [] => false

theorem afterClose_eq_none_iff : afterClose s = none ↔ ¬ ['*', '/'] <:+: s := by
  fun_induction afterClose s with
  | case1 r =>
    refine iff_of_false (Option.some_ne_none r) (not_not.mpr ?_)
    exact (List.prefix_append ['*', '/'] r).isInfix
  | case2 c s hs ih =>
    have hfirst : ¬ ['*', '/'] <+: c :: s := by
      rintro ⟨r, hr⟩
      obtain ⟨rfl, rfl⟩ := List.cons.inj hr
      exact hs r rfl rfl
    rw [ih, List.infix_cons_iff, not_or]
    exact (and_iff_right hfirst).symm
  | case3 => simp

end Layout

end SpokenGrammar
