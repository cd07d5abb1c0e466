import SpokenGrammar.Text.Cut

namespace SpokenGrammar.Layout

def isSpace (c : Char) : Bool :=
  c = ' ' || c = '\t' || c = '\n' || c = '\r'

def afterClose : List Char → Option (List Char)
  | '*' :: '/' :: r => some r
  | _ :: r => afterClose r
  | [] => none

theorem length_lt_of_afterClose {s r : List Char} (h : afterClose s = some r) :
    r.length < s.length := by
  fun_induction afterClose s with
  | case1 r' =>
    obtain rfl := Option.some.inj h
    exact Nat.lt_succ_of_lt (Nat.lt_succ_self _)
  | case2 c s hs ih => exact Nat.lt_succ_of_lt (ih h)
  | case3 => simp at h

def skipOne : List Char → Option (List Char)
  | '/' :: '/' :: r => some (r.dropWhile (· ≠ '\n'))
  | '/' :: '*' :: r => afterClose r
  | c :: r => if isSpace c then some r else none
  | [] => none

theorem length_lt_of_skipOne {s r : List Char} (h : skipOne s = some r) :
    r.length < s.length := by
  unfold skipOne at h
  split at h
  · rename_i s
    have := (List.dropWhile_suffix (fun c : Char => decide (c ≠ '\n')) (l := s)).length_le
    simp only [Option.some.injEq] at h
    simp only [← h, List.length_cons]
    omega
  · have := length_lt_of_afterClose h
    simp only [List.length_cons]
    omega
  · split at h <;> simp_all
  · simp at h

def skip (s : List Char) : List Char :=
  match _h : skipOne s with
  | some r => skip r
  | none => s
  termination_by s.length
  decreasing_by exact length_lt_of_skipOne _h

theorem skipOne_skip (s : List Char) : skipOne (skip s) = none := by
  fun_induction skip s with
  | case1 s r h ih => exact ih
  | case2 s h => exact h

end SpokenGrammar.Layout
