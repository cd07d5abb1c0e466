namespace SpokenGrammar.Text

def byteLength : List Char → Nat
  | [] => 0
  | c :: s => c.utf8Size + byteLength s

@[simp] theorem byteLength_nil : byteLength [] = 0 := rfl

@[simp] theorem byteLength_cons (c : Char) (s : List Char) :
    byteLength (c :: s) = c.utf8Size + byteLength s := rfl

@[simp] theorem byteLength_append (s t : List Char) :
    byteLength (s ++ t) = byteLength s + byteLength t := by
  induction s with
  | nil => simp
  | cons c s ih => simp [ih, Nat.add_assoc]

theorem byteLength_reverse (s : List Char) : byteLength s.reverse = byteLength s := by
  induction s with
  | nil => rfl
  | cons c s ih => simp [ih, Nat.add_comm]

def splitAtByte (n : Nat) : List Char → Option (List Char × List Char)
  | [] => if n = 0 then some ([], []) else none
  | c :: r =>
    if n = 0 then some ([], c :: r)
    else if c.utf8Size ≤ n then (splitAtByte (n - c.utf8Size) r).map fun (a, b) => (c :: a, b)
    else none

theorem splitAtByte_byteLength (s t : List Char) :
    splitAtByte (byteLength s) (s ++ t) = some (s, t) := by
  induction s with
  | nil => cases t <;> simp [splitAtByte]
  | cons c r ih =>
    simp [splitAtByte, Nat.ne_of_gt c.utf8Size_pos, ih]

theorem eq_of_splitAtByte {n : Nat} {s a b : List Char} (h : splitAtByte n s = some (a, b)) :
    s = a ++ b ∧ byteLength a = n := by
  induction s generalizing n a with
  | nil =>
    rw [splitAtByte] at h
    split at h <;> simp_all
  | cons c r ih =>
    rw [splitAtByte] at h
    split at h
    · simp_all
    · split at h
      · obtain ⟨⟨a', b'⟩, hr, hab⟩ := Option.map_eq_some_iff.1 h
        simp only [Prod.mk.injEq] at hab
        obtain ⟨rfl, rfl⟩ := hab
        obtain ⟨rfl, ha⟩ := ih hr
        simp only [List.cons_append, byteLength_cons, true_and]
        omega
      · simp at h

def sliceBytes (start stop : Nat) (s : List Char) :
    Option (List Char × List Char × List Char) := do
  let (front, after) ← splitAtByte stop s
  let (before, inside) ← splitAtByte start front
  return (before, inside, after)

theorem eq_of_sliceBytes {start stop : Nat} {s a b c : List Char}
    (h : sliceBytes start stop s = some (a, b, c)) :
    s = a ++ b ++ c ∧ byteLength a = start ∧ byteLength (a ++ b) = stop := by
  simp only [sliceBytes, Option.bind_eq_bind, Option.bind_eq_some_iff, Option.pure_def,
    Option.some.injEq, Prod.mk.injEq, Prod.exists] at h
  obtain ⟨front, c', hf, a', b', ha, rfl, rfl, rfl⟩ := h
  obtain ⟨rfl, hs⟩ := eq_of_splitAtByte hf
  obtain ⟨rfl, ht⟩ := eq_of_splitAtByte ha
  exact ⟨rfl, ht, hs⟩

end SpokenGrammar.Text
