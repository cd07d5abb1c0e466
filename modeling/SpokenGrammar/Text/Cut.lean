namespace SpokenGrammar.Text

def cutAt (close : Char) : List Char → Option (List Char × List Char)
  | [] => none
  | c :: r => if c = close then some ([], r) else (cutAt close r).map fun (a, b) => (c :: a, b)

theorem eq_of_cutAt {close : Char} {s a b : List Char} (h : cutAt close s = some (a, b)) :
    s = a ++ close :: b ∧ close ∉ a := by
  induction s generalizing a with
  | nil => simp [cutAt] at h
  | cons c r ih =>
    rw [cutAt] at h
    split at h
    · simp_all
    · obtain ⟨⟨a', b'⟩, hr, hab⟩ := Option.map_eq_some_iff.1 h
      simp only [Prod.mk.injEq] at hab
      obtain ⟨rfl, rfl⟩ := hab
      obtain ⟨rfl, ha⟩ := ih hr
      simp_all [eq_comm]

theorem cutAt_append {close : Char} {a : List Char} (h : close ∉ a) (b : List Char) :
    cutAt close (a ++ close :: b) = some (a, b) := by
  induction a with
  | nil => simp [cutAt]
  | cons c r ih =>
    simp only [List.mem_cons, not_or] at h
    simp [cutAt, ih h.2, Ne.symm h.1]

theorem cutAt_eq_some_iff {close : Char} {s a b : List Char} :
    cutAt close s = some (a, b) ↔ s = a ++ close :: b ∧ close ∉ a :=
  ⟨eq_of_cutAt, fun ⟨h, ha⟩ => h ▸ cutAt_append ha b⟩

theorem cutAt_eq_none_iff {close : Char} {s : List Char} : cutAt close s = none ↔ close ∉ s := by
  induction s with
  | nil => simp [cutAt]
  | cons c r ih =>
    by_cases h : c = close
    · simp [cutAt, h]
    · simp [cutAt, h, ih, Ne.symm h]

theorem length_lt_of_cutAt {close : Char} {s a b : List Char} (h : cutAt close s = some (a, b)) :
    b.length < s.length := by
  simp only [(eq_of_cutAt h).1, List.length_append, List.length_cons]
  omega

end SpokenGrammar.Text
