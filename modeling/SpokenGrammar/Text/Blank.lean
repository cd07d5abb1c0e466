namespace SpokenGrammar.Text

def inRanges (n : Nat) : List (Nat × Nat) → Bool
  | [] => false
  | (lo, hi) :: rest => if n < lo then false else n ≤ hi || inRanges n rest

/-- The code points with the property White_Space. -/
def blankRanges : List (Nat × Nat) :=
  [(0x9, 0xD), (0x20, 0x20), (0x85, 0x85), (0xA0, 0xA0), (0x1680, 0x1680), (0x2000, 0x200A),
    (0x2028, 0x2029), (0x202F, 0x202F), (0x205F, 0x205F), (0x3000, 0x3000)]

def isBlank (c : Char) : Bool :=
  inRanges c.toNat blankRanges

theorem isBlank_of_isWhitespace {c : Char} (h : c.isWhitespace = true) : isBlank c = true := by
  simp only [Char.isWhitespace, Bool.or_eq_true, decide_eq_true_eq] at h
  rcases h with ((rfl | rfl) | rfl) | rfl <;> decide

def trim (s : List Char) : List Char :=
  ((s.dropWhile isBlank).reverse.dropWhile isBlank).reverse

def allBlank (s : List Char) : Bool :=
  s.all isBlank

theorem trim_eq_nil_iff {s : List Char} : trim s = [] ↔ allBlank s = true := by
  simp only [trim, List.reverse_eq_nil_iff, allBlank, List.all_eq_true]
  constructor
  · intro h c hc
    by_cases hb : isBlank c = true
    · exact hb
    · exfalso
      have hm : c ∈ (s.dropWhile isBlank).reverse := by
        rw [List.mem_reverse]
        rw [← List.takeWhile_append_dropWhile (p := isBlank) (l := s)] at hc
        exact (List.mem_append.1 hc).resolve_left fun h =>
          hb (List.all_eq_true.1 List.all_takeWhile c h)
      rw [← List.takeWhile_append_dropWhile (p := isBlank)
        (l := (s.dropWhile isBlank).reverse), h, List.append_nil] at hm
      exact hb (List.all_eq_true.1 List.all_takeWhile c hm)
  · intro h
    suffices hs : s.dropWhile isBlank = [] by rw [hs]; rfl
    induction s with
    | nil => rfl
    | cons c r ih =>
      rw [List.dropWhile_cons_of_pos (h c (by simp)), ih fun d hd => h d (by simp [hd])]

def words : List Char → List (List Char)
  | [] => []
  | c :: r =>
    if isBlank c then words r
    else (c :: r.takeWhile (!isBlank ·)) :: words (r.dropWhile (!isBlank ·))
  termination_by s => s.length
  decreasing_by
    · simp
    · have := (List.dropWhile_suffix (!isBlank ·) (l := r)).length_le
      simp only [List.length_cons]; omega

theorem words_ne_nil {s w : List Char} (h : w ∈ words s) : w ≠ [] := by
  fun_induction words s with
  | case1 => simp at h
  | case2 c r hc ih => exact ih h
  | case3 c r hc ih =>
    rcases List.mem_cons.1 h with rfl | h
    · simp
    · exact ih h

theorem not_isBlank_of_mem_words {s w : List Char} (h : w ∈ words s) {c : Char} (hc : c ∈ w) :
    isBlank c = false := by
  fun_induction words s with
  | case1 => simp at h
  | case2 d r hd ih => exact ih h
  | case3 d r hd ih =>
    rcases List.mem_cons.1 h with rfl | h
    · rcases List.mem_cons.1 hc with rfl | hc
      · simpa using hd
      · simpa using List.all_eq_true.1 List.all_takeWhile c hc
    · exact ih h

def unwords (ws : List (List Char)) : List Char :=
  [' '].intercalate ws

def squeeze (s : List Char) : List Char :=
  unwords (words s)

end SpokenGrammar.Text
