import SpokenGrammar.Text.Blank

namespace SpokenGrammar.Text

variable {s t w gap : List Char} {ws : List (List Char)}

structure Solid (w : List Char) : Prop where
  ne_nil : w ≠ []
  visible : ∀ c ∈ w, isBlank c = false

/-- The longest solid stretches of a text, in order. A run is as long as it can be, since what
follows it starts with a blank. -/
inductive Runs : List Char → List (List Char) → Prop where
  | none {gap : List Char} : allBlank gap = true → Runs gap []
  | run {gap w rest : List Char} {ws : List (List Char)} : allBlank gap = true → Solid w →
      (∀ c ∈ rest.head?, isBlank c = true) → Runs rest ws → Runs (gap ++ w ++ rest) (w :: ws)

theorem allBlank_cons {c : Char} (hc : isBlank c = true) (h : allBlank s = true) :
    allBlank (c :: s) = true := by
  rw [allBlank, List.all_cons, hc]
  exact h

theorem Runs.cons {c : Char} (hc : isBlank c = true) (h : Runs s ws) : Runs (c :: s) ws := by
  cases h with
  | none hs => exact .none (allBlank_cons hc hs)
  | run hgap hw hrest h =>
    rw [List.append_assoc, ← List.cons_append, ← List.append_assoc]
    exact .run (allBlank_cons hc hgap) hw hrest h

theorem Runs.first (hw : Solid w) (hs : ∀ c ∈ s.head?, isBlank c = true) (h : Runs s ws) :
    Runs (w ++ s) (w :: ws) :=
  .run (show allBlank [] = true from rfl) hw hs h

theorem runs_words (s : List Char) : Runs s (words s) := by
  fun_induction words s with
  | case1 => exact .none rfl
  | case2 c r hc ih => exact ih.cons hc
  | case3 c r hc ih =>
    have hsolid : Solid (c :: r.takeWhile (!isBlank ·)) := by
      refine ⟨List.cons_ne_nil _ _, fun d hd => ?_⟩
      rcases List.mem_cons.mp hd with rfl | hd
      · simpa using hc
      · simpa using List.all_eq_true.mp List.all_takeWhile d hd
    have hrest : ∀ d ∈ (r.dropWhile (!isBlank ·)).head?, isBlank d = true := by
      intro d hd
      have hnot := List.head?_dropWhile_not (!isBlank ·) r
      rw [Option.mem_def.mp hd] at hnot
      simpa using hnot
    have hruns := ih.first hsolid hrest
    rwa [List.cons_append, List.takeWhile_append_dropWhile] at hruns

theorem words_append_of_allBlank (h : allBlank gap = true) (s : List Char) :
    words (gap ++ s) = words s := by
  induction gap with
  | nil => rfl
  | cons c gap ih =>
    rw [allBlank, List.all_cons, Bool.and_eq_true] at h
    rw [List.cons_append, words, if_pos h.1]
    exact ih h.2

theorem words_append_of_solid (hw : Solid w) (hs : ∀ c ∈ s.head?, isBlank c = true) :
    words (w ++ s) = w :: words s := by
  obtain ⟨hne, hvisible⟩ := hw
  have hstop : s.takeWhile (!isBlank ·) = [] ∧ s.dropWhile (!isBlank ·) = s := by
    cases s with
    | nil => exact ⟨rfl, rfl⟩
    | cons c s => simp [hs c rfl]
  cases w with
  | nil => exact absurd rfl hne
  | cons c w =>
    have hrest : ∀ d ∈ w, (!isBlank d) = true := fun d hd => by
      simp [hvisible d (List.mem_cons_of_mem _ hd)]
    rw [List.cons_append, words, if_neg (by simp [hvisible c List.mem_cons_self]),
      List.takeWhile_append_of_pos hrest, List.dropWhile_append_of_pos hrest, hstop.1, hstop.2,
      List.append_nil]

theorem runs_iff : Runs s ws ↔ ws = words s := by
  constructor
  · intro h
    induction h with
    | none hgap =>
      have hwords := words_append_of_allBlank hgap []
      rw [List.append_nil] at hwords
      rw [hwords, words]
    | run hgap hw hrest _ ih =>
      rw [List.append_assoc, words_append_of_allBlank hgap, words_append_of_solid hw hrest, ih]
  · rintro rfl
    exact runs_words s

theorem solid_of_mem_words (h : w ∈ words s) : Solid w :=
  ⟨words_ne_nil h, fun _ hc => not_isBlank_of_mem_words h hc⟩

theorem unwords_singleton (w : List Char) : unwords [w] = w :=
  List.intercalate_singleton

theorem unwords_cons_cons (w v : List Char) (ws : List (List Char)) :
    unwords (w :: v :: ws) = w ++ ' ' :: unwords (v :: ws) := by
  rw [unwords, List.intercalate_cons_cons, List.append_assoc]
  rfl

theorem runs_unwords (h : ∀ w ∈ ws, Solid w) : Runs (unwords ws) ws := by
  induction ws with
  | nil => exact .none rfl
  | cons w ws ih =>
    have hw := h w List.mem_cons_self
    have hws := ih fun v hv => h v (List.mem_cons_of_mem _ hv)
    cases ws with
    | nil =>
      have hrun := (Runs.none rfl).first hw (show ∀ c ∈ [].head?, isBlank c = true by simp)
      rw [unwords_singleton]
      rwa [List.append_nil] at hrun
    | cons v ws =>
      rw [unwords_cons_cons]
      exact (hws.cons (by decide)).first hw (by simpa using by decide)

theorem words_squeeze (s : List Char) : words (squeeze s) = words s :=
  (runs_iff.mp (runs_unwords fun _ => solid_of_mem_words)).symm

theorem squeeze_squeeze (s : List Char) : squeeze (squeeze s) = squeeze s := by
  rw [squeeze, words_squeeze, squeeze]

theorem Runs.filter (h : Runs s ws) : s.filter (!isBlank ·) = ws.flatten := by
  have hblank : ∀ {gap : List Char}, allBlank gap = true → gap.filter (!isBlank ·) = [] := by
    intro gap hgap
    rw [List.filter_eq_nil_iff]
    intro c hc
    simp [List.all_eq_true.mp hgap c hc]
  induction h with
  | none hgap => exact hblank hgap
  | @run gap w rest ws hgap hw _ _ ih =>
    have hkeep : w.filter (!isBlank ·) = w :=
      List.filter_eq_self.mpr fun c hc => by simp [hw.visible c hc]
    rw [List.filter_append, List.filter_append, hblank hgap, hkeep, ih, List.nil_append,
      List.flatten_cons]

theorem filter_squeeze (s : List Char) :
    (squeeze s).filter (!isBlank ·) = s.filter (!isBlank ·) :=
  (runs_unwords fun _ => solid_of_mem_words).filter.trans (runs_words s).filter.symm

theorem exists_unwords_cons (w : List Char) (ws : List (List Char)) :
    ∃ rest, unwords (w :: ws) = w ++ rest := by
  cases ws with
  | nil => exact ⟨[], by rw [unwords_singleton, List.append_nil]⟩
  | cons v ws => exact ⟨_, unwords_cons_cons w v ws⟩

theorem unwords_eq_nil_iff (h : ∀ w ∈ ws, Solid w) : unwords ws = [] ↔ ws = [] := by
  constructor
  · intro hnil
    cases ws with
    | nil => rfl
    | cons w ws =>
      obtain ⟨rest, hrest⟩ := exists_unwords_cons w ws
      rw [hrest] at hnil
      exact absurd (List.append_eq_nil_iff.mp hnil).1 (h w List.mem_cons_self).ne_nil
  · rintro rfl
    rfl

theorem not_isBlank_of_head?_unwords (h : ∀ w ∈ ws, Solid w) {c : Char}
    (hc : (unwords ws).head? = some c) : isBlank c = false := by
  cases ws with
  | nil => cases hc
  | cons w ws =>
    obtain ⟨hne, hvisible⟩ := h w List.mem_cons_self
    obtain ⟨rest, hrest⟩ := exists_unwords_cons w ws
    obtain ⟨d, w, rfl⟩ := List.exists_cons_of_ne_nil hne
    rw [hrest] at hc
    obtain rfl := Option.some.inj hc
    exact hvisible d List.mem_cons_self

theorem not_isBlank_of_getLast?_unwords (h : ∀ w ∈ ws, Solid w) {c : Char}
    (hc : (unwords ws).getLast? = some c) : isBlank c = false := by
  induction ws with
  | nil => cases hc
  | cons w ws ih =>
    cases ws with
    | nil =>
      rw [unwords_singleton] at hc
      exact (h w List.mem_cons_self).visible c (List.mem_of_getLast? hc)
    | cons v ws =>
      have hws : ∀ u ∈ v :: ws, Solid u := fun u hu => h u (List.mem_cons_of_mem _ hu)
      have hne : unwords (v :: ws) ≠ [] := fun hnil =>
        absurd ((unwords_eq_nil_iff hws).mp hnil) (List.cons_ne_nil v ws)
      obtain ⟨d, u, hu⟩ := List.exists_cons_of_ne_nil hne
      rw [unwords_cons_cons, hu, List.getLast?_append, List.getLast?_cons_cons, ← hu,
        Option.or_of_isSome (by simp [hu, List.getLast?_cons])] at hc
      exact ih hws hc

end SpokenGrammar.Text
