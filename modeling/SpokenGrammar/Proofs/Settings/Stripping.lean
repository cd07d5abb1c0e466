import SpokenGrammar.Proofs.Settings
import SpokenGrammar.Proofs.Token.Lexemes

namespace SpokenGrammar

variable {tag : Char × Char} {s : List Char}

/-- Whether no tag is found: where one starts, the character that ends it does not come. -/
def Stripped (tag : Char × Char) (s : List Char) : Prop :=
  ∀ before after, s = before ++ tag.1 :: after → tag.2 ∉ tag.1 :: after

theorem Stripped.withoutTags_eq (h : Stripped tag s) : withoutTags tag s = s := by
  rw [withoutTags]
  split
  · rfl
  · rename_i before after hopen
    split
    · rfl
    · rename_i inside rest hclose
      have hmem : tag.2 ∈ tag.1 :: after := by
        rw [(Text.eq_of_cutAt hclose).1]
        simp
      exact absurd hmem (h before after (Text.eq_of_cutAt hopen).1)

theorem exists_eq_append_cons {c : Char} {a before after : List Char} (ha : c ∉ a)
    (h : a ++ s = before ++ c :: after) : ∃ rest, s = rest ++ c :: after := by
  rcases List.append_eq_append_iff.mp h with ⟨rest, -, hs⟩ | ⟨rest, rfl, hrest⟩
  · exact ⟨rest, hs⟩
  · cases rest with
    | nil => exact ⟨[], by simpa using hrest.symm⟩
    | cons d rest =>
      obtain ⟨rfl, -⟩ := List.cons.inj hrest
      simp at ha

theorem Stripped.append {a : List Char} (ha : tag.1 ∉ a) (h : Stripped tag s) :
    Stripped tag (a ++ s) := by
  intro before after heq
  obtain ⟨rest, hrest⟩ := exists_eq_append_cons ha heq
  exact h rest after hrest

theorem stripped_withoutTags (tag : Char × Char) (s : List Char) :
    Stripped tag (withoutTags tag s) := by
  fun_induction withoutTags tag s with
  | case1 s hopen =>
    rintro before after rfl
    exact absurd (by simp) (Text.cutAt_eq_none_iff.mp hopen)
  | case2 s before after hopen hclose =>
    obtain ⟨rfl, hbefore⟩ := Text.eq_of_cutAt hopen
    refine Stripped.append hbefore ?_
    intro before' after' heq hmem
    refine Text.cutAt_eq_none_iff.mp hclose ?_
    rw [heq]
    exact List.mem_append_right _ hmem
  | case3 s before after hopen inside rest hclose ih =>
    exact ih.append (Text.eq_of_cutAt hopen).2

theorem filter_ne_eq_self {c : Char} (h : c ∉ s) : s.filter (· ≠ c) = s := by
  refine List.filter_eq_self.mpr fun d hd => ?_
  simpa using fun heq : d = c => h (heq ▸ hd)

theorem withoutTags_of_eq (h : tag.1 = tag.2) (s : List Char) :
    withoutTags tag s = s.filter (· ≠ tag.1) := by
  fun_induction withoutTags tag s with
  | case1 s hopen => exact (filter_ne_eq_self (Text.cutAt_eq_none_iff.mp hopen)).symm
  | case2 s before after hopen hclose =>
    exact absurd (h ▸ List.mem_cons_self) (Text.cutAt_eq_none_iff.mp hclose)
  | case3 s before after hopen inside rest hclose ih =>
    obtain ⟨rfl, hbefore⟩ := Text.eq_of_cutAt hopen
    have hself := Text.cutAt_append (List.not_mem_nil (a := tag.2)) after
    rw [List.nil_append, ← h] at hself
    rw [← h] at hclose
    obtain ⟨-, rfl⟩ := Prod.mk.inj (Option.some.inj (hself.symm.trans hclose))
    rw [ih, List.filter_append, filter_ne_eq_self hbefore, List.filter_cons_of_neg (by simp)]

def tagged (tag : Char × Char) (pieces : List (List Char × List Char)) (last : List Char) :
    List Char :=
  pieces.flatMap (fun x => x.1 ++ (tag.1 :: x.2 ++ [tag.2])) ++ last

variable {pieces : List (List Char × List Char)} {last : List Char}

theorem tagged_cons (tag : Char × Char) (x : List Char × List Char)
    (pieces : List (List Char × List Char)) (last : List Char) :
    tagged tag (x :: pieces) last =
      x.1 ++ (tag.1 :: x.2 ++ [tag.2]) ++ tagged tag pieces last := by
  rw [tagged, List.flatMap_cons, List.append_assoc]
  rfl

theorem withoutTags_tagged (hne : tag.1 ≠ tag.2) (hpieces : ∀ x ∈ pieces, tag.1 ∉ x.1)
    (hbodies : ∀ x ∈ pieces, tag.2 ∉ x.2) (hlast : tag.1 ∉ last) :
    withoutTags tag (tagged tag pieces last) = pieces.flatMap (·.1) ++ last := by
  induction pieces with
  | nil => exact withoutTags_of_not_mem hlast
  | cons x pieces ih =>
    rw [List.forall_mem_cons] at hpieces hbodies
    rw [tagged_cons, withoutTags_tag hne hpieces.1 hbodies.1, ih hpieces.2 hbodies.2,
      List.flatMap_cons, List.append_assoc]

theorem withoutTags_tagged_of_eq (h : tag.1 = tag.2) (hpieces : ∀ x ∈ pieces, tag.1 ∉ x.1)
    (hbodies : ∀ x ∈ pieces, tag.2 ∉ x.2) (hlast : tag.1 ∉ last) :
    withoutTags tag (tagged tag pieces last) = pieces.flatMap (fun x => x.1 ++ x.2) ++ last := by
  rw [withoutTags_of_eq h]
  induction pieces with
  | nil => exact filter_ne_eq_self hlast
  | cons x pieces ih =>
    rw [List.forall_mem_cons] at hpieces hbodies
    have hdrop : (tag.1 :: x.2 ++ [tag.2]).filter (· ≠ tag.1) = x.2 := by
      rw [List.cons_append, List.filter_cons_of_neg (by simp), List.filter_append,
        filter_ne_eq_self (h ▸ hbodies.1), List.filter_cons_of_neg (by simp [h]),
        List.filter_nil, List.append_nil]
    rw [tagged_cons, List.filter_append, List.filter_append, filter_ne_eq_self hpieces.1, hdrop,
      ih hpieces.2 hbodies.2, List.flatMap_cons, List.append_assoc, List.append_assoc,
      List.append_assoc]

theorem flatMap_append_eq_iff :
    pieces.flatMap (fun x => x.1 ++ x.2) = pieces.flatMap (·.1) ↔ ∀ x ∈ pieces, x.2 = [] := by
  have hlength : (pieces.flatMap fun x => x.1 ++ x.2).length =
      (pieces.flatMap (·.1)).length + (pieces.flatMap (·.2)).length := by
    induction pieces with
    | nil => rfl
    | cons x pieces ih =>
      simp only [List.flatMap_cons, List.length_append, ih]
      omega
  constructor
  · intro h
    rw [h] at hlength
    have hnil : pieces.flatMap (·.2) = [] := List.length_eq_zero_iff.mp (by omega)
    exact List.flatMap_eq_nil_iff.mp hnil
  · intro h
    refine List.flatMap_congr fun x hx => ?_
    rw [h x hx, List.append_nil]

def sentence? (s : List Char) : Option String :=
  if s = [] then none else some (String.ofList s)

theorem sentence?_eq_none_iff : sentence? s = none ↔ s = [] := by
  simp [sentence?]

theorem sentence?_eq_some_iff {t : String} : sentence? s = some t ↔ s ≠ [] ∧ t.toList = s := by
  rw [sentence?]
  split
  · rename_i hs
    simp [hs]
  · rename_i hs
    rw [Option.some.injEq]
    constructor
    · rintro rfl
      exact ⟨hs, String.toList_ofList⟩
    · rintro ⟨-, rfl⟩
      exact String.ofList_toList

theorem sentence?_inj {t : List Char} (h : sentence? s = sentence? t) : s = t := by
  by_cases hs : s = [] <;> by_cases ht : t = [] <;> simp_all [sentence?, String.ofList_inj]

namespace Settings

variable {settings : Settings}

def stripped (settings : Settings) (s : List Char) : List Char :=
  if settings.stripTags then withoutTags settings.punctuation.tag s else s

def finished (settings : Settings) (s : List Char) : List Char :=
  if settings.trim then Text.squeeze (settings.stripped s) else settings.stripped s

theorem format_eq (settings : Settings) (s : String) :
    settings.format s = sentence? (settings.finished s.toList) := rfl

theorem format_tagged (hstrip : settings.stripTags = true) (htrim : settings.trim = false)
    (hpieces : ∀ x ∈ pieces,
      settings.punctuation.tag.1 ∉ x.1 ∧ settings.punctuation.tag.2 ∉ x.1)
    (hbodies : ∀ x ∈ pieces,
      settings.punctuation.tag.1 ∉ x.2 ∧ settings.punctuation.tag.2 ∉ x.2)
    (hlast : settings.punctuation.tag.1 ∉ last ∧ settings.punctuation.tag.2 ∉ last) :
    settings.format (String.ofList (tagged settings.punctuation.tag pieces last)) =
      sentence? (pieces.flatMap (·.1) ++ last) ↔
    settings.punctuation.tag.1 ≠ settings.punctuation.tag.2 ∨ ∀ x ∈ pieces, x.2 = [] := by
  have hopeners : ∀ x ∈ pieces, settings.punctuation.tag.1 ∉ x.1 := fun x hx => (hpieces x hx).1
  have hclosers : ∀ x ∈ pieces, settings.punctuation.tag.2 ∉ x.2 := fun x hx => (hbodies x hx).2
  rw [format_eq, String.toList_ofList, finished, htrim, if_neg Bool.false_ne_true, stripped,
    if_pos hstrip]
  by_cases hne : settings.punctuation.tag.1 = settings.punctuation.tag.2
  · rw [withoutTags_tagged_of_eq hne hopeners hclosers hlast.1, ← flatMap_append_eq_iff]
    constructor
    · exact fun h => .inr (List.append_cancel_right (sentence?_inj h))
    · rintro (h | h)
      · exact absurd hne h
      · rw [h]
  · rw [withoutTags_tagged hne hopeners hclosers hlast.1]
    exact iff_of_true rfl (.inl hne)

theorem format_tagged_of_lights :
    let settings : Settings :=
      { punctuation := { tag := ('«', '»') }, trim := false, stripTags := true }
    let pieces := [("turn ".toList, "on".toList), (" the light".toList, "".toList)]
    settings.punctuation.tag.1 ≠ settings.punctuation.tag.2 ∧
    tagged settings.punctuation.tag pieces "s!".toList = "turn «on» the light«»s!".toList ∧
      settings.format "turn «on» the light«»s!" = some "turn  the lights!" := by
  intro settings pieces
  have hne : settings.punctuation.tag.1 ≠ settings.punctuation.tag.2 := by decide
  have hsame : tagged settings.punctuation.tag pieces "s!".toList =
      "turn «on» the light«»s!".toList := by decide
  have hformat := (@format_tagged pieces "s!".toList settings rfl rfl (by decide) (by decide)
    (by decide)).mpr (.inl hne)
  rw [hsame, String.ofList_toList] at hformat
  exact ⟨hne, hsame, hformat⟩

theorem tag_kept_between_equal_delimiters :
    let settings : Settings :=
      { punctuation := { tag := ('#', '#') }, trim := false, stripTags := true }
    Lexeme.all settings.punctuation "a#b#c".toList = [.plain 'a', .tag ['b'], .plain 'c'] ∧
      tagged settings.punctuation.tag [(['a'], ['b'])] ['c'] = "a#b#c".toList ∧
      settings.format "a#b#c" = some "abc" ∧
      sentence? ([(['a'], ['b'])].flatMap (·.1) ++ ['c']) = some "ac" := by
  intro settings
  exact ⟨by decide +kernel, by decide, by decide +kernel, by decide⟩

end Settings

end SpokenGrammar
