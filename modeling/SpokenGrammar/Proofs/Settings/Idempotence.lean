import SpokenGrammar.Proofs.Settings.Stripping
import SpokenGrammar.Proofs.Text.Runs

namespace SpokenGrammar

variable {tag : Char × Char} {s : List Char}

theorem stripped_filter_iff (hopen : Text.isBlank tag.1 = false)
    (hclose : Text.isBlank tag.2 = false) :
    Stripped tag (s.filter (!Text.isBlank ·)) ↔ Stripped tag s := by
  constructor
  · rintro h before after rfl hmem
    have hfilter : (before ++ tag.1 :: after).filter (!Text.isBlank ·) =
        before.filter (!Text.isBlank ·) ++ tag.1 :: after.filter (!Text.isBlank ·) := by
      rw [List.filter_append, List.filter_cons_of_pos (by simp [hopen])]
    refine h _ _ hfilter ?_
    rcases List.mem_cons.mp hmem with heq | hmem
    · exact List.mem_cons.mpr (.inl heq)
    · exact List.mem_cons_of_mem _ (List.mem_filter.mpr ⟨hmem, by simp [hclose]⟩)
  · intro h before after heq hmem
    obtain ⟨l, r, rfl, -, hr⟩ := List.filter_eq_append_iff.mp heq
    obtain ⟨l', r', rfl, -, -, rfl⟩ := List.filter_eq_cons_iff.mp hr
    refine h (l ++ l') r' (List.append_assoc l l' _).symm ?_
    rcases List.mem_cons.mp hmem with heq | hmem
    · exact List.mem_cons.mpr (.inl heq)
    · exact List.mem_cons_of_mem _ (List.mem_filter.mp hmem).1

theorem Stripped.squeeze (hopen : Text.isBlank tag.1 = false)
    (hclose : Text.isBlank tag.2 = false) (h : Stripped tag s) : Stripped tag (Text.squeeze s) := by
  rw [← stripped_filter_iff hopen hclose, Text.filter_squeeze]
  exact (stripped_filter_iff hopen hclose).mpr h

namespace Settings

variable {settings : Settings}

theorem stripped_stripped (settings : Settings) (s : List Char) :
    settings.stripped (settings.stripped s) = settings.stripped s := by
  unfold stripped
  split
  · exact (stripped_withoutTags _ s).withoutTags_eq
  · rfl

theorem stripped_squeeze_stripped (hopen : Text.isBlank settings.punctuation.tag.1 = false)
    (hclose : Text.isBlank settings.punctuation.tag.2 = false) (s : List Char) :
    settings.stripped (Text.squeeze (settings.stripped s)) =
      Text.squeeze (settings.stripped s) := by
  unfold stripped
  split
  · exact ((stripped_withoutTags _ s).squeeze hopen hclose).withoutTags_eq
  · rfl

theorem finished_finished (hopen : Text.isBlank settings.punctuation.tag.1 = false)
    (hclose : Text.isBlank settings.punctuation.tag.2 = false) (s : List Char) :
    settings.finished (settings.finished s) = settings.finished s := by
  unfold finished
  split
  · rw [stripped_squeeze_stripped hopen hclose, Text.squeeze_squeeze]
  · exact settings.stripped_stripped s

theorem format_idempotent (hopen : Text.isBlank settings.punctuation.tag.1 = false)
    (hclose : Text.isBlank settings.punctuation.tag.2 = false) (s : String) :
    (∀ t, settings.format s = some t → settings.format t = some t) ∧
    (settings.trim = true → ∃ runs,
      (∀ runs', Text.Runs (settings.stripped s.toList) runs' ↔ runs' = runs) ∧
      (settings.format s = none ↔ runs = []) ∧
      ∀ t, settings.format s = some t → t.toList = [' '].intercalate runs ∧
        ∀ c, t.toList.head? = some c ∨ t.toList.getLast? = some c → Text.isBlank c = false) := by
  refine ⟨fun t ht => ?_, fun htrim => ?_⟩
  · rw [format_eq, sentence?_eq_some_iff] at ht ⊢
    obtain ⟨hne, hfinished⟩ := ht
    rw [hfinished, finished_finished hopen hclose]
    exact ⟨hne, rfl⟩
  · have hsolid : ∀ w ∈ Text.words (settings.stripped s.toList), Text.Solid w :=
      fun _ => Text.solid_of_mem_words
    have hfinished : settings.finished s.toList =
        Text.unwords (Text.words (settings.stripped s.toList)) := by
      rw [finished, if_pos htrim, Text.squeeze]
    refine ⟨Text.words (settings.stripped s.toList), fun runs' => Text.runs_iff, ?_, ?_⟩
    · rw [format_eq, sentence?_eq_none_iff, hfinished, Text.unwords_eq_nil_iff hsolid]
    · intro t ht
      rw [format_eq, sentence?_eq_some_iff, hfinished] at ht
      rw [ht.2]
      refine ⟨rfl, fun c hc => ?_⟩
      rcases hc with hc | hc
      · exact Text.not_isBlank_of_head?_unwords hsolid hc
      · exact Text.not_isBlank_of_getLast?_unwords hsolid hc

theorem format_idempotent_of_unclosed :
    let settings : Settings := { stripTags := true }
    let s := " turn\u00a0\x7bon\x7d  the \x7d light \x7b off "
    Text.isBlank settings.punctuation.tag.1 = false ∧
      Text.isBlank settings.punctuation.tag.2 = false ∧
      settings.format s = some "turn the \x7d light \x7b off" ∧
      settings.format "turn the \x7d light \x7b off" = some "turn the \x7d light \x7b off" ∧
      ∃ runs, Text.Runs (settings.stripped s.toList) runs ∧
        "turn the \x7d light \x7b off".toList = [' '].intercalate runs := by
  intro settings s
  have hformat : settings.format s = some "turn the \x7d light \x7b off" := by decide +kernel
  have hopen : Text.isBlank settings.punctuation.tag.1 = false := by decide
  have hclose : Text.isBlank settings.punctuation.tag.2 = false := by decide
  obtain ⟨htwice, hruns⟩ := format_idempotent hopen hclose s
  obtain ⟨runs, hall, -, hjoined⟩ := hruns rfl
  exact ⟨hopen, hclose, hformat, htwice _ hformat, runs, (hall runs).mpr rfl,
    (hjoined _ hformat).1⟩

end Settings

end SpokenGrammar
