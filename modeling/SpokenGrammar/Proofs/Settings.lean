import Mathlib.Computability.Language
import SpokenGrammar.Settings

namespace SpokenGrammar

variable {tag : Char × Char} {a b s : List Char}

theorem withoutTags_of_cutAt {before after inside rest : List Char}
    (h₁ : Text.cutAt tag.1 s = some (before, after))
    (h₂ : Text.cutAt tag.2 (tag.1 :: after) = some (inside, rest)) :
    withoutTags tag s = before ++ withoutTags tag rest := by
  rw [withoutTags]
  split
  · rename_i hnone
    cases h₁.symm.trans hnone
  · rename_i before' after' hsome
    obtain ⟨rfl, rfl⟩ := Prod.mk.inj (Option.some.inj (h₁.symm.trans hsome))
    split
    · rename_i hnone
      cases h₂.symm.trans hnone
    · rename_i inside' rest' hsome'
      obtain ⟨-, rfl⟩ := Prod.mk.inj (Option.some.inj (h₂.symm.trans hsome'))
      rfl

theorem withoutTags_of_not_mem (h : tag.1 ∉ s) : withoutTags tag s = s := by
  rw [withoutTags]
  split
  · rfl
  · rename_i hsome
    rw [Text.cutAt_eq_none_iff.mpr h] at hsome
    cases hsome

theorem withoutTags_tag (hne : tag.1 ≠ tag.2) (ha : tag.1 ∉ a) (hb : tag.2 ∉ b) (s : List Char) :
    withoutTags tag (a ++ (tag.1 :: b ++ [tag.2]) ++ s) = a ++ withoutTags tag s := by
  have hopen : Text.cutAt tag.1 (a ++ (tag.1 :: b ++ [tag.2]) ++ s) =
      some (a, b ++ tag.2 :: s) := by
    rw [show a ++ (tag.1 :: b ++ [tag.2]) ++ s = a ++ tag.1 :: (b ++ tag.2 :: s) by simp]
    exact Text.cutAt_append ha _
  have hclose : Text.cutAt tag.2 (tag.1 :: (b ++ tag.2 :: s)) = some (tag.1 :: b, s) :=
    Text.cutAt_append (List.not_mem_cons_of_ne_of_not_mem hne.symm hb) s
  exact withoutTags_of_cutAt hopen hclose

namespace Settings

variable {settings : Settings} {x : String}

theorem format_empty (settings : Settings) : settings.format "" = none := by
  have hstrip : withoutTags settings.punctuation.tag [] = [] :=
    withoutTags_of_not_mem List.not_mem_nil
  have hsqueeze : Text.squeeze [] = [] := by
    rw [Text.squeeze, Text.words]
    rfl
  simp [format, hstrip, hsqueeze]

theorem format_stripTags (settings : Settings) (s : String) :
    { settings with stripTags := true }.format s =
      { settings with stripTags := false }.format
        (String.ofList (withoutTags settings.punctuation.tag s.toList)) := by
  simp [format]

theorem exists_format_iff {ss : List String} {l : Language Char}
    (h : ∀ s, s ∈ ss ↔ s ≠ "" ∧ s.toList ∈ l) :
    (∃ s ∈ ss, settings.format s = some x) ↔
      ∃ w ∈ l, settings.format (String.ofList w) = some x := by
  constructor
  · rintro ⟨s, hs, hx⟩
    refine ⟨s.toList, ((h s).mp hs).2, ?_⟩
    rwa [String.ofList_toList]
  · rintro ⟨w, hw, hx⟩
    refine ⟨String.ofList w, (h _).mpr ⟨?_, ?_⟩, hx⟩
    · intro hempty
      rw [hempty, format_empty] at hx
      cases hx
    · rwa [String.toList_ofList]

end Settings

end SpokenGrammar
