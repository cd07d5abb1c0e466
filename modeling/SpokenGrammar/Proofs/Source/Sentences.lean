import Mathlib.Order.FixedPoints
import SpokenGrammar.Proofs.Phrase.Written
import SpokenGrammar.Source.Basic

/-!
# The sentences of definitions

An expression reads as a phrase, and its name stands for the sentences of that phrase, in which
other names stand for theirs. Of the languages that solve these equations the least are meant.
-/

namespace SpokenGrammar

variable {d : Definition} {p q : Phrase} {rules : List Definition} {ρ ρ' : String → Language Char}

/-- Whether the expression is the phrase, written down, and a terminator. -/
def Definition.Reads (d : Definition) (p : Phrase) : Prop :=
  ∃ w, p.Written w ∧ d.expression.toList = w ++ [';']

theorem Definition.Reads.unique (hp : d.Reads p) (hq : d.Reads q) : p = q := by
  obtain ⟨w, hp, hw⟩ := hp
  obtain ⟨v, hq, hv⟩ := hq
  obtain rfl := List.append_cancel_right (hw.symm.trans hv)
  exact hp.unique hq

/-- What the definitions say of a name, when `ρ` says what the names in expressions stand for. -/
def denote (rules : List Definition) (ρ : String → Language Char) (name : String) : Language Char :=
  {w | ∃ d ∈ rules, d.name = name ∧ ∃ p, d.Reads p ∧ w ∈ p.language ρ}

theorem denote_mono (rules : List Definition) : Monotone (denote rules) := by
  intro ρ ρ' hle name w hw
  obtain ⟨d, hd, hname, p, hp, hw⟩ := hw
  exact ⟨d, hd, hname, p, hp, p.language_mono hle hw⟩

theorem denote_eq (hunique : (rules.map Definition.name).Nodup) (hd : d ∈ rules) (hp : d.Reads p) :
    denote rules ρ d.name = p.language ρ := by
  ext w
  constructor
  · rintro ⟨d', hd', hname, q, hq, hw⟩
    obtain rfl := List.inj_on_of_nodup_map hunique hd' hd hname
    obtain rfl := hq.unique hp
    exact hw
  · intro hw
    exact ⟨d, hd, rfl, p, hp, hw⟩

noncomputable def sentences (rules : List Definition) : String → Language Char :=
  OrderHom.lfp ⟨denote rules, denote_mono rules⟩

theorem denote_sentences (rules : List Definition) :
    denote rules (sentences rules) = sentences rules :=
  OrderHom.map_lfp ⟨denote rules, denote_mono rules⟩

theorem sentences_eq (hunique : (rules.map Definition.name).Nodup) (hd : d ∈ rules)
    (hp : d.Reads p) : sentences rules d.name = p.language (sentences rules) := by
  rw [← denote_eq hunique hd hp, denote_sentences]

end SpokenGrammar
