import Mathlib.Data.List.Basic
import SpokenGrammar.Proofs.Attempt
import SpokenGrammar.Token.Reading

namespace SpokenGrammar

namespace Token

variable {p : Punctuation} {d : Draft} {c : Char} {r rest : List Char} {l : Lexeme}

def IsInner (t : Token) : Prop :=
  t ≠ .start ∧ t ≠ .finish ∧ t ≠ .mark .terminator

theorem isInner_of_mem_tokens {t : Token} (h : t ∈ d.tokens) : t.IsInner := by
  rw [Draft.tokens] at h
  split at h
  · cases h
  · rcases List.mem_singleton.mp h with rfl
    refine ⟨?_, ?_, ?_⟩ <;> exact Token.noConfusion

theorem isInner_of_token {t : Token} (h : l.token p = some t) (hl : l ≠ .mark .terminator) :
    t.IsInner := by
  cases l with
  | reference inside =>
    rcases Option.some.inj h with rfl
    refine ⟨?_, ?_, ?_⟩ <;> exact Token.noConfusion
  | mark m =>
    rcases Option.some.inj h with rfl
    refine ⟨Token.noConfusion, Token.noConfusion, ?_⟩
    intro heq
    exact hl (congrArg Lexeme.mark (Token.mark.inj heq))
  | plain _ => cases h
  | escaped _ => cases h
  | quoted _ => cases h
  | weight _ => cases h
  | tag _ => cases h

theorem read_of_ne_nil {expression : String} (h : expression.toList ≠ []) :
    read p expression =
      (readRest p (Text.byteLength expression.toList) {} expression.toList).map (.start :: ·) := by
  rw [read]
  split
  · rename_i hnil
    exact absurd hnil h
  · rfl

theorem readRest_misplaced (whole : Nat) (hc : p.role c = .weight ∧ d.refusesWeight = true) :
    readRest p whole d (c :: r) =
      .error (.misplacedWeight (whole - Text.byteLength (c :: r))) := by
  rw [readRest, if_pos hc]

section Accepted

variable (whole : Nat) (hc : ¬(p.role c = .weight ∧ d.refusesWeight = true))
include hc

theorem readRest_breach {b : Breach} (h : Lexeme.read p c r = .error b) :
    readRest p whole d (c :: r) = .error (b.fault (whole - Text.byteLength (c :: r))) := by
  rw [readRest, if_neg hc]
  split
  · rename_i b' hb
    rw [h] at hb
    cases hb
    rfl
  · rename_i l' rest' hl
    rw [h] at hl
    cases hl

theorem readRest_lexeme (h : Lexeme.read p c r = .ok (l, rest)) :
    readRest p whole d (c :: r) =
      match l.token p with
      | some t => (readRest p whole (.after t) rest).map (d.tokens ++ t :: ·)
      | none => readRest p whole (d.add p l) rest := by
  rw [readRest, if_neg hc]
  split
  · rename_i b' hb
    rw [h] at hb
    cases hb
  · rename_i l' rest' hl
    rw [h] at hl
    cases hl
    rfl

theorem readRest_token {t : Token} (h : Lexeme.read p c r = .ok (l, rest))
    (ht : l.token p = some t) :
    readRest p whole d (c :: r) =
      (readRest p whole (.after t) rest).map (d.tokens ++ t :: ·) := by
  rw [readRest_lexeme whole hc h, ht]

theorem readRest_part (h : Lexeme.read p c r = .ok (l, rest)) (ht : l.token p = none) :
    readRest p whole d (c :: r) = readRest p whole (d.add p l) rest := by
  rw [readRest_lexeme whole hc h, ht]

end Accepted

theorem reference_not_mem_tokens (d : Draft) (name : String) : Token.reference name ∉ d.tokens := by
  intro h
  rw [Draft.tokens] at h
  split at h
  · cases h
  · exact Token.noConfusion (List.mem_singleton.mp h)

theorem exists_inside_of_mem_readRest {whole : Nat} {s : List Char} {ts : List Token}
    {name : String} (h : readRest p whole d s = .ok ts) (hname : Token.reference name ∈ ts) :
    ∃ inside, name = String.ofList (p.reference.1 :: inside ++ [p.reference.2]) := by
  fun_induction readRest p whole d s generalizing ts with
  | case1 d =>
    rcases Except.ok.inj h with rfl
    rcases List.mem_append.mp hname with hname | hname
    · exact absurd hname (reference_not_mem_tokens d name)
    · cases List.mem_singleton.mp hname
  | case2 d c r hc => cases h
  | case3 d c r hc b hb => cases h
  | case4 d c r hc l rest hl t ht ih =>
    obtain ⟨ts', hts', rfl⟩ := Attempt.map_eq_ok.mp h
    rcases List.mem_append.mp hname with hname | hname
    · exact absurd hname (reference_not_mem_tokens d name)
    · rcases List.mem_cons.mp hname with rfl | hname
      · cases l with
        | reference inside => exact ⟨inside, (Token.reference.inj (Option.some.inj ht)).symm⟩
        | mark m => cases ht
        | plain _ => cases ht
        | escaped _ => cases ht
        | quoted _ => cases ht
        | weight _ => cases ht
        | tag _ => cases ht
      · exact ih hts' hname
  | case5 d c r hc l rest hl ht ih => exact ih h hname

theorem exists_inside_of_mem_read {expression : String} {ts : List Token} {name : String}
    (h : read p expression = .ok ts) (hname : Token.reference name ∈ ts) :
    ∃ inside, name = String.ofList (p.reference.1 :: inside ++ [p.reference.2]) := by
  rw [read] at h
  split at h
  · rcases Except.ok.inj h with rfl
    cases hname
  · obtain ⟨ts', hts', rfl⟩ := Attempt.map_eq_ok.mp h
    rcases List.mem_cons.mp hname with hstart | hname
    · cases hstart
    · exact exists_inside_of_mem_readRest hts' hname

end Token

end SpokenGrammar
