import SpokenGrammar.Punctuation
import SpokenGrammar.Text.Cut

namespace SpokenGrammar

inductive Lexeme where
  | plain (c : Char)
  | escaped (c : Char)
  | quoted (inside : List Char)
  | weight (inside : List Char)
  | tag (inside : List Char)
  | reference (inside : List Char)
  | mark (m : Mark)
  deriving DecidableEq, Repr

inductive Breach where
  | dangling
  | unclosed (close : Char)
  deriving DecidableEq, Repr

namespace Lexeme

/-- What the lexeme stands for. Annotations and references keep their delimiters. -/
def chars (p : Punctuation) : Lexeme → List Char
  | plain c => [c]
  | escaped c => [c]
  | quoted inside => inside
  | weight inside => p.weight :: inside ++ [p.weight]
  | tag inside => p.tag.1 :: inside ++ [p.tag.2]
  | reference inside => p.reference.1 :: inside ++ [p.reference.2]
  | mark m => [p.charOf m]

def written (p : Punctuation) : Lexeme → List Char
  | escaped c => [p.escape, c]
  | quoted inside => p.quote :: inside ++ [p.quote]
  | l => l.chars p

def upTo (close : Char) (make : List Char → Lexeme) (r : List Char) :
    Except Breach (Lexeme × List Char) :=
  match Text.cutAt close r with
  | some (inside, rest) => .ok (make inside, rest)
  | none => .error (.unclosed close)

theorem eq_of_upTo {close : Char} {make : List Char → Lexeme} {r rest : List Char} {l : Lexeme}
    (h : upTo close make r = .ok (l, rest)) :
    ∃ inside, l = make inside ∧ r = inside ++ close :: rest ∧ close ∉ inside := by
  unfold upTo at h
  split at h
  · rename_i inside rest' hc
    simp only [Except.ok.injEq, Prod.mk.injEq] at h
    obtain ⟨rfl, rfl⟩ := h
    exact ⟨inside, rfl, Text.eq_of_cutAt hc⟩
  · simp at h

def read (p : Punctuation) (c : Char) (r : List Char) : Except Breach (Lexeme × List Char) :=
  match p.role c with
  | .escape =>
    match r with
    | [] => .error .dangling
    | e :: r => .ok (.escaped e, r)
  | .reference => upTo p.reference.2 .reference r
  | .quote => upTo p.quote .quoted r
  | .weight => upTo p.weight .weight r
  | .tag => upTo p.tag.2 .tag r
  | .mark m => .ok (.mark m, r)
  | .plain => .ok (.plain c, r)

theorem written_of_read {p : Punctuation} {c : Char} {r rest : List Char} {l : Lexeme}
    (h : read p c r = .ok (l, rest)) : c :: r = l.written p ++ rest := by
  have hc := p.holder_role c
  unfold read at h
  split at h <;> rename_i hr <;> rw [hr] at hc
  case h_1 =>
    split at h
    · simp at h
    · simp only [Except.ok.injEq, Prod.mk.injEq] at h
      obtain ⟨rfl, rfl⟩ := h
      simpa [written, Punctuation.holder] using hc.symm
  case h_6 =>
    simp only [Except.ok.injEq, Prod.mk.injEq] at h
    obtain ⟨rfl, rfl⟩ := h
    simpa [written, chars, Punctuation.holder] using hc.symm
  case h_7 =>
    simp only [Except.ok.injEq, Prod.mk.injEq] at h
    obtain ⟨rfl, rfl⟩ := h
    simp [written, chars]
  all_goals
    obtain ⟨inside, rfl, rfl, -⟩ := eq_of_upTo h
    simpa [written, chars, Punctuation.holder] using hc.symm

theorem written_ne_nil (p : Punctuation) (l : Lexeme) : l.written p ≠ [] := by
  cases l <;> simp [written, chars]

theorem length_le_of_read {p : Punctuation} {c : Char} {r rest : List Char} {l : Lexeme}
    (h : read p c r = .ok (l, rest)) : rest.length ≤ r.length := by
  have h₁ := congrArg List.length (written_of_read h)
  have h₂ := List.length_pos_iff.2 (written_ne_nil p l)
  simp only [List.length_cons, List.length_append] at h₁
  omega

end Lexeme

end SpokenGrammar
