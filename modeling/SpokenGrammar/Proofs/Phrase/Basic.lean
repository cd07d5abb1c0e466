import Mathlib.Order.CompletePartialOrder
import SpokenGrammar.Proofs.Language.Substitution
import SpokenGrammar.Proofs.Token.Reading
import SpokenGrammar.Text.Offset

namespace SpokenGrammar

mutual

inductive Phrase where
  | only (c : Clause)
  | or (c : Clause) (rest : Phrase)

inductive Clause where
  | nil
  | cons (a : Atom) (rest : Clause)

inductive Atom where
  | text (t : String) (weight : Option Span)
  | reference (name : String)
  | group (p : Phrase)
  | optional (p : Phrase)

end

mutual

def Phrase.tokens : Phrase → List Token
  | .only c => c.tokens
  | .or c rest => c.tokens ++ .mark .alternative :: rest.tokens

def Clause.tokens : Clause → List Token
  | .nil => []
  | .cons a rest => a.tokens ++ rest.tokens

def Atom.tokens : Atom → List Token
  | .text t weight => [.text t weight]
  | .reference name => [.reference name]
  | .group p => .mark .openGroup :: p.tokens ++ [.mark .closeGroup]
  | .optional p => .mark .openOptional :: p.tokens ++ [.mark .closeOptional]

end

mutual

theorem Phrase.isInner_of_mem (p : Phrase) {t : Token} (ht : t ∈ p.tokens) : t.IsInner := by
  cases p with
  | only c => exact c.isInner_of_mem ht
  | or c rest =>
    rcases List.mem_append.mp ht with ht | ht
    · exact c.isInner_of_mem ht
    · rcases List.mem_cons.mp ht with rfl | ht
      · simp [Token.IsInner]
      · exact rest.isInner_of_mem ht

theorem Clause.isInner_of_mem (c : Clause) {t : Token} (ht : t ∈ c.tokens) : t.IsInner := by
  cases c with
  | nil => cases ht
  | cons a rest =>
    rcases List.mem_append.mp ht with ht | ht
    · exact a.isInner_of_mem ht
    · exact rest.isInner_of_mem ht

theorem Atom.isInner_of_mem (a : Atom) {t : Token} (ht : t ∈ a.tokens) : t.IsInner := by
  cases a with
  | text s weight =>
    rcases List.mem_singleton.mp ht with rfl
    simp [Token.IsInner]
  | reference name =>
    rcases List.mem_singleton.mp ht with rfl
    simp [Token.IsInner]
  | group p =>
    rcases List.mem_cons.mp ht with rfl | ht
    · simp [Token.IsInner]
    · rcases List.mem_append.mp ht with ht | ht
      · exact p.isInner_of_mem ht
      · rcases List.mem_singleton.mp ht with rfl
        simp [Token.IsInner]
  | optional p =>
    rcases List.mem_cons.mp ht with rfl | ht
    · simp [Token.IsInner]
    · rcases List.mem_append.mp ht with ht | ht
      · exact p.isInner_of_mem ht
      · rcases List.mem_singleton.mp ht with rfl
        simp [Token.IsInner]

end

def unweighted (t : String) : Option Span → List Char
  | none => t.toList
  | some span =>
    match Text.sliceBytes span.start span.stop t.toList with
    | some (before, _, after) => before ++ after
    | none => t.toList

mutual

/-- The sentences of a phrase, when `ρ` gives those of the rules it refers to. -/
def Phrase.language (ρ : String → Language Char) : Phrase → Language Char
  | .only c => c.language ρ
  | .or c rest => c.language ρ + rest.language ρ

def Clause.language (ρ : String → Language Char) : Clause → Language Char
  | .nil => 1
  | .cons a rest => a.language ρ * rest.language ρ

def Atom.language (ρ : String → Language Char) : Atom → Language Char
  | .text t weight => {unweighted t weight}
  | .reference name => ρ name
  | .group p => p.language ρ
  | .optional p => p.language ρ + 1

end

mutual

/-- The ways through a phrase, as positions of its tokens, the first of which is at `i`. -/
def Phrase.routes (i : Nat) : Phrase → Language Nat
  | .only c => c.routes i
  | .or c rest => c.routes i + rest.routes (i + c.tokens.length + 1)

def Clause.routes (i : Nat) : Clause → Language Nat
  | .nil => 1
  | .cons a rest => a.routes i * rest.routes (i + a.tokens.length)

def Atom.routes (i : Nat) : Atom → Language Nat
  | .text _ _ => {[i]}
  | .reference _ => {[i]}
  | .group p => {[i]} * p.routes (i + 1) * {[i + 1 + p.tokens.length]}
  | .optional p => {[i]} * (p.routes (i + 1) + 1) * {[i + 1 + p.tokens.length]}

end

def Token.language (ρ : String → Language Char) : Token → Language Char
  | .reference name => ρ name
  | .text t weight => {unweighted t weight}
  | _ => 1

section Spelling

variable {ρ : String → Language Char} {f : Nat → Language Char} {i : Nat} {ts us : List Token}

def Spells (ρ : String → Language Char) (f : Nat → Language Char) (i : Nat)
    (ts : List Token) : Prop :=
  ∀ k t, ts[k]? = some t → f (i + k) = t.language ρ

theorem Spells.left (h : Spells ρ f i (ts ++ us)) : Spells ρ f i ts := by
  intro k t ht
  refine h k t ?_
  rw [List.getElem?_append_left (List.getElem?_eq_some_iff.mp ht).1, ht]

theorem Spells.right (h : Spells ρ f i (ts ++ us)) : Spells ρ f (i + ts.length) us := by
  intro k t ht
  rw [Nat.add_assoc]
  refine h _ t ?_
  rw [List.getElem?_append_right (Nat.le_add_right ..), Nat.add_sub_cancel_left, ht]

theorem Spells.head {t : Token} (h : Spells ρ f i (t :: ts)) : f i = t.language ρ :=
  h 0 t rfl

theorem Spells.tail {t : Token} (h : Spells ρ f i (t :: ts)) : Spells ρ f (i + 1) ts := by
  have hcons : Spells ρ f i ([t] ++ ts) := h
  exact hcons.right

mutual

theorem Phrase.substitute_routes (p : Phrase) {i : Nat} (h : Spells ρ f i p.tokens) :
    substitute f (p.routes i) = p.language ρ := by
  cases p with
  | only c => exact c.substitute_routes h
  | or c rest =>
    have hrest : Spells ρ f (i + c.tokens.length + 1) rest.tokens := (Spells.right h).tail
    rw [Phrase.routes, Phrase.language, substitute_add, c.substitute_routes (Spells.left h),
      rest.substitute_routes hrest]

theorem Clause.substitute_routes (c : Clause) {i : Nat} (h : Spells ρ f i c.tokens) :
    substitute f (c.routes i) = c.language ρ := by
  cases c with
  | nil => exact substitute_one f
  | cons a rest =>
    rw [Clause.routes, Clause.language, substitute_mul, a.substitute_routes (Spells.left h),
      rest.substitute_routes (Spells.right h)]

theorem Atom.substitute_routes (a : Atom) {i : Nat} (h : Spells ρ f i a.tokens) :
    substitute f (a.routes i) = a.language ρ := by
  cases a with
  | text t weight => exact (substitute_letter f i).trans h.head
  | reference name => exact (substitute_letter f i).trans h.head
  | group p =>
    have hopen : f i = 1 := Spells.head h
    have hinner : Spells ρ f (i + 1) (p.tokens ++ [.mark .closeGroup]) := Spells.tail h
    have hclose : f (i + 1 + p.tokens.length) = 1 := hinner.right.head
    rw [Atom.routes, Atom.language, substitute_mul, substitute_mul, substitute_letter,
      substitute_letter, hopen, hclose, p.substitute_routes hinner.left, one_mul, mul_one]
  | optional p =>
    have hopen : f i = 1 := Spells.head h
    have hinner : Spells ρ f (i + 1) (p.tokens ++ [.mark .closeOptional]) := Spells.tail h
    have hclose : f (i + 1 + p.tokens.length) = 1 := hinner.right.head
    rw [Atom.routes, Atom.language, substitute_mul, substitute_mul, substitute_letter,
      substitute_letter, substitute_add, substitute_one, hopen, hclose,
      p.substitute_routes hinner.left, one_mul, mul_one]

end

end Spelling

section Monotone

variable {ρ ρ' : String → Language Char}

mutual

theorem Phrase.language_mono (p : Phrase) (h : ρ ≤ ρ') : p.language ρ ≤ p.language ρ' := by
  cases p with
  | only c => exact c.language_mono h
  | or c rest => exact add_le_add (c.language_mono h) (rest.language_mono h)

theorem Clause.language_mono (c : Clause) (h : ρ ≤ ρ') : c.language ρ ≤ c.language ρ' := by
  cases c with
  | nil => exact le_rfl
  | cons a rest => exact mul_le_mul' (a.language_mono h) (rest.language_mono h)

theorem Atom.language_mono (a : Atom) (h : ρ ≤ ρ') : a.language ρ ≤ a.language ρ' := by
  cases a with
  | text t weight => exact le_rfl
  | reference name => exact h name
  | group p => exact p.language_mono h
  | optional p => exact add_le_add (p.language_mono h) le_rfl

end

end Monotone

section Unique

def EndsClause : List Token → Prop
  | .mark .alternative :: _ => True
  | .mark .closeGroup :: _ => True
  | .mark .closeOptional :: _ => True
  | [] => True
  | _ => False

def EndsPhrase : List Token → Prop
  | .mark .closeGroup :: _ => True
  | .mark .closeOptional :: _ => True
  | [] => True
  | _ => False

theorem endsClause_alternative (ts : List Token) : EndsClause (.mark .alternative :: ts) :=
  trivial

theorem endsPhrase_closeGroup (ts : List Token) : EndsPhrase (.mark .closeGroup :: ts) :=
  trivial

theorem endsPhrase_closeOptional (ts : List Token) : EndsPhrase (.mark .closeOptional :: ts) :=
  trivial

theorem EndsPhrase.endsClause {ts : List Token} (h : EndsPhrase ts) : EndsClause ts := by
  unfold EndsPhrase at h
  split at h
  · trivial
  · trivial
  · trivial
  · exact h.elim

theorem Atom.not_endsClause (a : Atom) (ts : List Token) : ¬ EndsClause (a.tokens ++ ts) := by
  cases a <;> exact id

mutual

theorem Phrase.eq_of_tokens (p q : Phrase) {r s : List Token} (hr : EndsPhrase r)
    (hs : EndsPhrase s) (h : p.tokens ++ r = q.tokens ++ s) : p = q ∧ r = s := by
  cases p with
  | only c =>
    cases q with
    | only d =>
      obtain ⟨rfl, hrs⟩ := c.eq_of_tokens d hr.endsClause hs.endsClause h
      exact ⟨rfl, hrs⟩
    | or d rest =>
      rw [Phrase.tokens, Phrase.tokens, List.append_assoc] at h
      obtain ⟨-, rfl⟩ := c.eq_of_tokens d hr.endsClause (endsClause_alternative _) h
      exact hr.elim
  | or c rest =>
    cases q with
    | only d =>
      rw [Phrase.tokens, Phrase.tokens, List.append_assoc] at h
      obtain ⟨-, rfl⟩ := c.eq_of_tokens d (endsClause_alternative _) hs.endsClause h
      exact hs.elim
    | or d rest' =>
      rw [Phrase.tokens, Phrase.tokens, List.append_assoc, List.append_assoc] at h
      obtain ⟨rfl, htail⟩ :=
        c.eq_of_tokens d (endsClause_alternative _) (endsClause_alternative _) h
      obtain ⟨rfl, hrs⟩ := rest.eq_of_tokens rest' hr hs (List.cons.inj htail).2
      exact ⟨rfl, hrs⟩

theorem Clause.eq_of_tokens (c d : Clause) {r s : List Token} (hr : EndsClause r)
    (hs : EndsClause s) (h : c.tokens ++ r = d.tokens ++ s) : c = d ∧ r = s := by
  cases c with
  | nil =>
    cases d with
    | nil => exact ⟨rfl, h⟩
    | cons b rest =>
      rw [Clause.tokens, Clause.tokens, List.nil_append, List.append_assoc] at h
      exact absurd (h ▸ hr) (b.not_endsClause _)
  | cons a rest =>
    cases d with
    | nil =>
      rw [Clause.tokens, Clause.tokens, List.nil_append, List.append_assoc] at h
      exact absurd (h ▸ hs) (a.not_endsClause _)
    | cons b rest' =>
      rw [Clause.tokens, Clause.tokens, List.append_assoc, List.append_assoc] at h
      obtain ⟨rfl, htail⟩ := a.eq_of_tokens b h
      obtain ⟨rfl, hrs⟩ := rest.eq_of_tokens rest' hr hs htail
      exact ⟨rfl, hrs⟩

theorem Atom.eq_of_tokens (a b : Atom) {r s : List Token}
    (h : a.tokens ++ r = b.tokens ++ s) : a = b ∧ r = s := by
  cases a with
  | text t weight =>
    cases b <;> simp_all [Atom.tokens]
  | reference name =>
    cases b <;> simp_all [Atom.tokens]
  | group p =>
    cases b with
    | group q =>
      have htail : p.tokens ++ .mark .closeGroup :: r = q.tokens ++ .mark .closeGroup :: s := by
        simpa [Atom.tokens] using h
      obtain ⟨rfl, hclose⟩ :=
        p.eq_of_tokens q (endsPhrase_closeGroup _) (endsPhrase_closeGroup _) htail
      exact ⟨rfl, (List.cons.inj hclose).2⟩
    | _ => simp [Atom.tokens] at h
  | optional p =>
    cases b with
    | optional q =>
      have htail : p.tokens ++ .mark .closeOptional :: r =
          q.tokens ++ .mark .closeOptional :: s := by
        simpa [Atom.tokens] using h
      obtain ⟨rfl, hclose⟩ :=
        p.eq_of_tokens q (endsPhrase_closeOptional _) (endsPhrase_closeOptional _) htail
      exact ⟨rfl, (List.cons.inj hclose).2⟩
    | _ => simp [Atom.tokens] at h

end

theorem Phrase.tokens_injective : Function.Injective Phrase.tokens := by
  intro p q h
  have hnil : EndsPhrase [] := trivial
  have happend : p.tokens ++ [] = q.tokens ++ [] := by rw [h]
  exact (p.eq_of_tokens q hnil hnil happend).1

end Unique

end SpokenGrammar
