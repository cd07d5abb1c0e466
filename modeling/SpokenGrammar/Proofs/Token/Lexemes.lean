import SpokenGrammar.Proofs.Token.Reading

namespace SpokenGrammar

namespace Lexeme

variable {p : Punctuation} {l : Lexeme} {ls : List Lexeme} {s : List Char}

def isWeight : Lexeme → Bool
  | weight _ => true
  | _ => false

def isTag : Lexeme → Bool
  | tag _ => true
  | _ => false

/-- The lexeme that starts with `c` and goes on with a tail. -/
inductive Forms (p : Punctuation) (c : Char) : Lexeme → List Char → Prop where
  | escaped (e : Char) : p.role c = .escape → Forms p c (.escaped e) [e]
  | reference (inside : List Char) : p.role c = .reference → p.reference.2 ∉ inside →
      Forms p c (.reference inside) (inside ++ [p.reference.2])
  | quoted (inside : List Char) : p.role c = .quote → p.quote ∉ inside →
      Forms p c (.quoted inside) (inside ++ [p.quote])
  | weight (inside : List Char) : p.role c = .weight → p.weight ∉ inside →
      Forms p c (.weight inside) (inside ++ [p.weight])
  | tag (inside : List Char) : p.role c = .tag → p.tag.2 ∉ inside →
      Forms p c (.tag inside) (inside ++ [p.tag.2])
  | mark (m : Mark) : p.role c = .mark m → Forms p c (.mark m) []
  | plain : p.role c = .plain → Forms p c (.plain c) []

theorem upTo_append {close : Char} {make : List Char → Lexeme} {inside : List Char}
    (h : close ∉ inside) (rest : List Char) :
    upTo close make (inside ++ [close] ++ rest) = .ok (make inside, rest) := by
  rw [List.append_assoc, List.singleton_append, upTo, Text.cutAt_append h]

theorem forms_of_read {c : Char} {r rest : List Char} (h : read p c r = .ok (l, rest)) :
    ∃ tail, Forms p c l tail ∧ r = tail ++ rest := by
  unfold read at h
  split at h <;> rename_i hrole
  case h_1 =>
    split at h
    · cases h
    · obtain ⟨rfl, rfl⟩ := Prod.mk.inj (Except.ok.inj h)
      exact ⟨_, .escaped _ hrole, rfl⟩
  case h_2 =>
    obtain ⟨inside, rfl, rfl, hinside⟩ := eq_of_upTo h
    exact ⟨_, .reference inside hrole hinside, by simp⟩
  case h_3 =>
    obtain ⟨inside, rfl, rfl, hinside⟩ := eq_of_upTo h
    exact ⟨_, .quoted inside hrole hinside, by simp⟩
  case h_4 =>
    obtain ⟨inside, rfl, rfl, hinside⟩ := eq_of_upTo h
    exact ⟨_, .weight inside hrole hinside, by simp⟩
  case h_5 =>
    obtain ⟨inside, rfl, rfl, hinside⟩ := eq_of_upTo h
    exact ⟨_, .tag inside hrole hinside, by simp⟩
  case h_6 =>
    obtain ⟨rfl, rfl⟩ := Prod.mk.inj (Except.ok.inj h)
    exact ⟨[], .mark _ hrole, rfl⟩
  case h_7 =>
    obtain ⟨rfl, rfl⟩ := Prod.mk.inj (Except.ok.inj h)
    exact ⟨[], .plain hrole, rfl⟩

namespace Forms

variable {c : Char} {tail : List Char} (h : Forms p c l tail)
include h

theorem read_append (rest : List Char) : read p c (tail ++ rest) = .ok (l, rest) := by
  unfold read
  cases h with
  | escaped e hrole =>
    rw [hrole]
    rfl
  | reference inside hrole hinside =>
    rw [hrole]
    exact upTo_append hinside rest
  | quoted inside hrole hinside =>
    rw [hrole]
    exact upTo_append hinside rest
  | weight inside hrole hinside =>
    rw [hrole]
    exact upTo_append hinside rest
  | tag inside hrole hinside =>
    rw [hrole]
    exact upTo_append hinside rest
  | mark m hrole =>
    rw [hrole]
    rfl
  | plain hrole =>
    rw [hrole]
    rfl

theorem written_eq : l.written p = c :: tail := by
  have hwritten := written_of_read (h.read_append [])
  rw [List.append_nil, List.append_nil] at hwritten
  exact hwritten.symm

theorem isWeight_iff : l.isWeight = true ↔ p.role c = .weight := by
  cases h <;> simp_all [isWeight]

end Forms

def Readable (p : Punctuation) (l : Lexeme) : Prop :=
  ∃ c tail, Forms p c l tail

def Closed (p : Punctuation) : Lexeme → Prop
  | reference inside => p.reference.2 ∉ inside
  | quoted inside => p.quote ∉ inside
  | weight inside => p.weight ∉ inside
  | tag inside => p.tag.2 ∉ inside
  | _ => True

theorem Readable.closed (h : l.Readable p) : l.Closed p := by
  obtain ⟨c, tail, h⟩ := h
  cases h with
  | reference _ _ hinside => exact hinside
  | quoted _ _ hinside => exact hinside
  | weight _ _ hinside => exact hinside
  | tag _ _ hinside => exact hinside
  | _ => trivial

def all (p : Punctuation) : List Char → List Lexeme
  | [] => []
  | c :: r =>
    match _h : read p c r with
    | .error _ => []
    | .ok (l, rest) => l :: all p rest
  termination_by s => s.length
  decreasing_by exact Nat.lt_succ_of_le (length_le_of_read _h)

theorem all_breach {c : Char} {r : List Char} {b : Breach} (h : read p c r = .error b) :
    all p (c :: r) = [] := by
  rw [all]
  split
  · rfl
  · rename_i hl
    cases h.symm.trans hl

theorem all_cons {c : Char} {r rest : List Char} (h : read p c r = .ok (l, rest)) :
    all p (c :: r) = l :: all p rest := by
  rw [all]
  split
  · rename_i hb
    cases h.symm.trans hb
  · rename_i hl
    obtain ⟨rfl, rfl⟩ := Prod.mk.inj (Except.ok.inj (h.symm.trans hl))
    rfl

theorem readable_of_mem (h : l ∈ all p s) : l.Readable p := by
  fun_induction all p s with
  | case1 => cases h
  | case2 c r b hb => cases h
  | case3 c r l' rest hl ih =>
    rcases List.mem_cons.mp h with rfl | h
    · obtain ⟨tail, hforms, -⟩ := forms_of_read hl
      exact ⟨c, tail, hforms⟩
    · exact ih h

theorem all_written (h : ∀ l ∈ ls, l.Readable p) : all p (ls.flatMap (written p)) = ls := by
  induction ls with
  | nil => rw [List.flatMap_nil, all]
  | cons l ls ih =>
    obtain ⟨c, tail, hl⟩ := h l List.mem_cons_self
    rw [List.flatMap_cons, hl.written_eq, List.cons_append, all_cons (hl.read_append _),
      ih fun l' hl' => h l' (List.mem_cons_of_mem _ hl')]

def refusesNext (p : Punctuation) (refuses : Bool) (l : Lexeme) : Bool :=
  (l.token p).elim (l.isWeight || refuses) Token.isSoleParent

def Fits (p : Punctuation) : Bool → List Lexeme → Prop
  | _, [] => True
  | refuses, l :: ls =>
    (l.isWeight = true → refuses = false) ∧ Fits p (l.refusesNext p refuses) ls

def gather (p : Punctuation) (d : Draft) : List Lexeme → List Token
  | [] => d.tokens ++ [.finish]
  | l :: ls =>
    match l.token p with
    | some t => d.tokens ++ t :: gather p (.after t) ls
    | none => gather p (d.add p l) ls

theorem gather_token {d : Draft} {t : Token} (ht : l.token p = some t) :
    gather p d (l :: ls) = d.tokens ++ t :: gather p (.after t) ls := by
  rw [gather, ht]

theorem gather_part {d : Draft} (ht : l.token p = none) :
    gather p d (l :: ls) = gather p (d.add p l) ls := by
  rw [gather, ht]

theorem refusesNext_token {t : Token} (ht : l.token p = some t) (refuses : Bool) :
    l.refusesNext p refuses = (Draft.after t).refusesWeight := by
  rw [refusesNext, ht]
  rfl

theorem refusesNext_part (ht : l.token p = none) (d : Draft) :
    l.refusesNext p d.refusesWeight = (d.add p l).refusesWeight := by
  rw [refusesNext, ht]
  cases l <;> rfl

theorem token_cases {t : Token} (ht : l.token p = some t) :
    (∃ inside, l = .reference inside ∧ t = .reference (String.ofList (l.chars p))) ∨
      ∃ m, l = .mark m ∧ t = .mark m := by
  cases l with
  | reference inside => exact .inl ⟨inside, rfl, (Option.some.inj ht).symm⟩
  | mark m => exact .inr ⟨m, rfl, (Option.some.inj ht).symm⟩
  | plain c => cases ht
  | escaped c => cases ht
  | quoted inside => cases ht
  | weight inside => cases ht
  | tag inside => cases ht

theorem isWeight_of_token {t : Token} (ht : l.token p = some t) : l.isWeight = false := by
  rcases token_cases ht with ⟨inside, rfl, -⟩ | ⟨m, rfl, -⟩
  · rfl
  · rfl

end Lexeme

namespace Token

open Lexeme

variable {p : Punctuation} {whole : Nat} {d : Draft} {s : List Char} {ts : List Token}

theorem readRest_eq_ok :
    readRest p whole d s = .ok ts ↔ (Lexeme.all p s).flatMap (written p) = s ∧
      Fits p d.refusesWeight (Lexeme.all p s) ∧ gather p d (Lexeme.all p s) = ts := by
  fun_induction readRest p whole d s generalizing ts with
  | case1 d =>
    rw [Lexeme.all]
    simp [Fits, gather]
  | case2 d c r hc =>
    refine iff_of_false (by simp) ?_
    rintro ⟨hwhole, hfits, -⟩
    cases hread : Lexeme.read p c r with
    | error b =>
      rw [all_breach hread] at hwhole
      cases hwhole
    | ok part =>
      rw [all_cons hread] at hfits
      obtain ⟨tail, hforms, -⟩ := forms_of_read hread
      have hrefuses := hfits.1 (hforms.isWeight_iff.mpr hc.1)
      rw [hc.2] at hrefuses
      cases hrefuses
  | case3 d c r hc b hb =>
    refine iff_of_false (by simp) ?_
    rintro ⟨hwhole, -⟩
    rw [all_breach hb] at hwhole
    cases hwhole
  | case4 d c r hc l rest hl t ht ih =>
    rw [all_cons hl, gather_token ht, List.flatMap_cons, written_of_read hl, List.append_right_inj,
      Fits, refusesNext_token ht, Attempt.map_eq_ok]
    simp only [isWeight_of_token ht, ih]
    constructor
    · rintro ⟨ts', ⟨hwhole, hfits, rfl⟩, rfl⟩
      exact ⟨hwhole, ⟨Bool.noConfusion, hfits⟩, rfl⟩
    · rintro ⟨hwhole, ⟨-, hfits⟩, rfl⟩
      exact ⟨_, ⟨hwhole, hfits, rfl⟩, rfl⟩
  | case5 d c r hc l rest hl ht ih =>
    have hweight : l.isWeight = true → d.refusesWeight = false := by
      intro hl'
      obtain ⟨tail, hforms, -⟩ := forms_of_read hl
      by_contra hrefuses
      exact hc ⟨hforms.isWeight_iff.mp hl', by simpa using hrefuses⟩
    rw [all_cons hl, gather_part ht, List.flatMap_cons, written_of_read hl, List.append_right_inj,
      Fits, refusesNext_part ht, ih, and_iff_right hweight]

theorem read_eq_ok {expression : String} (hne : expression.toList ≠ []) :
    read p expression = .ok ts ↔
      (Lexeme.all p expression.toList).flatMap (written p) = expression.toList ∧
        Fits p false (Lexeme.all p expression.toList) ∧
        ts = .start :: gather p {} (Lexeme.all p expression.toList) := by
  rw [read_of_ne_nil hne, Attempt.map_eq_ok]
  simp only [readRest_eq_ok]
  constructor
  · rintro ⟨ts, ⟨hwhole, hfits, rfl⟩, rfl⟩
    exact ⟨hwhole, hfits, rfl⟩
  · rintro ⟨hwhole, hfits, rfl⟩
    exact ⟨_, ⟨hwhole, hfits, rfl⟩, rfl⟩

end Token

end SpokenGrammar
