import SpokenGrammar.Proofs.Phrase.Basic
import SpokenGrammar.Proofs.Token.Annotations

namespace SpokenGrammar

variable {w : List Char} {ts us : List Token} {t : Token}

def reserved : List Char :=
  ['\\', '<', '"', '/', '{', '(', ')', '[', ']', '|', ';']

mutual

/-- The ways in which a phrase is written. Each text in it is that of one escape, quote, tag, weight
or character; a weight says nothing. -/
inductive Phrase.Written : Phrase → List Char → Prop where
  | only {c : Clause} {w : List Char} : Clause.Written c w → Phrase.Written (.only c) w
  | or {c : Clause} {rest : Phrase} {u w : List Char} : Clause.Written c u →
      Phrase.Written rest w → Phrase.Written (.or c rest) (u ++ '|' :: w)

inductive Clause.Written : Clause → List Char → Prop where
  | nil : Clause.Written .nil []
  | cons {a : Atom} {rest : Clause} {u w : List Char} : Atom.Written a u →
      Clause.Written rest w → Clause.Written (.cons a rest) (u ++ w)

inductive Atom.Written : Atom → List Char → Prop where
  | bare (c : Char) : c ∉ reserved → Atom.Written (.text (String.ofList [c]) none) [c]
  | escaped (c : Char) : Atom.Written (.text (String.ofList [c]) none) ['\\', c]
  | quoted (inside : List Char) : '"' ∉ inside →
      Atom.Written (.text (String.ofList inside) none) ('"' :: inside ++ ['"'])
  | tag (inside : List Char) : '}' ∉ inside →
      Atom.Written (.text (String.ofList ('{' :: inside ++ ['}'])) none) ('{' :: inside ++ ['}'])
  | weight (inside : List Char) : '/' ∉ inside →
      Atom.Written (.text (String.ofList []) none) ('/' :: inside ++ ['/'])
  | reference (inside : List Char) : '>' ∉ inside →
      Atom.Written (.reference (String.ofList ('<' :: inside ++ ['>']))) ('<' :: inside ++ ['>'])
  | group {p : Phrase} {w : List Char} : Phrase.Written p w →
      Atom.Written (.group p) ('(' :: w ++ [')'])
  | optional {p : Phrase} {w : List Char} : Phrase.Written p w →
      Atom.Written (.optional p) ('[' :: w ++ [']'])

end

theorem role_eq_plain_iff (c : Char) :
    ({} : Punctuation).role c = .plain ↔ c ∉ reserved := by
  constructor
  · have hreserved : reserved.all (({} : Punctuation).role · != .plain) = true := by decide
    exact fun hrole hmem => bne_iff_ne.mp (List.all_eq_true.mp hreserved c hmem) hrole
  · intro h
    simp only [reserved, List.mem_cons, List.not_mem_nil, or_false, not_or] at h
    obtain ⟨hescape, hreference, hquote, hweight, htag, hmarks⟩ := h
    have hnone : ({} : Punctuation).markOf c = none := by
      refine Punctuation.markOf_eq_none_iff.mpr fun m heq => ?_
      subst heq
      cases m <;> simp [Punctuation.charOf] at hmarks
    rw [Punctuation.role, if_neg hescape, if_neg hreference, if_neg hquote, if_neg hweight,
      if_neg htag, hnone]

namespace Lexeme

def Yields (w : List Char) (ts : List Token) : Prop :=
  ∃ ls : List Lexeme, (∀ l ∈ ls, l.Readable {}) ∧ ls.flatMap (written {}) = w ∧
    ls.map (alone {}) = ts

theorem yields_nil : Yields w [] ↔ w = [] := by
  constructor
  · rintro ⟨ls, -, rfl, hls⟩
    rw [List.map_eq_nil_iff.mp hls, List.flatMap_nil]
  · rintro rfl
    exact ⟨[], by simp, rfl, rfl⟩

theorem yields_singleton :
    Yields w [t] ↔ ∃ l : Lexeme, l.Readable {} ∧ l.written {} = w ∧ l.alone {} = t := by
  constructor
  · rintro ⟨ls, hreadable, rfl, hls⟩
    obtain ⟨l, rfl, rfl⟩ := List.map_eq_singleton_iff.mp hls
    exact ⟨l, hreadable l List.mem_cons_self, (List.flatMap_singleton ..).symm, rfl⟩
  · rintro ⟨l, hl, rfl, rfl⟩
    exact ⟨[l], by simpa using hl, List.flatMap_singleton .., rfl⟩

theorem yields_append :
    Yields w (ts ++ us) ↔ ∃ u v, w = u ++ v ∧ Yields u ts ∧ Yields v us := by
  constructor
  · rintro ⟨ls, hreadable, rfl, hls⟩
    obtain ⟨ks, ms, rfl, rfl, rfl⟩ := List.map_eq_append_iff.mp hls
    obtain ⟨hks, hms⟩ := List.forall_mem_append.mp hreadable
    exact ⟨_, _, List.flatMap_append .., ⟨ks, hks, rfl, rfl⟩, ms, hms, rfl, rfl⟩
  · rintro ⟨-, -, rfl, ⟨ks, hks, rfl, rfl⟩, ms, hms, rfl, rfl⟩
    exact ⟨ks ++ ms, List.forall_mem_append.mpr ⟨hks, hms⟩, List.flatMap_append ..,
      List.map_append ..⟩

theorem yields_cons :
    Yields w (t :: ts) ↔ ∃ u v, w = u ++ v ∧ Yields u [t] ∧ Yields v ts := by
  rw [← List.singleton_append, yields_append]

theorem readable_mark (m : Mark) : (mark m).Readable {} := by
  refine ⟨_, [], .mark (c := ({} : Punctuation).charOf m) m ?_⟩
  cases m <;> decide

theorem yields_mark (m : Mark) :
    Yields w [.mark m] ↔ w = [({} : Punctuation).charOf m] := by
  rw [yields_singleton]
  constructor
  · rintro ⟨l, -, rfl, hl⟩
    cases l with
    | mark m' =>
      obtain rfl := Token.mark.inj hl
      rfl
    | _ => cases hl
  · rintro rfl
    exact ⟨mark m, readable_mark m, rfl, rfl⟩

theorem yields_enclosed {o m : Mark} :
    Yields w (.mark o :: ts ++ [.mark m]) ↔
      ∃ v, w = ({} : Punctuation).charOf o :: v ++ [({} : Punctuation).charOf m] ∧
        Yields v ts := by
  rw [List.cons_append, yields_cons]
  simp only [yields_append, yields_mark]
  constructor
  · rintro ⟨-, -, rfl, rfl, v, -, rfl, hv, rfl⟩
    exact ⟨v, rfl, hv⟩
  · rintro ⟨v, rfl, hv⟩
    exact ⟨[_], v ++ [_], rfl, rfl, v, [_], rfl, hv, rfl⟩

theorem Yields.unique (h : Yields w ts) (h' : Yields w us) : ts = us := by
  obtain ⟨ls, hls, rfl, rfl⟩ := h
  obtain ⟨ks, hks, hsame, rfl⟩ := h'
  rw [← all_written hls, ← hsame, all_written hks]

end Lexeme

open Lexeme

theorem Atom.written_text_iff (s : String) (weight : Option Span) :
    Written (.text s weight) w ↔ Yields w [.text s weight] := by
  rw [yields_singleton]
  constructor
  · intro h
    cases h with
    | bare c hc => exact ⟨.plain c, ⟨c, [], .plain ((role_eq_plain_iff c).mpr hc)⟩, rfl, rfl⟩
    | escaped c => exact ⟨.escaped c, ⟨'\\', [c], .escaped c rfl⟩, rfl, rfl⟩
    | quoted inside hinside =>
      exact ⟨.quoted inside, ⟨'"', _, .quoted inside rfl hinside⟩, rfl, rfl⟩
    | tag inside hinside => exact ⟨.tag inside, ⟨'{', _, .tag inside rfl hinside⟩, rfl, rfl⟩
    | weight inside hinside =>
      exact ⟨.weight inside, ⟨'/', _, .weight inside rfl hinside⟩, rfl, rfl⟩
  · rintro ⟨l, hreadable, rfl, hl⟩
    cases l with
    | plain c =>
      obtain ⟨rfl, rfl⟩ := Token.text.inj hl
      obtain ⟨c', tail, hforms⟩ := hreadable
      cases hforms with
      | plain hrole => exact .bare c ((role_eq_plain_iff c).mp hrole)
    | escaped c =>
      obtain ⟨rfl, rfl⟩ := Token.text.inj hl
      exact .escaped c
    | quoted inside =>
      obtain ⟨rfl, rfl⟩ := Token.text.inj hl
      exact .quoted inside hreadable.closed
    | weight inside =>
      obtain ⟨rfl, rfl⟩ := Token.text.inj hl
      exact .weight inside hreadable.closed
    | tag inside =>
      obtain ⟨rfl, rfl⟩ := Token.text.inj hl
      exact .tag inside hreadable.closed
    | reference inside => cases hl
    | mark m => cases hl

theorem Atom.written_reference_iff (name : String) :
    Written (.reference name) w ↔ Yields w [.reference name] := by
  rw [yields_singleton]
  constructor
  · intro h
    cases h with
    | reference inside hinside =>
      exact ⟨.reference inside, ⟨'<', _, .reference inside rfl hinside⟩, rfl, rfl⟩
  · rintro ⟨l, hreadable, rfl, hl⟩
    cases l with
    | reference inside =>
      obtain rfl := Token.reference.inj hl
      exact .reference inside hreadable.closed
    | _ => cases hl

mutual

theorem Phrase.written_iff (p : Phrase) {w : List Char} : p.Written w ↔ Yields w p.tokens := by
  cases p with
  | only c =>
    refine Iff.trans ⟨?_, .only⟩ c.written_iff
    rintro ⟨hc⟩
    exact hc
  | or c rest =>
    rw [Phrase.tokens, yields_append]
    constructor
    · rintro (_ | ⟨hc, hrest⟩)
      refine ⟨_, _, rfl, c.written_iff.mp hc, yields_cons.mpr ?_⟩
      exact ⟨['|'], _, rfl, (yields_mark .alternative).mpr rfl, rest.written_iff.mp hrest⟩
    · rintro ⟨u, x, rfl, hu, hx⟩
      obtain ⟨m, v, rfl, hm, hv⟩ := yields_cons.mp hx
      obtain rfl := (yields_mark .alternative).mp hm
      exact .or (c.written_iff.mpr hu) (rest.written_iff.mpr hv)

theorem Clause.written_iff (c : Clause) {w : List Char} : c.Written w ↔ Yields w c.tokens := by
  cases c with
  | nil =>
    refine Iff.trans ⟨?_, ?_⟩ yields_nil.symm
    · rintro ⟨⟩
      rfl
    · rintro rfl
      exact .nil
  | cons a rest =>
    rw [Clause.tokens, yields_append]
    constructor
    · rintro (_ | ⟨ha, hrest⟩)
      exact ⟨_, _, rfl, a.written_iff.mp ha, rest.written_iff.mp hrest⟩
    · rintro ⟨u, v, rfl, hu, hv⟩
      exact .cons (a.written_iff.mpr hu) (rest.written_iff.mpr hv)

theorem Atom.written_iff (a : Atom) {w : List Char} : a.Written w ↔ Yields w a.tokens := by
  cases a with
  | text s weight => exact Atom.written_text_iff s weight
  | reference name => exact Atom.written_reference_iff name
  | group p =>
    rw [Atom.tokens, yields_enclosed]
    constructor
    · intro h
      cases h with
      | group hp => exact ⟨_, rfl, p.written_iff.mp hp⟩
    · rintro ⟨v, rfl, hv⟩
      exact .group (p.written_iff.mpr hv)
  | optional p =>
    rw [Atom.tokens, yields_enclosed]
    constructor
    · intro h
      cases h with
      | optional hp => exact ⟨_, rfl, p.written_iff.mp hp⟩
    · rintro ⟨v, rfl, hv⟩
      exact .optional (p.written_iff.mpr hv)

end

theorem Phrase.Written.unique {p q : Phrase} (hp : p.Written w) (hq : q.Written w) : p = q :=
  Phrase.tokens_injective ((p.written_iff.mp hp).unique (q.written_iff.mp hq))

end SpokenGrammar
