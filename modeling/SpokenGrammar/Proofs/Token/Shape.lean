import SpokenGrammar.Proofs.Token.Annotations

namespace SpokenGrammar

namespace Token

/-- The bytes of `span` in the text are `inside` between two delimiters, and `inside` has none. -/
def Annotated (p : Punctuation) (t : String) (span : Span) (before inside after : List Char) :
    Prop :=
  Text.sliceBytes span.start span.stop t.toList =
    some (before, p.weight :: inside ++ [p.weight], after) ∧ p.weight ∉ inside

def Proper (p : Punctuation) : Token → Prop
  | start => False
  | finish => False
  | mark _ => True
  | reference name => ∃ inside,
      name = String.ofList (p.reference.1 :: inside ++ [p.reference.2]) ∧ p.reference.2 ∉ inside
  | text t none => t ≠ ""
  | text t (some span) => ∃ before inside after, Annotated p t span before inside after

def isText : Token → Bool
  | text _ _ => true
  | _ => false

def Precedes (a : Token) : Token → Prop
  | text _ weight => a.isText = false ∧ (weight.isSome = true → a.isSoleParent = false)
  | _ => True

structure Shaped (p : Punctuation) (body : List Token) : Prop where
  proper : ∀ t ∈ body, t.Proper p
  linked : (start :: body).IsChain Precedes

variable {p : Punctuation} {t : Token}

theorem Annotated.ne_empty {s : String} {span : Span} {before inside after : List Char}
    (h : Annotated p s span before inside after) : s ≠ "" := by
  rintro rfl
  obtain ⟨hsplit, -⟩ := Text.eq_of_sliceBytes h.1
  simp at hsplit

theorem Proper.ne_empty {s : String} {weight : Option Span} (h : (text s weight).Proper p) :
    s ≠ "" := by
  cases weight with
  | none => exact h
  | some span =>
    obtain ⟨before, inside, after, h⟩ := h
    exact h.ne_empty

theorem precedes_of_not_isText (a : Token) (h : t.isText = false) : Precedes a t := by
  cases t with
  | text s weight => cases h
  | _ => trivial

end Token

namespace Lexeme

variable {p : Punctuation} {l : Lexeme} {t : Token}

theorem isText_of_token (h : l.token p = some t) : t.isText = false := by
  rcases token_cases h with ⟨inside, -, rfl⟩ | ⟨m, -, rfl⟩
  · rfl
  · rfl

theorem Readable.proper_token (hl : l.Readable p) (h : l.token p = some t) : t.Proper p := by
  rcases token_cases h with ⟨inside, rfl, rfl⟩ | ⟨m, -, rfl⟩
  · exact ⟨inside, rfl, hl.closed⟩
  · trivial

end Lexeme

namespace Draft

variable {p : Punctuation} {d : Draft} {l : Lexeme} {t : Token}

/-- A draft after the token `t` knows if it is a sole parent, and has an annotation only if not. -/
structure Trails (p : Punctuation) (t : Token) (d : Draft) : Prop where
  afterSole : d.afterSole = t.isSoleParent
  holds : ∃ said weight, d.Holds p said weight ∧
    ∀ inside ∈ weight, p.weight ∉ inside ∧ t.isSoleParent = false

theorem trails_after (p : Punctuation) (t : Token) : (Draft.after t).Trails p t :=
  ⟨rfl, [], none, holds_after t, by simp⟩

namespace Trails

variable (h : d.Trails p t)
include h

theorem add (ht : l.token p = none) (hl : l.isWeight = true → d.refusesWeight = false)
    (hreadable : l.Readable p) : (d.add p l).Trails p t := by
  obtain ⟨hsole, said, weight, hd, hweight⟩ := h
  refine ⟨?_, _, _, hd.add ht hl, ?_⟩
  · cases l <;> exact hsole
  · intro inside hinside
    rcases Option.or_eq_some_iff.mp hinside with hinside | ⟨-, hinside⟩
    · have hfree := hl (Lexeme.isWeight_of_weight? hinside)
      rw [refusesWeight, Bool.or_eq_false_iff, hsole] at hfree
      cases l with
      | weight inside' =>
        obtain rfl := Option.some.inj hinside
        exact ⟨hreadable.closed, hfree.2⟩
      | _ => cases hinside
    · exact hweight inside hinside

theorem tokens_cases (ht : t.isText = false) : d.tokens = [] ∨
    ∃ s, d.tokens = [s] ∧ s.Proper p ∧ t.Precedes s := by
  obtain ⟨-, said, weight, hd, hweight⟩ := h
  rcases hd.tokens_cases with ⟨hnil, -⟩ | htokens
  · exact .inl hnil
  · refine .inr ⟨_, htokens, ?_⟩
    cases weight with
    | none =>
      have hchars : d.chars ≠ [] := by
        intro hnil
        rw [tokens, if_pos (List.reverse_eq_nil_iff.mp hnil)] at htokens
        cases htokens
      rw [hd.1]
      exact ⟨by simpa [Token.Proper] using hchars, ht, Bool.noConfusion⟩
    | some inside =>
      obtain ⟨before, after, -, hchars, hspan⟩ := hd
      obtain ⟨hinside, hsole⟩ := hweight inside rfl
      rw [hspan]
      refine ⟨⟨before, inside, after, ?_, hinside⟩, ht, fun _ => hsole⟩
      rw [hchars, String.toList_ofList, Span.between, Text.sliceBytes_byteLength]
      rfl

end Trails

end Draft

namespace Lexeme

variable {p : Punctuation} {d : Draft} {ls : List Lexeme} {t : Token}

theorem exists_shaped_gather (hreadable : ∀ l ∈ ls, l.Readable p)
    (hfits : Fits p d.refusesWeight ls) (ht : t.isText = false) (hd : d.Trails p t) :
    ∃ body, gather p d ls = body ++ [.finish] ∧ (∀ s ∈ body, s.Proper p) ∧
      (t :: body).IsChain Token.Precedes := by
  induction ls generalizing d t with
  | nil =>
    refine ⟨d.tokens, rfl, ?_⟩
    rcases hd.tokens_cases ht with hnil | ⟨s, hs, hproper, hprecedes⟩
    · simp [hnil]
    · simp [hs, hproper, hprecedes]
  | cons l ls ih =>
    obtain ⟨hweight, hfits⟩ := hfits
    have hl := hreadable l List.mem_cons_self
    have hls : ∀ l' ∈ ls, l'.Readable p := fun l' hl' => hreadable l' (List.mem_cons_of_mem _ hl')
    cases htoken : l.token p with
    | none =>
      rw [refusesNext_part htoken] at hfits
      rw [gather_part htoken]
      exact ih hls hfits ht (hd.add htoken hweight hl)
    | some u =>
      have hu := isText_of_token htoken
      have hproper := hl.proper_token htoken
      rw [refusesNext_token htoken] at hfits
      obtain ⟨body, hbody, hall, hlinked⟩ := ih hls hfits hu (Draft.trails_after p u)
      refine ⟨d.tokens ++ u :: body, by simp [gather_token htoken, hbody], ?_⟩
      rcases hd.tokens_cases ht with hnil | ⟨s, hs, hs', hprecedes⟩
      · simp_all [Token.precedes_of_not_isText]
      · simp_all [Token.precedes_of_not_isText]

end Lexeme

theorem Token.shaped_of_read {p : Punctuation} {expression : String} {ts : List Token}
    (hne : expression ≠ "") (h : read p expression = .ok ts) :
    ∃ body, ts = .start :: body ++ [.finish] ∧ Shaped p body := by
  have hne' : expression.toList ≠ [] := by simpa using hne
  obtain ⟨-, hfits, rfl⟩ := (read_eq_ok hne').mp h
  obtain ⟨body, hbody, hproper, hlinked⟩ :=
    Lexeme.exists_shaped_gather (fun l hl => Lexeme.readable_of_mem hl) hfits (t := .start) rfl
      ⟨rfl, [], none, Draft.holds_empty, by simp⟩
  exact ⟨body, by rw [hbody, List.cons_append], hproper, hlinked⟩

end SpokenGrammar
