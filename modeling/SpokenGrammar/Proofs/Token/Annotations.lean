import SpokenGrammar.Proofs.Attempt
import SpokenGrammar.Proofs.Graph.Account
import SpokenGrammar.Proofs.Token.Lexemes
import SpokenGrammar.Token.Weight

namespace SpokenGrammar

theorem Text.sliceBytes_byteLength (a b c : List Char) :
    sliceBytes (byteLength a) (byteLength a + byteLength b) (a ++ b ++ c) = some (a, b, c) := by
  rw [sliceBytes, ← byteLength_append, splitAtByte_byteLength]
  simp [splitAtByte_byteLength]

def Span.between (a b : List Char) : Span :=
  ⟨Text.byteLength a, Text.byteLength a + Text.byteLength b⟩

theorem unweighted_between (a b c : List Char) :
    unweighted (String.ofList (a ++ b ++ c)) (some (.between a b)) = a ++ c := by
  rw [unweighted, String.toList_ofList, Span.between, Text.sliceBytes_byteLength]

/-- The text has at the span a number between two delimiters, and `rest` around it. -/
inductive Carries (delimiter : Char) (t : String) (span : Span) : String → Float → Prop where
  | intro {before inside after : List Char} {n : Decimal.Numeral} :
      Text.sliceBytes span.start span.stop t.toList =
        some (before, delimiter :: inside ++ [delimiter], after) →
      Decimal.Numeral.read (Text.trim inside) = some n → isWeight n.toFloat = true →
      Carries delimiter t span (String.ofList (before ++ after)) n.toFloat

theorem takeWeight_eq_ok {delimiter : Char} {t rest : String} {span : Span} {w : Float} :
    takeWeight t span delimiter = .ok (rest, w) ↔ Carries delimiter t span rest w := by
  constructor
  · intro h
    rw [takeWeight] at h
    split at h
    · cases h
    · rename_i before annotation after hslice
      split at h
      · cases h
      · rename_i inside hinside
        obtain rfl := undelimited_eq_some_iff.mp hinside
        split at h
        · cases h
        · split at h
          · cases h
          · rename_i w' hread
            obtain ⟨n, hn, rfl⟩ := Option.map_eq_some_iff.mp hread
            split at h
            · rename_i hweight
              obtain ⟨rfl, rfl⟩ := Prod.mk.inj (Except.ok.inj h)
              exact .intro hslice hn hweight
            · cases h
  · intro h
    cases h with
    | @intro before inside after n hslice hread hweight =>
      have hblank : ¬ Text.allBlank inside = true := by
        intro hblank
        rw [Text.trim_eq_nil_iff.mpr hblank] at hread
        cases hread
      rw [takeWeight, hslice]
      dsimp only
      rw [undelimited_eq_some_iff.mpr rfl]
      dsimp only
      rw [if_neg hblank, hread]
      exact if_pos hweight

def Token.annotation? : Token → Option (String × Span)
  | .text t (some span) => some (t, span)
  | _ => none

namespace Token

variable {token t : Token} {delimiter : Char} {s : String} {span : Span} {w : Option Float}

theorem annotation?_eq_some_iff : token.annotation? = some (s, span) ↔
    token = .text s (some span) := by
  unfold annotation?
  split <;> simp_all

theorem takeWeight_unannotated (h : token.annotation? = none) (delimiter : Char) :
    token.takeWeight delimiter = .ok (token, none) := by
  cases token with
  | text s weight =>
    cases weight with
    | none => rfl
    | some span => cases h
  | _ => rfl

theorem takeWeight_annotated :
    (text s (some span)).takeWeight delimiter = .ok (t, w) ↔
      ∃ rest n, Carries delimiter s span rest n ∧ t = .text rest none ∧ w = some n := by
  rw [takeWeight, Attempt.map_eq_ok]
  constructor
  · rintro ⟨⟨rest, n⟩, hcarries, heq⟩
    obtain ⟨rfl, rfl⟩ := Prod.mk.inj heq
    exact ⟨rest, n, takeWeight_eq_ok.mp hcarries, rfl, rfl⟩
  · rintro ⟨rest, n, hcarries, rfl, rfl⟩
    exact ⟨(rest, n), takeWeight_eq_ok.mpr hcarries, rfl⟩

end Token

def isAmount (inside : List Char) : Bool :=
  !Text.allBlank inside &&
    ((Decimal.Numeral.read (Text.trim inside)).map Decimal.Numeral.toFloat).any isWeight

inductive Misweighed (t : String) (inside : List Char) : Fault → Prop where
  | empty : Text.trim inside = [] → Misweighed t inside (.emptyWeight t)
  | malformed : Text.trim inside ≠ [] →
      (∀ n, Decimal.Numeral.read (Text.trim inside) = some n → isWeight n.toFloat = false) →
      Misweighed t inside (.malformedWeight t)

theorem takeWeight_cases {t : String} {span : Span} {delimiter : Char}
    {before inside after : List Char}
    (h : Text.sliceBytes span.start span.stop t.toList =
      some (before, delimiter :: inside ++ [delimiter], after)) :
    (isAmount inside = true ∧
      ∃ w, takeWeight t span delimiter = .ok (String.ofList (before ++ after), w)) ∨
    (isAmount inside = false ∧
      ∃ f, takeWeight t span delimiter = .error f ∧ Misweighed t inside f) := by
  rw [takeWeight, h]
  dsimp only
  rw [undelimited_eq_some_iff.mpr rfl]
  dsimp only
  split
  · rename_i hblank
    exact .inr ⟨by simp [isAmount, hblank], _, rfl, .empty (Text.trim_eq_nil_iff.mpr hblank)⟩
  · rename_i hblank
    have hne : Text.trim inside ≠ [] := fun hnil => hblank (Text.trim_eq_nil_iff.mp hnil)
    cases hread : Decimal.Numeral.read (Text.trim inside) with
    | none => exact .inr ⟨by simp [isAmount, hread], _, rfl, .malformed hne (by simp [hread])⟩
    | some n =>
      dsimp only [Option.map_some]
      split
      · rename_i hw
        exact .inl ⟨by simp [isAmount, hblank, hread, hw], _, rfl⟩
      · rename_i hw
        exact .inr ⟨by simp [isAmount, hread, hw], _, rfl,
          .malformed hne (by simpa [hread] using hw)⟩

theorem takeWeight_between (delimiter : Char) (before inside after : List Char) :
    (∃ x, takeWeight (String.ofList (before ++ (delimiter :: inside ++ [delimiter]) ++ after))
      (.between before (delimiter :: inside ++ [delimiter])) delimiter = .ok x) ↔
      isAmount inside = true := by
  have hslice : Text.sliceBytes (Span.between before (delimiter :: inside ++ [delimiter])).start
      (Span.between before (delimiter :: inside ++ [delimiter])).stop
      (String.ofList (before ++ (delimiter :: inside ++ [delimiter]) ++ after)).toList =
        some (before, delimiter :: inside ++ [delimiter], after) := by
    rw [String.toList_ofList]
    exact Text.sliceBytes_byteLength ..
  rcases takeWeight_cases hslice with ⟨hamount, w, hw⟩ | ⟨hamount, f, hf, -⟩
  · exact iff_of_true ⟨_, hw⟩ hamount
  · refine iff_of_false ?_ (by simp [hamount])
    rintro ⟨x, hx⟩
    cases hf.symm.trans hx

namespace Lexeme

def spoken (p : Punctuation) : Lexeme → List Char
  | weight _ => []
  | mark _ => []
  | l => l.chars p

def weight? : Lexeme → Option (List Char)
  | weight inside => some inside
  | _ => none

def sign {α : Type} (w : List α) : Lexeme → Sign α
  | mark m => .mark m
  | _ => .say {w}

def signs {α : Type} (f : Lexeme → List α) (ls : List Lexeme) : List (Sign α) :=
  ls.map fun l => l.sign (f l)

theorem signs_cons {α : Type} (f : Lexeme → List α) (l : Lexeme) (ls : List Lexeme) :
    signs f (l :: ls) = l.sign (f l) :: signs f ls := rfl

def mark? : Lexeme → Option Mark
  | mark m => some m
  | _ => none

end Lexeme

def spelled (name : String) : Language Char :=
  {name.toList}

namespace Draft

variable {p : Punctuation} {d : Draft} {said : List Char} {weight : Option (List Char)} {l : Lexeme}
  {ts : List Token}

/-- Whether the draft has gathered the text `said` and an annotation with this inside. -/
def Holds (p : Punctuation) (d : Draft) (said : List Char) : Option (List Char) → Prop
  | none => d.weight = none ∧ d.chars = said
  | some inside => ∃ before after, said = before ++ after ∧
      d.chars = before ++ (Lexeme.weight inside).chars p ++ after ∧
      d.weight = some (.between before ((Lexeme.weight inside).chars p))

theorem weight_add (p : Punctuation) (d : Draft) (inside : List Char) :
    (d.add p (.weight inside)).weight =
      some (.between d.chars ((Lexeme.weight inside).chars p)) := by
  -- A span is counted on the reversed text, which has as many bytes.
  rw [Span.between, Draft.chars, Text.byteLength_reverse]
  rfl

theorem holds_empty : Draft.Holds p {} [] none :=
  ⟨rfl, rfl⟩

theorem holds_after (t : Token) : (Draft.after t).Holds p [] none :=
  ⟨rfl, rfl⟩

namespace Holds

variable (h : d.Holds p said weight)
include h

theorem weight_eq_none (hd : d.refusesWeight = false) : weight = none := by
  cases weight with
  | none => rfl
  | some inside =>
    obtain ⟨before, after, -, -, hspan⟩ := h
    rw [refusesWeight, hspan] at hd
    cases hd

theorem add (ht : l.token p = none) (hl : l.isWeight = true → d.refusesWeight = false) :
    (d.add p l).Holds p (said ++ l.spoken p) (l.weight?.or weight) := by
  have hpart : (d.add p l).weight = d.weight → l.spoken p = l.chars p →
      (d.add p l).Holds p (said ++ l.spoken p) weight := by
    intro hsame hspoken
    cases weight with
    | none =>
      obtain ⟨hnone, hchars⟩ := h
      exact ⟨hsame.trans hnone, by rw [chars_add, hchars, hspoken]⟩
    | some inside =>
      obtain ⟨before, after, rfl, hchars, hspan⟩ := h
      refine ⟨before, after ++ l.spoken p, List.append_assoc .., ?_, hsame.trans hspan⟩
      rw [chars_add, hchars, hspoken, List.append_assoc]
  cases l with
  | weight inside =>
    obtain rfl := h.weight_eq_none (hl rfl)
    obtain ⟨-, hchars⟩ := h
    exact ⟨said, [], rfl, by rw [chars_add, hchars, List.append_nil], by rw [weight_add, hchars]⟩
  | plain c => exact hpart rfl rfl
  | escaped c => exact hpart rfl rfl
  | quoted inside => exact hpart rfl rfl
  | tag inside => exact hpart rfl rfl
  | reference inside => cases ht
  | mark m => cases ht

theorem tokens_cases : (d.tokens = [] ∧ said = [] ∧ weight = none) ∨
    d.tokens = [.text (String.ofList d.chars) d.weight] := by
  by_cases hchars : d.chars = []
  · left
    have hreversed : d.reversed = [] := List.reverse_eq_nil_iff.mp hchars
    cases weight with
    | none => exact ⟨if_pos hreversed, h.2.symm.trans hchars, rfl⟩
    | some inside =>
      obtain ⟨before, after, -, hsome, -⟩ := h
      rw [hchars, Lexeme.chars] at hsome
      simp at hsome
  · exact .inr (tokens_of_chars_ne_nil hchars)

theorem unweighted_eq : unweighted (String.ofList d.chars) d.weight = said := by
  cases weight with
  | none =>
    obtain ⟨hnone, hchars⟩ := h
    rw [hnone, unweighted, String.toList_ofList, hchars]
  | some inside =>
    obtain ⟨before, after, rfl, hchars, hspan⟩ := h
    rw [hchars, hspan, unweighted_between]

theorem run_tokens (ρ : String → Language Char) (o : Account Char) :
    o.run ((d.tokens ++ ts).map (Token.sign ρ)) =
      (o.say {said}).run (ts.map (Token.sign ρ)) := by
  rcases h.tokens_cases with ⟨htokens, rfl, -⟩ | htokens
  · rw [htokens, List.nil_append]
    rw [Account.say_nil]
  · have hsign : Token.sign ρ (.text (String.ofList d.chars) d.weight) = .say {said} := by
      rw [← h.unweighted_eq]
      rfl
    rw [htokens, List.singleton_append, List.map_cons, hsign, Account.run_say]

theorem takeWeight_tokens :
    (∀ t ∈ d.tokens, ∃ x, t.takeWeight p.weight = .ok x) ↔
      ∀ inside ∈ weight, isAmount inside = true := by
  rcases h.tokens_cases with ⟨htokens, -, rfl⟩ | htokens
  · simp [htokens]
  · rw [htokens]
    simp only [List.forall_mem_singleton]
    cases weight with
    | none =>
      rw [h.1]
      exact iff_of_true ⟨_, rfl⟩ (by simp)
    | some inside =>
      obtain ⟨before, after, -, hchars, hspan⟩ := h
      simp only [Option.mem_some_iff, forall_eq']
      rw [← takeWeight_between p.weight before inside after, hchars, hspan]
      constructor
      · rintro ⟨x, hx⟩
        obtain ⟨y, hy, -⟩ := Attempt.map_eq_ok.mp hx
        exact ⟨y, hy⟩
      · rintro ⟨y, hy⟩
        exact ⟨_, Attempt.map_eq_ok.mpr ⟨y, hy, rfl⟩⟩

end Holds

end Draft

namespace Lexeme

variable {p : Punctuation} {d : Draft} {said : List Char} {weight : Option (List Char)} {l : Lexeme}
  {ls : List Lexeme} {ts : List Token}

/-- The token that the lexeme would be if no other added to its text. -/
def alone (p : Punctuation) (l : Lexeme) : Token :=
  (l.token p).getD (.text (String.ofList (l.spoken p)) none)

theorem alone_of_token {t : Token} (ht : l.token p = some t) : l.alone p = t := by
  rw [alone, ht, Option.getD_some]

theorem alone_of_part (ht : l.token p = none) :
    l.alone p = .text (String.ofList (l.spoken p)) none := by
  rw [alone, ht, Option.getD_none]

theorem isInner_alone (hl : l ≠ .mark .terminator) : (l.alone p).IsInner := by
  cases ht : l.token p with
  | some t => exact alone_of_token ht ▸ Token.isInner_of_token ht hl
  | none => exact alone_of_part ht ▸ ⟨Token.noConfusion, Token.noConfusion, Token.noConfusion⟩

theorem sign_of_part (ht : l.token p = none) (ρ : String → Language Char) :
    (l.alone p).sign ρ = .say {l.spoken p} := by
  rw [alone_of_part ht, Token.sign, Token.language, unweighted, String.toList_ofList]
  exact fun _ => Token.noConfusion

theorem sign_alone (p : Punctuation) (l : Lexeme) :
    (l.alone p).sign spelled = l.sign (l.spoken p) := by
  cases ht : l.token p with
  | some t =>
    rw [alone_of_token ht]
    rcases token_cases ht with ⟨inside, rfl, rfl⟩ | ⟨m, rfl, rfl⟩
    · rw [Token.sign, Token.language, spelled, String.toList_ofList]
      · rfl
      · exact fun _ => Token.noConfusion
    · rfl
  | none =>
    rw [sign_of_part ht]
    cases l with
    | mark m => cases ht
    | _ => rfl

theorem signs_spoken (p : Punctuation) (ls : List Lexeme) :
    (ls.map (alone p)).map (Token.sign spelled) = signs (spoken p) ls := by
  rw [List.map_map]
  exact List.map_congr_left fun l _ => sign_alone p l

theorem weight?_of_token {t : Token} (ht : l.token p = some t) : l.weight? = none := by
  rcases token_cases ht with ⟨inside, rfl, -⟩ | ⟨m, rfl, -⟩
  · rfl
  · rfl

theorem isWeight_of_weight? {inside : List Char} (h : l.weight? = some inside) :
    l.isWeight = true := by
  cases l with
  | weight inside' => rfl
  | _ => cases h

theorem run_gather (hd : d.Holds p said weight) (hfits : Fits p d.refusesWeight ls)
    (ρ : String → Language Char) (o : Account Char) :
    o.run ((gather p d ls).map (Token.sign ρ)) =
      (o.say {said}).run ((ls.map (alone p)).map (Token.sign ρ)) := by
  induction ls generalizing d said weight o with
  | nil =>
    rw [gather, hd.run_tokens]
    exact congrArg some (Account.say_one _)
  | cons l ls ih =>
    obtain ⟨hweight, hfits⟩ := hfits
    rw [List.map_cons, List.map_cons]
    cases ht : l.token p with
    -- A lexeme that is a token ends the draft, and the next one starts empty.
    | some t =>
      rw [refusesNext_token ht] at hfits
      rw [gather_token ht, hd.run_tokens, List.map_cons, alone_of_token ht, Account.run_cons,
        Account.run_cons]
      cases (o.say {said}).step (t.sign ρ) with
      | none => rfl
      | some o' => exact (ih (Draft.holds_after t) hfits o').trans (by rw [Account.say_nil]; rfl)
    | none =>
      rw [refusesNext_part ht] at hfits
      have hword : ({said} * {l.spoken p} : Language Char) = {said ++ l.spoken p} := by
        rw [Language.mul_def]
        exact Set.image2_singleton
      rw [gather_part ht, ih (hd.add ht hweight) hfits, sign_of_part ht, Account.run_say,
        Account.say_say, hword]

theorem run_body (hfits : Fits p false ls) (hls : gather p {} ls = ts ++ [.finish])
    (ρ : String → Language Char) (o : Account Char) :
    o.run (ts.map (Token.sign ρ)) = o.run ((ls.map (alone p)).map (Token.sign ρ)) := by
  have hrun := run_gather Draft.holds_empty hfits ρ o
  have hfinish : ∀ o : Account Char, o.run [Token.finish.sign ρ] = some o :=
    fun o => congrArg some (Account.say_one o)
  rw [hls, Account.say_nil, List.map_append, Account.run_append, List.map_singleton] at hrun
  simpa only [hfinish, Option.bind_fun_some] using hrun

theorem marks_gather (p : Punctuation) (d : Draft) (ls : List Lexeme) :
    (gather p d ls).filterMap Token.mark? = ls.filterMap mark? := by
  have hdraft : ∀ d : Draft, d.tokens.filterMap Token.mark? = [] := by
    intro d
    rw [Draft.tokens]
    split
    · rfl
    · rfl
  induction ls generalizing d with
  | nil =>
    rw [gather, List.filterMap_append, hdraft]
    rfl
  | cons l ls ih =>
    cases ht : l.token p with
    | some t =>
      have hmark : t.mark? = l.mark? := by
        rcases token_cases ht with ⟨inside, rfl, rfl⟩ | ⟨m, rfl, rfl⟩
        · rfl
        · rfl
      rw [gather_token ht, List.filterMap_append, hdraft, List.nil_append, List.filterMap_cons,
        List.filterMap_cons, ih, hmark]
    | none =>
      have hmark : l.mark? = none := by
        cases l with
        | mark m => cases ht
        | _ => rfl
      rw [gather_part ht, ih, List.filterMap_cons, hmark]

theorem takeWeight_gather (hd : d.Holds p said weight) (hfits : Fits p d.refusesWeight ls) :
    (∀ t ∈ gather p d ls, ∃ x, t.takeWeight p.weight = .ok x) ↔
      (∀ inside ∈ weight, isAmount inside = true) ∧
        ∀ l ∈ ls, ∀ inside ∈ l.weight?, isAmount inside = true := by
  induction ls generalizing d said weight with
  | nil =>
    rw [gather, List.forall_mem_append, hd.takeWeight_tokens, List.forall_mem_singleton]
    refine and_congr_right fun _ => iff_of_true ⟨_, rfl⟩ ?_
    exact fun l hl => absurd hl List.not_mem_nil
  | cons l ls ih =>
    obtain ⟨hweight, hfits⟩ := hfits
    rw [List.forall_mem_cons]
    cases ht : l.token p with
    | some t =>
      rw [refusesNext_token ht] at hfits
      have htaken : ∃ x, t.takeWeight p.weight = .ok x := by
        rcases token_cases ht with ⟨inside, -, rfl⟩ | ⟨m, -, rfl⟩
        · exact ⟨_, rfl⟩
        · exact ⟨_, rfl⟩
      rw [gather_token ht, List.forall_mem_append, hd.takeWeight_tokens, List.forall_mem_cons,
        ih (Draft.holds_after t) hfits, weight?_of_token ht]
      simp [htaken]
    | none =>
      rw [refusesNext_part ht] at hfits
      rw [gather_part ht, ih (hd.add ht hweight) hfits, ← and_assoc]
      refine and_congr_left fun _ => ?_
      cases hinside : l.weight? with
      | none => simp
      | some inside =>
        obtain rfl := hd.weight_eq_none (hweight (isWeight_of_weight? hinside))
        simp

end Lexeme

end SpokenGrammar
