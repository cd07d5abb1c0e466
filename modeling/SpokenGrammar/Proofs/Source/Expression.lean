import SpokenGrammar.Proofs.Source.Reader
import SpokenGrammar.Proofs.Token.Reading
import SpokenGrammar.Source.Basic

/-!
# Where an expression ends

The reader of sources and the reader of tokens pass the same pieces of an expression, one lexeme a
piece. They part only at an opening delimiter that is never closed, an ordinary character to the one
and a fault to the other.
-/

namespace SpokenGrammar

open Reader

namespace Source

variable {c d : Cursor}

def enclosures : List (Char × Char) :=
  [('"', '"'), ('/', '/'), ('{', '}'), ('<', '>')]

inductive Piece (c d : Cursor) : Prop where
  | escaped (x : Char) : c.Passes ['\\', x] d → Piece c d
  | enclosed (delimiters : Char × Char) (inside : List Char) :
      delimiters ∈ enclosures → delimiters.2 ∉ inside →
      c.Passes (delimiters.1 :: inside ++ [delimiters.2]) d → Piece c d
  | single (x : Char) : x ≠ ';' → (x = '\\' → d.rest = []) →
      (∀ delimiters ∈ enclosures, x = delimiters.1 → delimiters.2 ∉ d.rest) →
      c.Passes [x] d → Piece c d

theorem piece_of_reads {u : Unit} (h : Reads expressionPiece c u d) : Piece c d := by
  unfold expressionPiece at h
  rcases reads_orElse.mp h with h | ⟨hescape, h⟩
  · obtain ⟨_, e, hslash, h⟩ := reads_bind.mp h
    obtain ⟨x, e', hx, h⟩ := reads_bind.mp h
    obtain ⟨-, rfl⟩ := reads_pure.mp h
    exact .escaped x ((reads_word.mp hslash).trans (reads_one.mp hx).2)
  rcases reads_orElse.mp h with h | ⟨hquote, h⟩
  · obtain ⟨inside, hnot, hpasses⟩ := reads_enclosed h
    exact .enclosed ('"', '"') inside (by decide) hnot hpasses
  rcases reads_orElse.mp h with h | ⟨hweight, h⟩
  · obtain ⟨inside, hnot, hpasses⟩ := reads_enclosed h
    exact .enclosed ('/', '/') inside (by decide) hnot hpasses
  rcases reads_orElse.mp h with h | ⟨htag, h⟩
  · obtain ⟨inside, hnot, hpasses⟩ := reads_enclosed h
    exact .enclosed ('{', '}') inside (by decide) hnot hpasses
  rcases reads_orElse.mp h with h | ⟨hreference, h⟩
  · obtain ⟨inside, hnot, hpasses⟩ := reads_enclosed h
    exact .enclosed ('<', '>') inside (by decide) hnot hpasses
  obtain ⟨x, e, hx, h⟩ := reads_bind.mp h
  obtain ⟨-, hed⟩ := reads_pure.mp h
  rw [hed] at hx
  obtain ⟨hne, hpasses⟩ := reads_one.mp hx
  refine .single x (by simpa using hne) ?_ ?_ hpasses
  · rintro rfl
    have hslash : Reads (word "\\") c () d := reads_word.mpr hpasses
    cases hd : d.rest with
    | nil => rfl
    | cons y r =>
      have hone : Refuses (one "[_]" fun _ => true) d := by
        cases hv : (one "[_]" (fun _ => true) d).value with
        | none => exact hv
        | some reading =>
          have hpure := refuses_bind.mp (refuses_bind.mp hescape () d hslash) _ _ hv
          exact absurd hpure (Option.some_ne_none _)
      exact absurd (eq_false_of_refuses_one hone hd) Bool.true_eq_false.mp
  · intro delimiters hmem hxo
    subst hxo
    simp only [enclosures, List.mem_cons, List.not_mem_nil, or_false] at hmem
    rcases hmem with rfl | rfl | rfl | rfl
    · exact refuses_enclosed hquote hpasses.rest
    · exact refuses_enclosed hweight hpasses.rest
    · exact refuses_enclosed htag hpasses.rest
    · exact refuses_enclosed hreference hpasses.rest

theorem read_single {x : Char} (hx : x ≠ ';') (hescape : x ≠ '\\')
    (hopens : ∀ delimiters ∈ enclosures, x ≠ delimiters.1) :
    ∃ l, l ≠ .mark .terminator ∧ ∀ t, Lexeme.read {} x t = .ok (l, t) := by
  have hquote : x ≠ '"' := hopens ('"', '"') (by decide)
  have hweight : x ≠ '/' := hopens ('/', '/') (by decide)
  have htag : x ≠ '{' := hopens ('{', '}') (by decide)
  have hreference : x ≠ '<' := hopens ('<', '>') (by decide)
  cases hm : ({} : Punctuation).markOf x with
  | none =>
    have hrole : ({} : Punctuation).role x = .plain := by
      rw [Punctuation.role, if_neg hescape, if_neg hreference, if_neg hquote, if_neg hweight,
        if_neg htag, hm]
    exact ⟨.plain x, Lexeme.noConfusion, fun t => by simp only [Lexeme.read, hrole]⟩
  | some m =>
    have hrole : ({} : Punctuation).role x = .mark m := by
      rw [Punctuation.role, if_neg hescape, if_neg hreference, if_neg hquote, if_neg hweight,
        if_neg htag, hm]
    refine ⟨.mark m, ?_, fun t => by simp only [Lexeme.read, hrole]⟩
    intro heq
    rcases Lexeme.mark.inj heq with rfl
    exact hx (Punctuation.charOf_of_markOf hm).symm

theorem read_opening {delimiters : Char × Char} (h : delimiters ∈ enclosures) :
    ∃ make, (∀ inside, make inside ≠ Lexeme.mark .terminator) ∧
      ∀ t, Lexeme.read {} delimiters.1 t = Lexeme.upTo delimiters.2 make t := by
  simp only [enclosures, List.mem_cons, List.not_mem_nil, or_false] at h
  rcases h with rfl | rfl | rfl | rfl
  · exact ⟨.quoted, fun _ => Lexeme.noConfusion, fun _ => rfl⟩
  · exact ⟨.weight, fun _ => Lexeme.noConfusion, fun _ => rfl⟩
  · exact ⟨.tag, fun _ => Lexeme.noConfusion, fun _ => rfl⟩
  · exact ⟨.reference, fun _ => Lexeme.noConfusion, fun _ => rfl⟩

theorem Piece.lexeme (h : Piece c d) (hd : d.rest ≠ []) :
    ∃ x r, c.Passes (x :: r) d ∧
      ((∃ l, l ≠ .mark .terminator ∧ ∀ t, Lexeme.read {} x (r ++ t) = .ok (l, t)) ∨
        ∃ k, ∀ t, t <+: d.rest → Lexeme.read {} x (r ++ t) = .error (.unclosed k)) := by
  cases h with
  | escaped x hpasses =>
    exact ⟨'\\', [x], hpasses, .inl ⟨.escaped x, Lexeme.noConfusion, fun _ => rfl⟩⟩
  | enclosed delimiters inside hmem hnot hpasses =>
    obtain ⟨make, hmake, hread⟩ := read_opening hmem
    refine ⟨delimiters.1, inside ++ [delimiters.2], hpasses, .inl ⟨make inside, hmake inside, ?_⟩⟩
    intro t
    rw [hread, Lexeme.upTo, List.append_assoc, List.singleton_append, Text.cutAt_append hnot]
  | single x hx hescape hopens hpasses =>
    refine ⟨x, [], hpasses, ?_⟩
    by_cases hopening : ∃ delimiters ∈ enclosures, x = delimiters.1
    · obtain ⟨delimiters, hmem, rfl⟩ := hopening
      obtain ⟨make, -, hread⟩ := read_opening hmem
      refine .inr ⟨delimiters.2, fun t ht => ?_⟩
      have hnot : delimiters.2 ∉ t := fun ht' => hopens delimiters hmem rfl (ht.subset ht')
      rw [List.nil_append, hread, Lexeme.upTo, Text.cutAt_eq_none_iff.mpr hnot]
    · have hne : ∀ delimiters ∈ enclosures, x ≠ delimiters.1 :=
        fun delimiters hmem hxo => hopening ⟨delimiters, hmem, hxo⟩
      exact .inl (read_single hx (fun hxe => hd (hescape hxe)) hne)

/-- How the tokens of a text come out that ends with a terminator, `whole` bytes long: a delimiter
is not closed, a weight is out of place, or the terminator ends what the text before it reads as. -/
inductive Outcome (whole : Nat) (draft : Draft) (u : List Char) : Prop where
  | unclosed (close : Char) (start : Nat) :
      Token.readRest {} whole draft (u ++ [';']) = .error (.unclosed close start) →
      Outcome whole draft u
  | misplaced (start : Nat) :
      Token.readRest {} whole draft (u ++ [';']) = .error (.misplacedWeight start) →
      Outcome whole draft u
  | terminated (body : List Token) :
      Token.readRest {} whole draft (u ++ [';']) =
        .ok (body ++ [.mark .terminator, .finish]) →
      Token.readRest {} whole draft u = .ok (body ++ [.finish]) →
      (∀ t ∈ body, t.IsInner) → Outcome whole draft u

theorem outcome_nil (whole : Nat) (draft : Draft) : Outcome whole draft [] := by
  have hread : Lexeme.read {} ';' [] = .ok (.mark .terminator, []) := rfl
  have hrole : ¬(({} : Punctuation).role ';' = .weight ∧ draft.refusesWeight = true) :=
    fun h => Role.noConfusion h.1
  refine .terminated draft.tokens ?_ ?_ fun t ht => Token.isInner_of_mem_tokens ht
  · rw [List.nil_append, Token.readRest_token whole hrole hread rfl]
    simp [Token.readRest, Except.map, Draft.after, Draft.tokens]
  · simp [Token.readRest]

theorem outcome_cons {whole : Nat} {draft : Draft} {x : Char} {r u : List Char} {l : Lexeme}
    (hl : l ≠ .mark .terminator) (hread : ∀ t, Lexeme.read {} x (r ++ t) = .ok (l, t))
    (h : ∀ draft, Outcome whole draft u) : Outcome whole draft (x :: r ++ u) := by
  by_cases hrole : ({} : Punctuation).role x = .weight ∧ draft.refusesWeight = true
  · exact .misplaced _ (Token.readRest_misplaced whole hrole)
  have hread' : Lexeme.read {} x (r ++ u ++ [';']) = .ok (l, u ++ [';']) := by
    rw [List.append_assoc]
    exact hread _
  cases htoken : l.token {} with
  | none =>
    have hwith := Token.readRest_part whole hrole hread' htoken
    have hwithout := Token.readRest_part whole hrole (hread u) htoken
    cases h (draft.add {} l) with
    | unclosed close start h => exact .unclosed close start (hwith.trans h)
    | misplaced start h => exact .misplaced start (hwith.trans h)
    | terminated body h h' hbody =>
      exact .terminated body (hwith.trans h) (hwithout.trans h') hbody
  | some t =>
    have hwith := Token.readRest_token whole hrole hread' htoken
    have hwithout := Token.readRest_token whole hrole (hread u) htoken
    cases h (.after t) with
    | unclosed close start h =>
      rw [h] at hwith
      exact .unclosed close start hwith
    | misplaced start h =>
      rw [h] at hwith
      exact .misplaced start hwith
    | terminated body h h' hbody =>
      rw [h] at hwith
      rw [h'] at hwithout
      refine .terminated (draft.tokens ++ t :: body) ?_ ?_ ?_
      · simpa [Except.map] using hwith
      · simpa [Except.map] using hwithout
      · intro t' ht'
        rcases List.mem_append.mp ht' with hdraft | hrest
        · exact Token.isInner_of_mem_tokens hdraft
        · rcases List.mem_cons.mp hrest with rfl | hrest
          · exact Token.isInner_of_token htoken hl
          · exact hbody t' hrest

theorem outcome_breach {whole : Nat} {draft : Draft} {x k : Char} {r u : List Char}
    (hread : Lexeme.read {} x (r ++ (u ++ [';'])) = .error (.unclosed k)) :
    Outcome whole draft (x :: r ++ u) := by
  by_cases hrole : ({} : Punctuation).role x = .weight ∧ draft.refusesWeight = true
  · exact .misplaced _ (Token.readRest_misplaced whole hrole)
  · have hbreach := Token.readRest_breach whole hrole hread
    rw [← List.append_assoc] at hbreach
    exact .unclosed k _ hbreach

theorem outcome_of_pieces {fuel : Nat} {pieces : List Unit} {v : List Char}
    (h : Reads (manyUpTo expressionPiece fuel) c pieces d) (hd : d.rest = ';' :: v) :
    ∃ u, c.Passes u d ∧ ∀ whole draft, Outcome whole draft u := by
  -- Each piece is one lexeme, and what is left of the text starts at the next.
  induction fuel generalizing c pieces with
  | zero =>
    obtain ⟨-, rfl⟩ := reads_pure.mp h
    exact ⟨[], .refl c, outcome_nil⟩
  | succ fuel ih =>
    rcases reads_manyUpTo_succ h with ⟨_, e, pieces', hpiece, hpieces, -⟩ | ⟨-, rfl⟩
    · obtain ⟨u, hu, hout⟩ := ih hpieces
      have hrest : e.rest = u ++ [';'] ++ v := by
        rw [hu.rest, hd, List.append_assoc]
        rfl
      have hne : e.rest ≠ [] := by
        rw [hrest]
        simp
      obtain ⟨x, r, hxr, hlexeme⟩ := (piece_of_reads hpiece).lexeme hne
      refine ⟨x :: r ++ u, hxr.trans hu, fun whole draft => ?_⟩
      rcases hlexeme with ⟨l, hl, hread⟩ | ⟨k, hread⟩
      · exact outcome_cons hl hread (hout whole)
      · exact outcome_breach (hread _ ⟨v, hrest.symm⟩)
    · exact ⟨[], .refl d, outcome_nil⟩

theorem outcome_of_expression {text : String} (h : Reads expression c text d) :
    ∃ u, text.toList = u ++ [';'] ∧ ∀ whole draft, Outcome whole draft u := by
  obtain ⟨_, htaken, rfl⟩ := reads_taken h
  obtain ⟨pieces, e, hpieces, hend⟩ := reads_bind.mp htaken
  have hlast := reads_word.mp hend
  obtain ⟨u, hu, hout⟩ := outcome_of_pieces hpieces hlast.rest
  have hall := hu.trans hlast
  refine ⟨u, ?_, hout⟩
  rw [String.toList_ofList, hall.index, Nat.add_sub_cancel_left, hall.rest, List.take_left]
  rfl

theorem exists_reads_rules {text : String} {src : Source} (h : read text = .ok src) :
    ∃ c d, Reads (separated definition layout) c src.rules d := by
  have hsource : ∃ d, Reads source { rest := text.toList } src d := by
    rw [read, Reader.readAll] at h
    split at h
    · rename_i a index hvalue
      rcases Except.ok.inj h with rfl
      exact ⟨_, hvalue⟩
    · cases h
    · cases h
  obtain ⟨d, hsource⟩ := hsource
  obtain ⟨-, c₁, -, hsource⟩ := reads_bind.mp hsource
  obtain ⟨-, c₂, -, hsource⟩ := reads_bind.mp hsource
  obtain ⟨-, c₃, -, hsource⟩ := reads_bind.mp hsource
  obtain ⟨name, c₄, -, hsource⟩ := reads_bind.mp hsource
  obtain ⟨-, c₅, -, hsource⟩ := reads_bind.mp hsource
  obtain ⟨imports, c₆, -, hsource⟩ := reads_bind.mp hsource
  obtain ⟨-, c₇, -, hsource⟩ := reads_bind.mp hsource
  obtain ⟨rules, c₈, hrules, hsource⟩ := reads_bind.mp hsource
  obtain ⟨-, c₉, -, hsource⟩ := reads_bind.mp hsource
  obtain ⟨rfl, -⟩ := reads_pure.mp hsource
  exact ⟨c₇, c₈, hrules⟩

theorem exists_expression_of_mem_rules {text : String} {src : Source} (h : read text = .ok src)
    {rule : Definition} (hrule : rule ∈ src.rules) :
    ∃ c d, Reads expression c rule.expression d := by
  obtain ⟨c, d, hrules⟩ := exists_reads_rules h
  obtain ⟨e, e', hdefinition⟩ := exists_reads_of_mem_separated hrules hrule
  obtain ⟨visible, e₁, -, hdefinition⟩ := reads_bind.mp hdefinition
  obtain ⟨name', e₂, -, hdefinition⟩ := reads_bind.mp hdefinition
  obtain ⟨-, e₃, -, hdefinition⟩ := reads_bind.mp hdefinition
  obtain ⟨-, e₄, -, hdefinition⟩ := reads_bind.mp hdefinition
  obtain ⟨-, e₅, -, hdefinition⟩ := reads_bind.mp hdefinition
  obtain ⟨text', e₆, hexpression, hdefinition⟩ := reads_bind.mp hdefinition
  obtain ⟨rfl, -⟩ := reads_pure.mp hdefinition
  exact ⟨e₅, e₆, hexpression⟩

theorem read_expression {expression : String} {u : List Char}
    (hu : expression.toList = u ++ [';']) :
    Token.read {} expression =
      (Token.readRest {} (Text.byteLength expression.toList) {} (u ++ [';'])).map
        (.start :: ·) := by
  have hne : expression.toList ≠ [] := by
    rw [hu]
    simp
  rw [Token.read_of_ne_nil hne, hu]

theorem expression_ne_nil {text : String} {src : Source} (h : read text = .ok src)
    {rule : Definition} (hrule : rule ∈ src.rules) : rule.expression.toList ≠ [] := by
  obtain ⟨c, d, hreads⟩ := exists_expression_of_mem_rules h hrule
  obtain ⟨u, hu, -⟩ := outcome_of_expression hreads
  rw [hu]
  simp

theorem exists_body_of_mem_rules {text : String} {src : Source} (h : read text = .ok src)
    {rule : Definition} (hrule : rule ∈ src.rules) {tokens : List Token}
    (htokens : Token.read {} rule.expression = .ok tokens) :
    ∃ body : List Token, tokens = .start :: body ++ [.mark .terminator, .finish] ∧
      (∀ t ∈ body, t.IsInner) ∧ ∃ u, rule.expression.toList = u ++ [';'] ∧
        Token.readRest {} (Text.byteLength rule.expression.toList) {} u =
          .ok (body ++ [.finish]) := by
  obtain ⟨c, d, hreads⟩ := exists_expression_of_mem_rules h hrule
  obtain ⟨u, hu, hout⟩ := outcome_of_expression hreads
  rw [read_expression hu] at htokens
  cases hout (Text.byteLength rule.expression.toList) {} with
  | unclosed close start h =>
    rw [h] at htokens
    cases htokens
  | misplaced start h =>
    rw [h] at htokens
    cases htokens
  | terminated body h h' hbody =>
    rw [h] at htokens
    rcases Except.ok.inj htokens with rfl
    exact ⟨body, rfl, hbody, u, hu, h'⟩

theorem tokens_end_with_expression {text : String} {src : Source} (h : read text = .ok src)
    {rule : Definition} (hrule : rule ∈ src.rules) :
    (∃ close start, Token.read {} rule.expression = .error (.unclosed close start)) ∨
      (∃ start, Token.read {} rule.expression = .error (.misplacedWeight start)) ∨
      ∃ u body, rule.expression.toList = u ++ [';'] ∧
        Token.read {} rule.expression = .ok (.start :: body ++ [.mark .terminator, .finish]) ∧
        Token.readRest {} (Text.byteLength rule.expression.toList) {} u =
          .ok (body ++ [.finish]) ∧
        Token.mark .terminator ∉ body := by
  obtain ⟨c, d, hreads⟩ := exists_expression_of_mem_rules h hrule
  obtain ⟨u, hu, hout⟩ := outcome_of_expression hreads
  have hread := read_expression hu
  cases hout (Text.byteLength rule.expression.toList) {} with
  | unclosed close start h =>
    left
    exact ⟨close, start, by rw [hread, h]; rfl⟩
  | misplaced start h =>
    right
    left
    exact ⟨start, by rw [hread, h]; rfl⟩
  | terminated body h h' hbody =>
    right
    right
    refine ⟨u, body, hu, by rw [hread, h]; rfl, h', ?_⟩
    intro hmem
    exact (hbody _ hmem).2.2 rfl

theorem tokens_end_with_guarded_expression :
    let text := "public <a> = \";\" [\\; x] <;>;"
    let rule : Definition := ⟨true, "<a>", "\";\" [\\; x] <;>;"⟩
    ∃ src, read text = .ok src ∧ rule ∈ src.rules ∧
      ((∃ close start, Token.read {} rule.expression = .error (.unclosed close start)) ∨
      (∃ start, Token.read {} rule.expression = .error (.misplacedWeight start)) ∨
      ∃ u body, rule.expression.toList = u ++ [';'] ∧
        Token.read {} rule.expression = .ok (.start :: body ++ [.mark .terminator, .finish]) ∧
        Token.readRest {} (Text.byteLength rule.expression.toList) {} u =
          .ok (body ++ [.finish]) ∧
        Token.mark .terminator ∉ body) := by
  intro text rule
  have hread : read text = .ok { name := none, imports := [], rules := [rule] } := by
    decide +kernel
  have hrule : rule ∈ [rule] := List.mem_singleton_self rule
  exact ⟨_, hread, hrule, tokens_end_with_expression hread hrule⟩

end Source

end SpokenGrammar
