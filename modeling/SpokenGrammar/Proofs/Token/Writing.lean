import SpokenGrammar.Proofs.Token.Shape

namespace SpokenGrammar

/-- Whether every character that is given a role plays it. -/
structure Punctuation.Clear (p : Punctuation) : Prop where
  reference : p.role p.reference.1 = .reference
  quote : p.role p.quote = .quote
  weight : p.role p.weight = .weight
  mark : ∀ m, p.role (p.charOf m) = .mark m

theorem Punctuation.clear_default : ({} : Punctuation).Clear := by
  refine ⟨by decide, by decide, by decide, fun m => ?_⟩
  cases m <;> decide

theorem Punctuation.role_escape (p : Punctuation) : p.role p.escape = .escape :=
  if_pos rfl

/-- The ways in which a text can be written: `Spelt p s w` if `w` spells `s`. -/
inductive Spelt (p : Punctuation) : List Char → List Char → Prop where
  | done : Spelt p [] []
  | escaped (c : Char) {s w : List Char} : Spelt p s w → Spelt p (c :: s) (p.escape :: c :: w)
  | quoted (inside : List Char) {s w : List Char} : p.quote ∉ inside → Spelt p s w →
      Spelt p (inside ++ s) (p.quote :: inside ++ p.quote :: w)
  | bare (c : Char) {s w : List Char} : p.role c = .plain → Spelt p s w → Spelt p (c :: s) (c :: w)

inductive Token.Written (p : Punctuation) : Token → List Char → Prop where
  | mark (m : Mark) : Written p (mark m) [p.charOf m]
  | reference (name : String) : Written p (reference name) name.toList
  | text {t : String} {w : List Char} : Spelt p t.toList w → Written p (text t none) w
  | annotated {t : String} {span : Span} {before annotation after w w' : List Char} :
      Text.sliceBytes span.start span.stop t.toList = some (before, annotation, after) →
      Spelt p before w → Spelt p after w' →
      Written p (text t (some span)) (w ++ annotation ++ w')

theorem exists_spelt (p : Punctuation) (s : List Char) : ∃ w, Spelt p s w := by
  induction s with
  | nil => exact ⟨_, .done⟩
  | cons c s ih =>
    obtain ⟨w, hw⟩ := ih
    exact ⟨_, .escaped c hw⟩

theorem Token.Proper.exists_written {p : Punctuation} {t : Token} (h : t.Proper p) :
    ∃ w, Written p t w := by
  cases t with
  | start => cases h
  | finish => cases h
  | mark m => exact ⟨_, .mark m⟩
  | reference name => exact ⟨_, .reference name⟩
  | text t weight =>
    cases weight with
    | none =>
      obtain ⟨w, hw⟩ := exists_spelt p t.toList
      exact ⟨w, .text hw⟩
    | some span =>
      obtain ⟨before, inside, after, hslice, -⟩ := h
      obtain ⟨w, hw⟩ := exists_spelt p before
      obtain ⟨w', hw'⟩ := exists_spelt p after
      exact ⟨_, .annotated hslice hw hw'⟩

namespace Draft

variable (p : Punctuation) (d : Draft) {l : Lexeme} (s s' : List Char)

def push : Draft :=
  { d with reversed := s.reverseAux d.reversed }

@[simp] theorem chars_push : (d.push s).chars = d.chars ++ s := by
  simp [chars, push, List.reverseAux_eq]

@[simp] theorem weight_push : (d.push s).weight = d.weight := rfl

@[simp] theorem afterSole_push : (d.push s).afterSole = d.afterSole := rfl

@[simp] theorem refusesWeight_push : (d.push s).refusesWeight = d.refusesWeight := rfl

@[simp] theorem push_nil : d.push [] = d := rfl

@[simp] theorem push_push : (d.push s).push s' = d.push (s ++ s') := by
  simp [push, List.reverseAux_eq]

@[simp] theorem chars_after (t : Token) : (Draft.after t).chars = [] := rfl

@[simp] theorem afterSole_after (t : Token) : (Draft.after t).afterSole = t.isSoleParent := rfl

@[simp] theorem weight_after (t : Token) : (Draft.after t).weight = none := rfl

@[simp] theorem tokens_after (t : Token) : (Draft.after t).tokens = [] := rfl

theorem add_of_not_isWeight (h : l.isWeight = false) : d.add p l = d.push (l.chars p) := by
  cases l with
  | weight inside => cases h
  | _ => rfl

theorem tokens_annotated (inside : List Char) (hd : d.chars = []) :
    (((d.push s).add p (.weight inside)).push s').tokens =
      [.text (String.ofList (s ++ (p.weight :: inside ++ [p.weight]) ++ s'))
        (some (.between s (p.weight :: inside ++ [p.weight])))] := by
  have hchars : (((d.push s).add p (.weight inside)).push s').chars =
      s ++ (p.weight :: inside ++ [p.weight]) ++ s' := by
    simp [chars_add, hd, Lexeme.chars]
  rw [tokens_of_chars_ne_nil (by simp [hchars]), hchars, weight_push, weight_add, chars_push, hd]
  rfl

end Draft

namespace Token

variable {p : Punctuation} {whole : Nat} {d : Draft} {prev : Token} {s w rest : List Char}
  {ts : List Token} {ws : List (List Char)}

theorem readRest_forms {c : Char} {tail : List Char} {l : Lexeme} (h : Lexeme.Forms p c l tail)
    (hl : l.isWeight = false) (ht : l.token p = none) :
    readRest p whole d (c :: (tail ++ rest)) = readRest p whole (d.push (l.chars p)) rest := by
  have hrole : ¬(p.role c = .weight ∧ d.refusesWeight = true) := by
    rw [← h.isWeight_iff, hl]
    simp
  rw [readRest_part whole hrole (h.read_append rest) ht, Draft.add_of_not_isWeight p d hl]

theorem readRest_spelt (hp : p.Clear) (h : Spelt p s w) :
    readRest p whole d (w ++ rest) = readRest p whole (d.push s) rest := by
  induction h generalizing d with
  | done => rfl
  | @escaped c s w _ ih =>
    have hwritten : p.escape :: c :: w ++ rest = p.escape :: ([c] ++ (w ++ rest)) := rfl
    rw [hwritten, readRest_forms (.escaped c p.role_escape) rfl rfl, ih, Draft.push_push]
    rfl
  | @quoted inside s w hinside _ ih =>
    have hwritten : p.quote :: inside ++ p.quote :: w ++ rest =
        p.quote :: (inside ++ [p.quote] ++ (w ++ rest)) := by simp
    rw [hwritten, readRest_forms (.quoted inside hp.quote hinside) rfl rfl, ih, Draft.push_push]
    rfl
  | @bare c s w hc _ ih =>
    have hwritten : c :: w ++ rest = c :: ([] ++ (w ++ rest)) := rfl
    rw [hwritten, readRest_forms (.plain hc) rfl rfl, ih, Draft.push_push]
    rfl

theorem Annotated.eq_between {t : String} {span : Span} {before inside after : List Char}
    (h : Annotated p t span before inside after) :
    t = String.ofList (before ++ (p.weight :: inside ++ [p.weight]) ++ after) ∧
      span = .between before (p.weight :: inside ++ [p.weight]) := by
  obtain ⟨hchars, hstart, hstop⟩ := Text.eq_of_sliceBytes h.1
  rw [Text.byteLength_append] at hstop
  rw [hstart] at hstop
  rw [Span.between, ← hchars, hstart, hstop]
  simp

theorem exists_draft_of_written (hp : p.Clear) {t : String} {weight : Option Span}
    (hproper : (text t weight).Proper p) (hprev : prev.Precedes (text t weight))
    (hw : Written p (text t weight) w) :
    ∃ d : Draft, d.tokens = [text t weight] ∧
      ∀ rest, readRest p whole (.after prev) (w ++ rest) = readRest p whole d rest := by
  cases hw with
  | text hw =>
    have hne : t.toList ≠ [] := by simpa using hproper.ne_empty
    refine ⟨(Draft.after prev).push t.toList, ?_, fun rest => readRest_spelt hp hw⟩
    rw [Draft.tokens_of_chars_ne_nil (by simpa using hne)]
    simp
  | @annotated _ span before annotation after w w' hslice hw hw' =>
    obtain ⟨before', inside, after', hannotated⟩ := hproper
    obtain ⟨rfl, rfl, rfl⟩ : before = before' ∧ annotation = p.weight :: inside ++ [p.weight] ∧
        after = after' := by
      simpa using hslice.symm.trans hannotated.1
    obtain ⟨rfl, rfl⟩ := hannotated.eq_between
    have hallowed : ¬(p.role p.weight = .weight ∧
        ((Draft.after prev).push before).refusesWeight = true) := by
      simpa [Draft.refusesWeight, hp.weight] using hprev.2 rfl
    have hforms : Lexeme.Forms p p.weight (.weight inside) (inside ++ [p.weight]) :=
      .weight inside hp.weight hannotated.2
    refine ⟨_, Draft.tokens_annotated p (.after prev) before after inside rfl, fun rest => ?_⟩
    have hwritten : w ++ (p.weight :: inside ++ [p.weight]) ++ w' ++ rest =
        w ++ (p.weight :: (inside ++ [p.weight] ++ (w' ++ rest))) := by simp
    rw [hwritten, readRest_spelt hp hw,
      readRest_part whole hallowed (hforms.read_append (w' ++ rest)) rfl, readRest_spelt hp hw']

theorem readRest_of_written (hp : p.Clear) {t : Token} (hproper : t.Proper p)
    (htext : t.isText = false) (hw : Written p t w) (rest : List Char) :
    readRest p whole d (w ++ rest) =
      (readRest p whole (.after t) rest).map (d.tokens ++ t :: ·) := by
  cases hw with
  | mark m =>
    have hforms : Lexeme.Forms p (p.charOf m) (.mark m) [] := .mark m (hp.mark m)
    exact readRest_token whole (by simp [hp.mark m]) (hforms.read_append rest) rfl
  | reference name =>
    obtain ⟨inside, rfl, hinside⟩ := hproper
    have hforms : Lexeme.Forms p p.reference.1 (.reference inside) (inside ++ [p.reference.2]) :=
      .reference inside hp.reference hinside
    rw [String.toList_ofList]
    exact readRest_token whole (by simp [hp.reference]) (hforms.read_append rest) rfl
  | text _ => cases htext
  | annotated _ _ _ => cases htext

theorem readRest_flatten (hp : p.Clear) (hproper : ∀ t ∈ ts, t.Proper p)
    (hlinked : (prev :: ts).IsChain Precedes) (hd : prev.isText = false → d = .after prev)
    (hws : List.Forall₂ (Written p) ts ws) :
    readRest p whole d ws.flatten = .ok (d.tokens ++ ts ++ [.finish]) := by
  induction hws generalizing prev d with
  | nil => simp [readRest]
  | @cons t w ts ws hw _ ih =>
    obtain ⟨hprecedes, hlinked⟩ := List.isChain_cons_cons.mp hlinked
    obtain ⟨ht, hts⟩ := List.forall_mem_cons.mp hproper
    rw [List.flatten_cons]
    cases htext : t.isText with
    | false =>
      rw [readRest_of_written hp ht htext hw, ih hts hlinked fun _ => rfl]
      simp [Except.map]
    | true =>
      cases t with
      | text t weight =>
        obtain rfl := hd hprecedes.1
        obtain ⟨d', htokens, hread⟩ := exists_draft_of_written hp ht hprecedes hw
        rw [hread, ih hts hlinked Bool.noConfusion, htokens]
        rfl
      | _ => cases htext

theorem read_of_written (hp : p.Clear) (hne : ts ≠ []) (hshaped : Shaped p ts)
    (hws : List.Forall₂ (Written p) ts ws) :
    read p (String.ofList ws.flatten) = .ok (.start :: ts ++ [.finish]) := by
  have hrest : ∀ whole, readRest p whole {} ws.flatten = .ok (ts ++ [.finish]) := fun whole =>
    readRest_flatten hp hshaped.proper hshaped.linked (fun _ => rfl) hws
  have hflatten : ws.flatten ≠ [] := by
    intro hnil
    have hread := hrest 0
    rw [hnil, readRest] at hread
    exact hne (by simpa [Draft.tokens] using hread)
  rw [read_of_ne_nil (by simpa using hflatten), String.toList_ofList, hrest]
  rfl

theorem shaped_iff_exists_read (hp : p.Clear) (hne : ts ≠ []) :
    Shaped p ts ↔ ∃ expression, read p expression = .ok (.start :: ts ++ [.finish]) := by
  constructor
  · intro h
    obtain ⟨ws, hws⟩ := exists_forall₂ fun t ht => (h.proper t ht).exists_written
    exact ⟨_, read_of_written hp hne h hws⟩
  · rintro ⟨expression, hread⟩
    have hexpression : expression ≠ "" := by
      rintro rfl
      simp [read] at hread
    obtain ⟨body, hbody, hshaped⟩ := shaped_of_read hexpression hread
    obtain rfl : ts = body := by simpa using hbody
    exact hshaped

theorem read_written (hne : ts ≠ []) (hshaped : Shaped {} ts) :
    (∃ ws, List.Forall₂ (Written {}) ts ws) ∧
      ∀ ws, List.Forall₂ (Written {}) ts ws →
        read {} (String.ofList ws.flatten) = .ok (.start :: ts ++ [.finish]) := by
  refine ⟨?_, fun ws hws => read_of_written Punctuation.clear_default hne hshaped hws⟩
  exact exists_forall₂ fun t ht => (hshaped.proper t ht).exists_written

theorem read_written_of_quoted :
    let ts : List Token := [.text "é|x/2/\"" (some ⟨4, 7⟩), .mark .alternative, .reference "<a b>",
      .text "/" none, .mark .terminator]
    ts ≠ [] ∧ Shaped {} ts ∧
      read {} "\"é|\"x/2/\\\"|<a b>\\/;" = .ok (.start :: ts ++ [.finish]) ∧
      read {} "\\é\\|\"x\"/2/\\\"|<a b>\"/\";" = .ok (.start :: ts ++ [.finish]) := by
  intro ts
  have hslice : Text.sliceBytes 4 7 "é|x/2/\"".toList =
      some ("é|x".toList, "/2/".toList, "\"".toList) := by decide
  have hshaped : Shaped {} ts := by
    constructor
    · simp only [ts, List.forall_mem_cons]
      exact ⟨⟨_, ['2'], _, hslice, by decide⟩, trivial, ⟨"a b".toList, by decide, by decide⟩,
        by simp [Proper], trivial, by simp⟩
    · simp [ts, Precedes, isText, isSoleParent]
  have hread := (read_written (by simp [ts]) hshaped).2
  have hrest : ∀ w w', Spelt {} "é|x".toList w → Spelt {} "/".toList w' →
      List.Forall₂ (Written {}) ts
        [w ++ "/2/".toList ++ "\\\"".toList, ['|'], "<a b>".toList, w', [';']] :=
    fun w w' hw hw' => .cons (.annotated hslice hw (.escaped '"' .done))
      (.cons (.mark .alternative) (.cons (.reference "<a b>") (.cons (.text hw')
        (.cons (.mark .terminator) .nil))))
  refine ⟨by simp [ts], hshaped, ?_, ?_⟩
  · exact hread _ (hrest _ _ (.quoted ['é', '|'] (by decide) (.bare 'x' (by decide) .done))
      (.escaped '/' .done))
  · exact hread _ (hrest _ _ (.escaped 'é' (.escaped '|' (.quoted ['x'] (by decide) .done)))
      (.quoted ['/'] (by decide) .done))

end Token

end SpokenGrammar
