import SpokenGrammar.Proofs.Settings
import SpokenGrammar.Proofs.Token.Annotations

namespace SpokenGrammar

namespace Lexeme

variable {p : Punctuation} {l : Lexeme} {ls : List Lexeme}

def bare (p : Punctuation) : Lexeme → List Char
  | tag _ => []
  | l => l.spoken p

theorem bare_of_not_isTag (h : l.isTag = false) : l.bare p = l.spoken p := by
  cases l with
  | tag inside => cases h
  | _ => rfl

/-- Whether only a tag says the character that starts one. -/
def Plain (p : Punctuation) (l : Lexeme) : Prop :=
  l.isTag = false → p.tag.1 ∉ l.spoken p

theorem withoutTags_spoken (hne : p.tag.1 ≠ p.tag.2) (hreadable : ∀ l ∈ ls, l.Readable p)
    (hplain : ∀ l ∈ ls, l.Plain p) :
    withoutTags p.tag (ls.flatMap (spoken p)) = ls.flatMap (bare p) := by
  -- The text before the next tag has to be carried along, since a search starts in it.
  have hprefix : ∀ a, p.tag.1 ∉ a →
      withoutTags p.tag (a ++ ls.flatMap (spoken p)) = a ++ ls.flatMap (bare p) := by
    induction ls with
    | nil =>
      intro a ha
      rw [List.flatMap_nil, List.append_nil]
      exact (withoutTags_of_not_mem ha).trans (List.append_nil a).symm
    | cons l ls ih =>
      have hih := ih (fun l' hl' => hreadable l' (List.mem_cons_of_mem _ hl'))
        fun l' hl' => hplain l' (List.mem_cons_of_mem _ hl')
      intro a ha
      rw [List.flatMap_cons, List.flatMap_cons, ← List.append_assoc, ← List.append_assoc]
      cases htag : l.isTag with
      | true =>
        cases l with
        | tag inside =>
          have hinside : p.tag.2 ∉ inside := (hreadable _ List.mem_cons_self).closed
          have hrest := hih [] List.not_mem_nil
          rw [List.nil_append, List.nil_append] at hrest
          have htake := withoutTags_tag hne ha hinside (ls.flatMap (spoken p))
          rw [hrest] at htake
          rw [bare, List.append_nil]
          exact htake
        | _ => cases htag
      | false =>
        have hspoken := hplain l List.mem_cons_self htag
        rw [bare_of_not_isTag htag]
        exact hih _ fun hmem => (List.mem_append.mp hmem).elim ha hspoken
  exact hprefix [] List.not_mem_nil

def untagged (ls : List Lexeme) : List Lexeme :=
  ls.filter (!·.isTag)

theorem Fits.untagged {refuses : Bool} (h : Fits p refuses ls) :
    Fits p refuses (Lexeme.untagged ls) := by
  induction ls generalizing refuses with
  | nil => trivial
  | cons l ls ih =>
    obtain ⟨hweight, hrest⟩ := h
    cases l with
    | tag inside => exact ih hrest
    | _ => exact ⟨hweight, ih hrest⟩

theorem marks_untagged (ls : List Lexeme) :
    (untagged ls).filterMap mark? = ls.filterMap mark? := by
  induction ls with
  | nil => rfl
  | cons l ls ih =>
    cases l with
    | mark m => exact congrArg (m :: ·) ih
    | _ => exact ih

theorem run_untagged (o : Account Char) (ls : List Lexeme) :
    o.run (signs (spoken p) (untagged ls)) = o.run (signs (bare p) ls) := by
  induction ls generalizing o with
  | nil => rfl
  | cons l ls ih =>
    cases htag : l.isTag with
    | true =>
      have hdrop : untagged (l :: ls) = untagged ls := List.filter_cons_of_neg (by simp [htag])
      cases l with
      | tag inside =>
        rw [hdrop, ih, signs_cons]
        exact congrArg (·.run (signs (bare p) ls)) (Account.say_nil o).symm
      | _ => cases htag
    | false =>
      have hkeep : untagged (l :: ls) = l :: untagged ls :=
        List.filter_cons_of_pos (by simp [htag])
      rw [hkeep, signs_cons, signs_cons, bare_of_not_isTag htag, Account.run_cons,
        Account.run_cons]
      exact congrArg _ (funext ih)

theorem map_sign {α β : Type} (f : α → List β) (a : α) (l : Lexeme) :
    (l.sign [a]).map (fun a => {f a}) = l.sign (f a) := by
  cases l with
  | mark m => rfl
  | _ => exact congrArg Sign.say (substitute_letter _ _)

theorem exists_routes {α : Type} {f : Lexeme → List α} {o : Account α}
    (h : Account.opened.run (signs f ls) = some o) :
    ∃ routes : Language Lexeme, (∀ q ∈ routes, ∀ l ∈ q, l ∈ ls) ∧
      o.said = substitute (fun l => {f l}) routes ∧
      ∀ f' : Lexeme → List α, ∃ o', Account.opened.run (signs f' ls) = some o' ∧
        o'.levels.length = o.levels.length ∧ o'.said = substitute (fun l => {f' l}) routes := by
  -- Each lexeme is a letter of its own, which keeps that it is one of `ls`.
  let letters : List (Sign { l // l ∈ ls }) := ls.attach.map fun l => l.1.sign [l]
  have hsigns : ∀ f : Lexeme → List α, signs f ls = letters.map (.map fun l => {f l.1}) := by
    intro f
    rw [List.map_map, signs, ← List.attach_map_val (l := ls) (f := fun l => l.sign (f l))]
    exact List.map_congr_left fun l _ => (map_sign (fun l => f l.1) l l.1).symm
  have hrun : ∀ f : Lexeme → List α, Account.opened.run (signs f ls) =
      (Account.opened.run letters).map (.map fun l => {f l.1}) := by
    intro f
    rw [hsigns, ← Account.run_map, Account.map_opened]
  rw [hrun] at h
  obtain ⟨account, haccount, rfl⟩ := Option.map_eq_some_iff.mp h
  have hroutes : ∀ f : Lexeme → List α, (account.map fun l => {f l.1}).said =
      substitute (fun l => {f l}) (Language.map Subtype.val account.said) :=
    fun f => (substitute_map (fun l => ({f l} : Language α)) Subtype.val account.said).symm
  refine ⟨Language.map Subtype.val account.said, ?_, hroutes f, fun f' =>
    ⟨account.map fun l => {f' l.1}, ?_, ?_, hroutes f'⟩⟩
  · rintro q ⟨q', -, rfl⟩ l hl
    obtain ⟨l', -, rfl⟩ := List.mem_map.mp hl
    exact l'.2
  · rw [hrun, haccount]
    rfl
  · rw [Account.map, Account.map, List.length_map, List.length_map]

end Lexeme

def untagged (p : Punctuation) (expression : String) : String :=
  String.ofList ((Lexeme.untagged (Lexeme.all p expression.toList)).flatMap (Lexeme.written p))

theorem all_untagged (p : Punctuation) (expression : String) :
    Lexeme.all p (untagged p expression).toList =
      Lexeme.untagged (Lexeme.all p expression.toList) := by
  rw [untagged, String.toList_ofList]
  exact Lexeme.all_written fun l hl => Lexeme.readable_of_mem (List.mem_of_mem_filter hl)

namespace Token

variable {p : Punctuation} {expression : String} {tokens : List Token}

theorem untagged_ne_nil {m : Mark} (hne : expression.toList ≠ [])
    (hread : read p expression = .ok tokens) (hmark : .mark m ∈ tokens) :
    (untagged p expression).toList ≠ [] := by
  intro hnil
  have hnone := all_untagged p expression
  rw [hnil, Lexeme.all] at hnone
  obtain ⟨-, -, rfl⟩ := (read_eq_ok hne).mp hread
  have hmem := (List.mem_cons.mp hmark).resolve_left Token.noConfusion
  rw [← mem_marks, Lexeme.marks_gather, ← Lexeme.marks_untagged, ← hnone] at hmem
  cases hmem

theorem read_untagged (hne : expression.toList ≠ []) (hne' : (untagged p expression).toList ≠ [])
    (hread : read p expression = .ok tokens) :
    read p (untagged p expression) =
      .ok (.start :: Lexeme.gather p {} (Lexeme.untagged (Lexeme.all p expression.toList))) := by
  obtain ⟨-, hfits, -⟩ := (read_eq_ok hne).mp hread
  rw [read_eq_ok hne', all_untagged]
  refine ⟨?_, hfits.untagged, rfl⟩
  rw [untagged, String.toList_ofList]

end Token

end SpokenGrammar
