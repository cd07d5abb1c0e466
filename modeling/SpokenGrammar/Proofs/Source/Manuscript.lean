import SpokenGrammar.Proofs.Source.Statements

namespace SpokenGrammar

open Reader Layout

inductive Filler where
  | space (c : Char) (h : isSpace c = true)
  | line (s : List Char) (h : '\n' ∉ s)
  | block (s : List Char) (h : ¬ ['*', '/'] <:+: s)

namespace Filler

def text : Filler → List Char
  | space c _ => [c]
  | line s _ => '/' :: '/' :: s ++ ['\n']
  | block s _ => '/' :: '*' :: s ++ ['*', '/']

theorem blank_text (f : Filler) : Blank f.text := by
  cases f with
  | space c h => exact blank_space h
  | line s h => exact blank_line h
  | block s h => exact blank_block h

theorem text_ne_nil (f : Filler) : f.text ≠ [] := by
  cases f <;> simp [text]

end Filler

abbrev Gap := List Filler

namespace Gap

def text (g : Gap) : List Char :=
  g.flatMap Filler.text

theorem blank_text (g : Gap) : Blank g.text := by
  induction g with
  | nil => exact blank_nil
  | cons f g ih => exact f.blank_text.append ih

theorem text_ne_nil {g : Gap} (hg : g ≠ []) : g.text ≠ [] := by
  cases g with
  | nil => exact absurd rfl hg
  | cons f g => exact List.append_ne_nil_of_left_ne_nil f.text_ne_nil _

end Gap

structure Placed (σ : Type) where
  gap : Gap
  statement : σ

namespace Placed

variable {σ α : Type} {body : σ → List Char} {r : List Char}

def text (body : σ → List Char) (x : Placed σ) : List Char :=
  x.gap.text ++ body x.statement

theorem skip_text (x : Placed σ) (hstart : skipOne (body x.statement ++ r) = none) :
    skip (x.text body ++ r) = body x.statement ++ r := by
  rw [text, List.append_assoc, x.gap.blank_text, skip_eq_self hstart]

theorem series {p : Reader α} {value : σ → α}
    (hstart : ∀ x r, skipOne (body x ++ r) = none)
    (htakes : ∀ x r, p.Takes (body x ++ r) (value x) r) (hne : ∀ x, body x ≠ [])
    (hstop : p.Declines (skip r)) (xs : List (Placed σ)) :
    Series p (xs.flatMap (text body) ++ r) (xs.map fun x => value x.statement) r := by
  induction xs with
  | nil => exact .stop hstop
  | cons x xs ih =>
    rw [List.flatMap_cons, List.append_assoc]
    refine .more ?_ ?_ ih
    · rw [x.skip_text (hstart _ _)]
      exact htakes x.statement _
    · have hpos := List.length_pos_iff.mpr (hne x.statement)
      simp only [text, List.length_append]
      omega

end Placed

namespace Manuscript

structure Header where
  inside : List Char
  closed : ';' ∉ inside

structure Title where
  gap : Gap
  name : List Char
  spaced : gap ≠ []
  named : name ≠ []
  plain : ∀ c ∈ name, Source.isNameChar c = true ∧ c ≠ '/'

structure Import where
  left : Gap
  inside : List Char
  right : Gap
  closed : '>' ∉ inside

structure Entry where
  visible : Option { g : Gap // g ≠ [] }
  inside : List Char
  left : Gap
  right : Gap
  expression : List Char
  closed : '>' ∉ inside
  ended : Source.afterTerminator none expression = some []
  started : opens expression = false

namespace Header

def body (x : Header) : List Char :=
  "#JSGF".toList ++ (x.inside ++ [';'])

theorem body_append (x : Header) (r : List Char) :
    x.body ++ r = "#JSGF".toList ++ (x.inside ++ ';' :: r) := by
  -- An equation of the definition would have the word evaluated.
  change "#JSGF".toList ++ (x.inside ++ [';']) ++ r = _
  simp only [List.append_assoc, List.singleton_append]

theorem takes (x : Header) (r : List Char) : Source.header.Takes (x.body ++ r) () r := by
  rw [x.body_append]
  exact Source.takes_header x.closed r

theorem skipOne_body (x : Header) (r : List Char) : skipOne (x.body ++ r) = none :=
  rfl

end Header

namespace Title

def body (x : Title) : List Char :=
  "grammar".toList ++ (x.gap.text ++ (x.name ++ [';']))

theorem body_append (x : Title) (r : List Char) :
    x.body ++ r = "grammar".toList ++ (x.gap.text ++ (x.name ++ ';' :: r)) := by
  change "grammar".toList ++ (x.gap.text ++ (x.name ++ [';'])) ++ r = _
  simp only [List.append_assoc, List.singleton_append]

theorem takes (x : Title) (r : List Char) :
    Source.grammarName.Takes (x.body ++ r) (String.ofList x.name) r := by
  rw [x.body_append]
  obtain ⟨gap, name, spaced, named, plain⟩ := x
  cases name with
  | nil => exact absurd rfl named
  | cons c n =>
    obtain ⟨hc, hslash⟩ := plain c List.mem_cons_self
    exact Source.takes_grammarName gap.blank_text (Gap.text_ne_nil spaced) hc hslash
      (fun y hy => (plain y (List.mem_cons_of_mem _ hy)).1) r

theorem skipOne_body (x : Title) (r : List Char) : skipOne (x.body ++ r) = none :=
  rfl

end Title

namespace Import

def body (x : Import) : List Char :=
  "import".toList ++ (x.left.text ++ ('<' :: x.inside ++ '>' :: (x.right.text ++ [';'])))

theorem body_append (x : Import) (r : List Char) :
    x.body ++ r = "import".toList ++
      (x.left.text ++ ('<' :: x.inside ++ '>' :: (x.right.text ++ ';' :: r))) := by
  change "import".toList ++
    (x.left.text ++ ('<' :: x.inside ++ '>' :: (x.right.text ++ [';']))) ++ r = _
  simp only [List.append_assoc, List.cons_append, List.nil_append]

theorem takes (x : Import) (r : List Char) :
    Source.importName.Takes (x.body ++ r) (String.ofList ('<' :: x.inside ++ ['>'])) r := by
  rw [x.body_append]
  exact Source.takes_importName x.left.blank_text x.closed x.right.blank_text r

theorem body_ne_nil (x : Import) : x.body ≠ [] :=
  List.append_ne_nil_of_left_ne_nil (by decide) _

theorem skipOne_body (x : Import) (r : List Char) : skipOne (x.body ++ r) = none :=
  rfl

end Import

namespace Entry

def visibleText (x : Entry) : Option (List Char) :=
  x.visible.map fun g => g.1.text

def body (x : Entry) : List Char :=
  Source.publicPart x.visibleText ++
    ('<' :: x.inside ++ '>' :: (x.left.text ++ '=' :: (x.right.text ++ x.expression)))

def definition (x : Entry) : Definition where
  isPublic := x.visible.isSome
  name := String.ofList ('<' :: x.inside ++ ['>'])
  expression := String.ofList x.expression

theorem body_ne_nil (x : Entry) : x.body ≠ [] := by
  simp [body]

theorem head_body (x : Entry) : x.body.head? ∈ [some '<', some 'p'] := by
  rw [body]
  cases x.visibleText with
  | none => simp [Source.publicPart]
  | some g => simp [Source.publicPart]

theorem body_append (x : Entry) (r : List Char) :
    x.body ++ r = Source.publicPart x.visibleText ++ ('<' :: x.inside ++ '>' ::
      (x.left.text ++ '=' :: (x.right.text ++ (x.expression ++ r)))) := by
  simp [body]

theorem takes (x : Entry) (r : List Char) :
    Source.definition.Takes (x.body ++ r) x.definition r := by
  have hends := Source.ends_of_afterTerminator x.ended r
  have hvisible : ∀ g ∈ x.visibleText, Blank g ∧ g ≠ [] := by
    intro g hg
    obtain ⟨⟨gap, hgap⟩, -, rfl⟩ := Option.map_eq_some_iff.mp hg
    exact ⟨gap.blank_text, Gap.text_ne_nil hgap⟩
  have hpublic : x.visibleText.isSome = x.visible.isSome := Option.isSome_map
  rw [x.body_append, definition, ← hpublic]
  exact Source.takes_definition hvisible x.closed x.left.blank_text x.right.blank_text
    (Source.skipOne_of_opens x.started hends) hends

theorem skipOne_body (x : Entry) (r : List Char) : skipOne (x.body ++ r) = none := by
  rw [body]
  cases x.visibleText with
  | none => rfl
  | some g => rfl

end Entry

end Manuscript

structure Manuscript where
  header : Option (Placed Manuscript.Header)
  title : Option (Placed Manuscript.Title)
  imports : List (Placed Manuscript.Import)
  entries : List (Placed Manuscript.Entry)
  closing : Gap

namespace Manuscript

def rulesText (m : Manuscript) : List Char :=
  m.entries.flatMap (Placed.text Entry.body) ++ m.closing.text

def importsText (m : Manuscript) : List Char :=
  m.imports.flatMap (Placed.text Import.body) ++ m.rulesText

def titleText (m : Manuscript) : List Char :=
  m.title.elim [] (Placed.text Title.body) ++ m.importsText

def text (m : Manuscript) : String :=
  String.ofList (m.header.elim [] (Placed.text Header.body) ++ m.titleText)

def source (m : Manuscript) : Source where
  name := m.title.map fun x => String.ofList x.statement.name
  imports := m.imports.map fun x => String.ofList ('<' :: x.statement.inside ++ ['>'])
  rules := m.entries.map fun x => x.statement.definition

theorem head_rulesText (m : Manuscript) :
    (skip m.rulesText).head? ∈ [none, some '<', some 'p'] := by
  rw [rulesText]
  cases m.entries with
  | nil =>
    rw [List.flatMap_nil, List.nil_append, Blank.skip_eq m.closing.blank_text]
    decide
  | cons x entries =>
    rw [List.flatMap_cons, List.append_assoc, x.skip_text (x.statement.skipOne_body _),
      List.head?_append_of_ne_nil _ x.statement.body_ne_nil]
    exact List.mem_cons_of_mem none x.statement.head_body

theorem head_importsText (m : Manuscript) :
    (skip m.importsText).head? ∈ [none, some '<', some 'p', some 'i'] := by
  rw [importsText]
  cases m.imports with
  | nil => exact List.mem_append_left [some 'i'] m.head_rulesText
  | cons x imports =>
    rw [List.flatMap_cons, List.append_assoc, x.skip_text (x.statement.skipOne_body _),
      x.statement.body_append]
    simp

theorem head_titleText (m : Manuscript) :
    (skip m.titleText).head? ∈ [none, some '<', some 'p', some 'i', some 'g'] := by
  rw [titleText]
  cases m.title with
  | none => exact List.mem_append_left [some 'g'] m.head_importsText
  | some x =>
    rw [Option.elim_some, x.skip_text (x.statement.skipOne_body _), x.statement.body_append]
    simp

theorem series_rules (m : Manuscript) :
    Series Source.definition m.rulesText m.source.rules m.closing.text := by
  refine Placed.series Entry.skipOne_body Entry.takes Entry.body_ne_nil ?_ m.entries
  rw [Blank.skip_eq m.closing.blank_text]
  exact Source.declines_definition (by decide) (by decide)

theorem series_imports (m : Manuscript) :
    Series Source.importName m.importsText m.source.imports m.rulesText := by
  refine Placed.series Import.skipOne_body Import.takes Import.body_ne_nil ?_ m.imports
  exact Source.declines_importName (ne_of_mem_of_not_mem m.head_rulesText (by decide))

theorem exists_takes_title (m : Manuscript) : ∃ t,
    (Reader.optional Source.grammarName).Takes (skip m.titleText) m.source.name t ∧
      skip t = skip m.importsText := by
  rw [source, titleText]
  cases m.title with
  | some x =>
    rw [Option.elim_some, x.skip_text (x.statement.skipOne_body _)]
    exact ⟨m.importsText, (x.statement.takes _).optional, rfl⟩
  | none =>
    have hdeclines := Source.declines_grammarName
      (ne_of_mem_of_not_mem m.head_importsText (by decide))
    exact ⟨_, hdeclines.optional, skip_skip _⟩

theorem exists_takes_header (m : Manuscript) : ∃ v t,
    (Reader.optional Source.header).Takes (skip m.text.toList) v t ∧
      skip t = skip m.titleText := by
  rw [text, String.toList_ofList]
  cases m.header with
  | some x =>
    rw [Option.elim_some, x.skip_text (x.statement.skipOne_body _)]
    exact ⟨some (), m.titleText, (x.statement.takes _).optional, rfl⟩
  | none =>
    have hdeclines := Source.declines_header
      (ne_of_mem_of_not_mem m.head_titleText (by decide))
    exact ⟨none, _, hdeclines.optional, skip_skip _⟩

theorem takes_text (m : Manuscript) : Source.source.Takes m.text.toList m.source [] := by
  obtain ⟨v, hheader⟩ := m.exists_takes_header
  have htakes := Source.takes_source hheader m.exists_takes_title m.series_imports m.series_rules
  rwa [Blank.skip_eq m.closing.blank_text] at htakes

theorem read_text (m : Manuscript) : Source.read m.text = .ok m.source :=
  Source.read_of_takes m.takes_text

theorem read_text_of_switches :
    let gap : { g : Gap // g ≠ [] } := ⟨[.block "<x> = ;".toList (by decide)], by decide⟩
    let line : Gap := [.line [';', '"'] (by decide)]
    let entry : Entry :=
      { visible := some gap, inside := ['a'], left := line, right := [.space '\t' rfl]
        expression := "/2/\";\"\\; <b>;".toList, closed := by decide, ended := by decide
        started := by decide }
    let m : Manuscript :=
      { header := some ⟨[.space '\n' rfl], " V1.0".toList, by decide⟩
        title := some ⟨line, gap, "home".toList, by decide, by decide, by simp; decide⟩
        imports := [⟨gap, [], "m".toList, line, by decide⟩]
        entries := [⟨line, entry⟩, ⟨[], { entry with visible := none, left := [], right := [] }⟩]
        closing := [.space ' ' rfl] }
    m.text = "\n#JSGF V1.0;//;\"\ngrammar/*<x> = ;*/home;/*<x> = ;*/import<m>//;\"\n;" ++
        "//;\"\npublic/*<x> = ;*/<a>//;\"\n=\t/2/\";\"\\; <b>;<a>=/2/\";\"\\; <b>; " ∧
      Source.read m.text = .ok ⟨some "home", ["<m>"],
        [⟨true, "<a>", "/2/\";\"\\; <b>;"⟩, ⟨false, "<a>", "/2/\";\"\\; <b>;"⟩]⟩ := by
  intro gap line entry m
  have hsource : m.source = ⟨some "home", ["<m>"],
      [⟨true, "<a>", "/2/\";\"\\; <b>;"⟩, ⟨false, "<a>", "/2/\";\"\\; <b>;"⟩]⟩ := by decide
  exact ⟨by decide +kernel, hsource ▸ m.read_text⟩

end Manuscript

end SpokenGrammar
