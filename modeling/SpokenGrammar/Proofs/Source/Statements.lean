import SpokenGrammar.Proofs.Source.Ending

namespace SpokenGrammar

open Reader Layout

namespace Source

variable {s s₁ s₂ s₃ s₄ r g h n e : List Char} {x : Char} {name : Option String}
  {imports : List String} {ds : List Definition}

theorem declines_of_head {w : String} {t : List Char} (hw : w.toList = x :: t)
    (hs : s.head? ≠ some x) : (word w).Declines s := by
  refine declines_word ?_
  rw [hw]
  rintro ⟨r, rfl⟩
  exact hs rfl

theorem takes_blank (hg : Blank g) (hs : skipOne s = none) : layout.Takes (g ++ s) () s := by
  have htakes := takes_layout (g ++ s)
  rwa [hg, skip_eq_self hs] at htakes

theorem takes_someBlank (hg : Blank g) (hne : g ≠ []) (hs : skipOne s = none) :
    someLayout.Takes (g ++ s) () s := by
  have hskip : skip (g ++ s) = s := by rw [hg, skip_eq_self hs]
  have htakes := takes_someLayout (s := g ++ s) (by
    rw [hskip, List.length_append]
    have hpos := List.length_pos_iff.mpr hne
    omega)
  rwa [hskip] at htakes

theorem takes_header (hh : ';' ∉ h) (r : List Char) :
    header.Takes ("#JSGF".toList ++ (h ++ ';' :: r)) () r :=
  (takes_word "#JSGF" _).bind ((takes_runTo hh r).bind (takes_word ";" r))

theorem declines_header (hs : s.head? ≠ some '#') : header.Declines s :=
  (declines_of_head rfl hs).bind _

theorem takes_nameText (hx : isNameChar x = true) (hn : ∀ y ∈ n, isNameChar y = true)
    (r : List Char) : nameText.Takes (x :: n ++ ';' :: r) (String.ofList (x :: n)) (';' :: r) := by
  have hrun : (run nameLabel isNameChar).Takes (n ++ ';' :: r) n (';' :: r) :=
    takes_run hn (by rintro y ⟨⟩; rfl)
  exact ((takes_one hx (n ++ ';' :: r)).bind hrun).taken

theorem takes_grammarName (hg : Blank g) (hne : g ≠ []) (hx : isNameChar x = true)
    (hslash : x ≠ '/') (hn : ∀ y ∈ n, isNameChar y = true) (r : List Char) :
    grammarName.Takes ("grammar".toList ++ (g ++ (x :: n ++ ';' :: r))) (String.ofList (x :: n))
      r := by
  have hspace : isSpace x = false := by
    simp only [isNameChar, Bool.and_eq_true, decide_eq_true_eq] at hx
    simp [isSpace, hx]
  have hstart : skipOne (x :: n ++ ';' :: r) = none := skipOne_other hspace hslash _
  have hend : layout.Takes (';' :: r) () (';' :: r) := takes_blank blank_nil rfl
  exact (takes_word "grammar" _).bind ((takes_someBlank hg hne hstart).bind
    ((takes_nameText hx hn r).bind (hend.bind ((takes_word ";" r).bind (takes_pure _ r)))))

theorem declines_grammarName (hs : s.head? ≠ some 'g') : grammarName.Declines s :=
  (declines_of_head rfl hs).bind _

theorem takes_reference (hn : '>' ∉ n) (r : List Char) :
    reference.Takes ('<' :: n ++ '>' :: r) (String.ofList ('<' :: n ++ ['>'])) r := by
  have henclosed := takes_enclosed '<' hn r
  have hsplit : '<' :: n ++ '>' :: r = '<' :: n ++ ['>'] ++ r := by simp
  rw [hsplit] at henclosed ⊢
  exact henclosed.taken

theorem takes_importName (hg : Blank g) (hn : '>' ∉ n) (hh : Blank h) (r : List Char) :
    importName.Takes ("import".toList ++ (g ++ ('<' :: n ++ '>' :: (h ++ ';' :: r))))
      (String.ofList ('<' :: n ++ ['>'])) r :=
  (takes_word "import" _).bind ((takes_blank hg rfl).bind ((takes_reference hn _).bind
    ((takes_blank hh rfl).bind ((takes_word ";" r).bind (takes_pure _ r)))))

theorem declines_importName (hs : s.head? ≠ some 'i') : importName.Declines s :=
  (declines_of_head rfl hs).bind _

theorem declines_publicWord (hs : s.head? ≠ some 'p') : publicWord.Declines s :=
  (declines_of_head rfl hs).bind _

theorem declines_reference (hs : s.head? ≠ some '<') : reference.Declines s := by
  have hstart := declines_of_head (w := String.singleton '<') (String.toList_singleton '<') hs
  exact (hstart.bind _).taken

def publicPart (visible : Option (List Char)) : List Char :=
  visible.elim [] fun g => "public".toList ++ g

theorem takes_publicPart {visible : Option (List Char)}
    (hvisible : ∀ g ∈ visible, Blank g ∧ g ≠ []) (s : List Char) :
    ∃ v, (optional publicWord).Takes (publicPart visible ++ '<' :: s) v ('<' :: s) ∧
      v.isSome = visible.isSome := by
  cases visible with
  | none => exact ⟨none, (declines_publicWord (by simp [publicPart])).optional, rfl⟩
  | some g =>
    obtain ⟨hg, hne⟩ := hvisible g rfl
    have hword : publicWord.Takes ("public".toList ++ (g ++ '<' :: s)) () ('<' :: s) :=
      (takes_word "public" _).bind (takes_someBlank hg hne rfl)
    rw [← List.append_assoc] at hword
    exact ⟨some (), hword.optional, rfl⟩

theorem takes_definition {visible : Option (List Char)}
    (hvisible : ∀ g ∈ visible, Blank g ∧ g ≠ []) (hn : '>' ∉ n) (hg : Blank g) (hh : Blank h)
    (hstart : skipOne (e ++ r) = none) (hends : Ends r e) :
    definition.Takes (publicPart visible ++ ('<' :: n ++ '>' :: (g ++ '=' :: (h ++ (e ++ r)))))
      ⟨visible.isSome, String.ofList ('<' :: n ++ ['>']), String.ofList e⟩ r := by
  obtain ⟨v, hpublic, hv⟩ :=
    takes_publicPart hvisible (n ++ '>' :: (g ++ '=' :: (h ++ (e ++ r))))
  rw [← hv]
  exact hpublic.bind ((takes_reference hn _).bind ((takes_blank hg rfl).bind
    ((takes_word "=" _).bind ((takes_blank hh hstart).bind (hends.takes.bind
      (takes_pure _ r))))))

theorem declines_definition (hpublic : s.head? ≠ some 'p') (hname : s.head? ≠ some '<') :
    definition.Declines s :=
  (declines_publicWord hpublic).optional.bind_declines ((declines_reference hname).bind _)

theorem takes_source {v : Option Unit}
    (hheader : ∃ t, (optional header).Takes (skip s₁) v t ∧ skip t = skip s₂)
    (hname : ∃ t, (optional grammarName).Takes (skip s₂) name t ∧ skip t = skip s₃)
    (himports : Series importName s₃ imports s₄) (hrules : Series definition s₄ ds r) :
    source.Takes s₁ ⟨name, imports, ds⟩ (skip r) := by
  have hlayout : ∀ {s t : List Char}, skip s = skip t → layout.Takes s () (skip t) :=
    fun {s t} h => h ▸ takes_layout s
  obtain ⟨t₁, ht₁, hskip₁⟩ := hheader
  obtain ⟨t₂, ht₂, hskip₂⟩ := hname
  obtain ⟨t₃, ht₃, hskip₃⟩ := himports.separated
  obtain ⟨t₄, ht₄, hskip₄⟩ := hrules.separated
  exact (takes_layout s₁).bind (ht₁.bind ((hlayout hskip₁).bind (ht₂.bind
    ((hlayout hskip₂).bind (ht₃.bind ((hlayout hskip₃).bind (ht₄.bind
      ((hlayout hskip₄).bind (takes_pure _ (skip r))))))))))

theorem read_of_takes {src : Source} {text : String} (h : source.Takes text.toList src []) :
    read text = .ok src := by
  obtain ⟨u, d, -, hd, hreads⟩ := h { rest := text.toList } rfl
  obtain ⟨rest, index⟩ := d
  obtain rfl := hd
  rw [Reads] at hreads
  simp only [read, readAll, hreads]

end Source

end SpokenGrammar
