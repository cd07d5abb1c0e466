import SpokenGrammar.Proofs.Source.Statements

namespace SpokenGrammar

open Reader Layout

variable {c d : Cursor} {s t r e g : List Char} {ds : List Definition} {rule : Definition}

namespace Definition

def publicPart (d : Definition) : List Char :=
  Source.publicPart (if d.isPublic then some [' '] else none)

def line (d : Definition) : List Char :=
  d.publicPart ++ (d.name.toList ++ (" = ".toList ++ (d.expression.toList ++ ['\n'])))

theorem publicPart_subset (d : Definition) : d.publicPart ⊆ "public ".toList := by
  rw [publicPart]
  split
  · exact List.Subset.refl _
  · exact List.nil_subset _

end Definition

def listing (ds : List Definition) : List Char :=
  ds.flatMap Definition.line

namespace Reader

theorem Takes.rest_eq {α : Type} {p : Reader α} {a a' : α} (h : p.Takes c.rest a r)
    (hreads : Reads p c a' d) : d.rest = r := by
  obtain ⟨-, d', -, hrest, hreads'⟩ := h c rfl
  obtain ⟨-, rfl⟩ := Prod.mk.inj (Option.some.inj (hreads.symm.trans hreads'))
  exact hrest

theorem rest_of_reads_layout {u : Unit} (h : Reads layout c u d) : d.rest = skip c.rest :=
  (takes_layout c.rest).rest_eq h

theorem suffix_of_reads_someLayout {u : Unit} (h : Reads someLayout c u d) :
    d.rest <:+ c.rest := by
  rw [Reads, someLayout] at h
  split at h
  · rw [rest_of_reads_layout h]
    exact skip_suffix c.rest
  · cases h

theorem suffix_of_reads_optional {α : Type} {p : Reader α} {v : Option α}
    (hp : ∀ a d, Reads p c a d → d.rest <:+ c.rest) (h : Reads (optional p) c v d) :
    d.rest <:+ c.rest := by
  rcases reads_orElse.mp h with h | ⟨-, h⟩
  · obtain ⟨a, e, ha, h⟩ := reads_bind.mp h
    obtain ⟨-, rfl⟩ := reads_pure.mp h
    exact hp a e ha
  · obtain ⟨-, rfl⟩ := reads_pure.mp h
    exact List.suffix_refl _

end Reader

namespace Source

theorem suffix_of_reads_publicWord {u : Unit} (h : Reads publicWord c u d) :
    d.rest <:+ c.rest := by
  obtain ⟨_, k, hword, hlayout⟩ := reads_bind.mp h
  have hpasses := reads_word.mp hword
  exact (suffix_of_reads_someLayout hlayout).trans ⟨_, hpasses.rest.symm⟩

theorem exists_inside_of_reads {name : String} (h : Reads reference c name d) :
    ∃ n, '>' ∉ n ∧ name = String.ofList ('<' :: n ++ ['>']) ∧ c.rest = name.toList ++ d.rest := by
  obtain ⟨_, henclosed, rfl⟩ := reads_taken h
  obtain ⟨n, hn, hpasses⟩ := reads_enclosed henclosed
  have htext : c.rest.take (d.index - c.index) = '<' :: n ++ ['>'] := by
    rw [hpasses.index, Nat.add_sub_cancel_left, hpasses.rest, List.take_left]
  rw [htext, String.toList_ofList]
  exact ⟨n, hn, rfl, hpasses.rest⟩

structure Stands (rule : Definition) (s r : List Char) : Prop where
  named : ∃ n, '>' ∉ n ∧ rule.name = String.ofList ('<' :: n ++ ['>'])
  within : rule.name.toList <:+: s
  ends : Ends r rule.expression.toList
  starts : skipOne (rule.expression.toList ++ r) = none
  leaves : rule.expression.toList ++ r <:+ s

theorem Stands.mono (h : Stands rule s r) (hst : s <:+ t) : Stands rule t r :=
  ⟨h.named, h.within.trans hst.isInfix, h.ends, h.starts, h.leaves.trans hst⟩

theorem stands_of_reads (h : Reads definition c rule d) : Stands rule c.rest d.rest := by
  obtain ⟨visible, c₁, hpublic, h⟩ := reads_bind.mp h
  obtain ⟨name, c₂, hname, h⟩ := reads_bind.mp h
  obtain ⟨_, c₃, hleft, h⟩ := reads_bind.mp h
  obtain ⟨_, c₄, hequals, h⟩ := reads_bind.mp h
  obtain ⟨_, c₅, hright, h⟩ := reads_bind.mp h
  obtain ⟨expression, c₆, hexpression, h⟩ := reads_bind.mp h
  obtain ⟨rfl, rfl⟩ := reads_pure.mp h
  obtain ⟨n, hn, hname, hrest⟩ := exists_inside_of_reads hname
  obtain ⟨hpasses, hends⟩ := ends_of_reads hexpression
  have hc₁ : c₁.rest <:+ c.rest :=
    suffix_of_reads_optional (fun _ _ hword => suffix_of_reads_publicWord hword) hpublic
  have hc₂ : c₂.rest <:+ c₁.rest := ⟨_, hrest.symm⟩
  have hc₃ : c₃.rest <:+ c₂.rest := rest_of_reads_layout hleft ▸ skip_suffix c₂.rest
  have hc₄ : c₄.rest <:+ c₃.rest := ⟨_, (reads_word.mp hequals).rest.symm⟩
  have hc₅ : c₅.rest <:+ c₄.rest := rest_of_reads_layout hright ▸ skip_suffix c₄.rest
  have hwithin : name.toList <:+: c₁.rest := hrest ▸ (List.prefix_append _ _).isInfix
  refine ⟨⟨n, hn, hname⟩, hwithin.trans hc₁.isInfix, hends, ?_, ?_⟩
  · rw [← hpasses.rest, rest_of_reads_layout hright]
    exact skipOne_skip c₄.rest
  · rw [← hpasses.rest]
    exact (((hc₅.trans hc₄).trans hc₃).trans hc₂).trans hc₁

/-- Whether the text has these definitions one after the other, whatever else it has. -/
inductive Lists : List Definition → List Char → Prop where
  | nil (s : List Char) : Lists [] s
  | cons {rule : Definition} {ds : List Definition} {s r : List Char} :
      Stands rule s r → Lists ds r → Lists (rule :: ds) s

theorem Lists.mono (h : Lists ds s) (hst : s <:+ t) : Lists ds t := by
  cases h with
  | nil s => exact .nil t
  | cons hstands hrest => exact .cons (hstands.mono hst) hrest

theorem lists_of_reads_manyUpTo {fuel : Nat}
    (h : Reads (manyUpTo (layout >>= fun _ => definition) fuel) c ds d) : Lists ds c.rest := by
  induction fuel generalizing c ds with
  | zero =>
    obtain ⟨rfl, -⟩ := reads_pure.mp h
    exact .nil _
  | succ fuel ih =>
    rcases reads_manyUpTo_succ h with ⟨rule, k, ds', hrule, hds, rfl⟩ | ⟨rfl, -⟩
    · obtain ⟨_, c', hlayout, hrule⟩ := reads_bind.mp hrule
      have hc' : c'.rest <:+ c.rest := rest_of_reads_layout hlayout ▸ skip_suffix c.rest
      exact (Lists.cons (stands_of_reads hrule) (ih hds)).mono hc'
    · exact .nil _

theorem exists_lists_of_read {text : String} {src : Source} (h : read text = .ok src) :
    ∃ s, Lists src.rules s := by
  obtain ⟨c, d, h⟩ := exists_reads_rules h
  rcases reads_orElse.mp h with h | ⟨-, h⟩
  · obtain ⟨rule, k, hrule, h⟩ := reads_bind.mp h
    obtain ⟨ds, k', hds, h⟩ := reads_bind.mp h
    obtain ⟨hsrc, -⟩ := reads_pure.mp h
    exact ⟨c.rest, hsrc ▸ .cons (stands_of_reads hrule) (lists_of_reads_manyUpTo hds)⟩
  · obtain ⟨hsrc, -⟩ := reads_pure.mp h
    exact ⟨[], hsrc ▸ .nil []⟩

theorem listing_cons (rule : Definition) (ds : List Definition) :
    listing (rule :: ds) = rule.publicPart ++
      (rule.name.toList ++ (" = ".toList ++ (rule.expression.toList ++ ('\n' :: listing ds)))) := by
  simp [listing, Definition.line]

theorem Lists.mem_or (h : Lists ds s) {x : Char} (hx : x ∈ listing ds) :
    x ∈ s ∨ x ∈ "public =\n".toList := by
  have hpublic : "public ".toList ⊆ "public =\n".toList := by decide
  have hequals : " = ".toList ⊆ "public =\n".toList := by decide
  induction h with
  | nil s => cases hx
  | @cons rule ds s r hstands _ ih =>
    rw [listing_cons] at hx
    simp only [List.mem_append, List.mem_cons] at hx
    rcases hx with hx | hx | hx | hx | rfl | hx
    · exact .inr (hpublic (rule.publicPart_subset hx))
    · exact .inl (hstands.within.subset hx)
    · exact .inr (hequals hx)
    · exact .inl (hstands.leaves.subset (List.mem_append_left r hx))
    · exact .inr (by decide)
    · exact (ih hx).imp_left fun hx => hstands.leaves.subset (List.mem_append_right _ hx)

theorem Lists.close_mem (h : Lists ds s) : ∀ delimiters ∈ enclosures,
    delimiters.2 ∈ '\n' :: listing ds → delimiters.2 ∈ s := by
  have hother : ∀ delimiters ∈ enclosures, delimiters.2 ∉ "public =\n".toList := by decide
  intro delimiters hmem hclose
  rcases List.mem_cons.mp hclose with hline | hclose
  · exact absurd (hline ▸ by decide) (hother delimiters hmem)
  · exact (h.mem_or hclose).resolve_right (hother delimiters hmem)

end Source

theorem pair_infix_append {α : Type} {x y : α} {u v : List α} (hu : u.getLast? ≠ some x)
    (h : [x, y] <:+: u ++ v) : [x, y] <:+: u ∨ [x, y] <:+: v := by
  induction u with
  | nil => exact .inr h
  | cons z u ih =>
    rw [List.cons_append, List.infix_cons_iff] at h
    rcases h with hfirst | hrest
    · cases u with
      | nil =>
        obtain ⟨w, hw⟩ := hfirst
        obtain ⟨rfl, -⟩ := List.cons.inj hw
        exact absurd rfl hu
      | cons z' u =>
        obtain ⟨w, hw⟩ := hfirst
        obtain ⟨rfl, hw'⟩ := List.cons.inj hw
        obtain ⟨rfl, -⟩ := List.cons.inj hw'
        exact .inl (List.prefix_append [x, y] u).isInfix
    · cases u with
      | nil => exact .inr hrest
      | cons z' u =>
        rw [List.getLast?_cons_cons] at hu
        exact (ih hu hrest).imp_left fun h => h.trans (List.suffix_cons z _).isInfix

theorem pair_infix_of_append {α : Type} {x y : α} {u v : List α} (hu : x ∉ u)
    (h : [x, y] <:+: u ++ v) : [x, y] <:+: v := by
  have hlast : u.getLast? ≠ some x := fun hx => hu (List.mem_of_getLast? hx)
  exact (pair_infix_append hlast h).resolve_left fun h => hu (h.subset List.mem_cons_self)

namespace Source

/-- A listing ends no comment that the text does not end. -/
theorem Lists.infix_of_infix (h : Lists ds s) (hclose : ['*', '/'] <:+: listing ds) :
    ['*', '/'] <:+: s := by
  induction h with
  | nil s => exact absurd hclose (by decide)
  | @cons rule ds s r hstands _ ih =>
    rw [listing_cons] at hclose
    obtain ⟨n, -, hname⟩ := hstands.named
    have hpublic : '*' ∉ rule.publicPart := fun hmem =>
      absurd (rule.publicPart_subset hmem) (by decide)
    have hafter := pair_infix_of_append hpublic hclose
    have hlast : rule.name.toList.getLast? ≠ some '*' := by
      rw [hname, String.toList_ofList, List.getLast?_concat]
      decide
    rcases pair_infix_append hlast hafter with hin | hafter
    · exact hin.trans hstands.within
    have hafter := pair_infix_of_append (by decide) hafter
    have hlast : rule.expression.toList.getLast? ≠ some '*' := by
      rw [hstands.ends.getLast?_eq]
      decide
    rcases pair_infix_append hlast hafter with hin | hafter
    · exact hin.trans ((List.prefix_append _ r).isInfix.trans hstands.leaves.isInfix)
    · have hlisting := pair_infix_of_append (u := ['\n']) (by decide) hafter
      exact (ih hlisting).trans ((List.suffix_append _ r).trans hstands.leaves).isInfix

theorem skipOne_append_congr (hends : Ends r e) (hstart : skipOne (e ++ r) = none)
    (hclose : ['*', '/'] <:+: t → ['*', '/'] <:+: r) : skipOne (e ++ t) = none := by
  cases e with
  | nil => exact absurd rfl hends.ne_nil
  | cons x e =>
    by_cases hslash : x = '/'
    · subst hslash
      cases e with
      | nil => cases hends.getLast?_eq
      | cons y e =>
        by_cases hline : y = '/'
        · subst hline
          cases hstart
        by_cases hblock : y = '*'
        · subst hblock
          change afterClose (e ++ r) = none at hstart
          change afterClose (e ++ t) = none
          rw [afterClose_eq_none_iff] at hstart ⊢
          intro hin
          have hlast : e.getLast? ≠ some '*' := by
            have hstop := hends.getLast?_eq
            cases e with
            | nil => exact Option.some_ne_none _ ∘ Eq.symm
            | cons z e =>
              rw [List.getLast?_cons_cons, List.getLast?_cons_cons] at hstop
              rw [hstop]
              decide
          rcases pair_infix_append hlast hin with hin | hin
          · exact hstart (hin.trans (List.prefix_append e r).isInfix)
          · exact hstart ((hclose hin).trans (List.suffix_append e r).isInfix)
        · exact skipOne_slash hline hblock (e ++ t)
    · rw [List.cons_append, skipOne_cons hslash] at hstart ⊢
      split at hstart
      · cases hstart
      · rename_i hspace
        rw [if_neg hspace]

theorem takes_line {n : List Char} (hn : '>' ∉ n)
    (hname : rule.name = String.ofList ('<' :: n ++ ['>'])) (hends : Ends t rule.expression.toList)
    (hstart : skipOne (rule.expression.toList ++ t) = none) :
    definition.Takes (rule.publicPart ++
      (rule.name.toList ++ (" = ".toList ++ (rule.expression.toList ++ t)))) rule t := by
  have hspace : Blank [' '] := blank_space rfl
  have hvisible : ∀ g ∈ (if rule.isPublic then some [' '] else none), Blank g ∧ g ≠ [] := by
    intro g hg
    split at hg
    · obtain rfl := Option.some.inj hg
      exact ⟨hspace, List.cons_ne_nil _ _⟩
    · cases hg
  have htakes := takes_definition hvisible hn hspace hspace hstart hends
  obtain ⟨isPublic, name, expression⟩ := rule
  dsimp only at hname htakes ⊢
  subst hname
  rw [String.ofList_toList] at htakes
  rw [String.toList_ofList]
  have hpublic : (if isPublic then some [' '] else none).isSome = isPublic := by
    cases isPublic <;> rfl
  rw [hpublic] at htakes
  simpa [Definition.publicPart] using htakes

namespace Lists

theorem head_listing (h : Lists ds s) : (listing ds).head? ∈ [none, some '<', some 'p'] := by
  cases h with
  | nil s => exact List.mem_cons_self
  | @cons rule ds s r hstands _ =>
    obtain ⟨n, -, hname⟩ := hstands.named
    rw [listing_cons, hname, String.toList_ofList, Definition.publicPart]
    cases rule.isPublic with
    | true => simp [publicPart]
    | false => simp [publicPart]

theorem skip_append_listing (h : Lists ds s) (hg : Blank g) :
    skip (g ++ listing ds) = listing ds := by
  rw [hg]
  refine skip_eq_self ?_
  have hhead := h.head_listing
  cases hlisting : listing ds with
  | nil => rfl
  | cons x t =>
    rw [hlisting] at hhead
    simp only [List.head?_cons, List.mem_cons, Option.some.injEq, reduceCtorEq,
      List.not_mem_nil, or_false, false_or] at hhead
    rcases hhead with rfl | rfl
    · rfl
    · rfl

theorem series (h : Lists ds s) (hg : Blank g) :
    ∃ r, Series definition (g ++ listing ds) ds r ∧ skip r = [] := by
  induction h generalizing g with
  | nil s =>
    have hskip : skip (g ++ listing []) = [] := by
      rw [listing, List.flatMap_nil, List.append_nil, hg.skip_eq]
    refine ⟨g ++ listing [], .stop ?_, hskip⟩
    rw [hskip]
    exact declines_definition (by decide) (by decide)
  | @cons rule ds s r hstands hrest ih =>
    obtain ⟨n, hn, hname⟩ := hstands.named
    have hline : Blank ['\n'] := blank_space rfl
    obtain ⟨t, hseries, ht⟩ := ih hline
    -- What follows the expression in the listing leaves it as it was in the text.
    have hends : Ends ('\n' :: listing ds) rule.expression.toList :=
      hstands.ends.mono hrest.close_mem
    have hstart : skipOne (rule.expression.toList ++ '\n' :: listing ds) = none := by
      refine skipOne_append_congr hstands.ends hstands.starts fun hclose => ?_
      exact hrest.infix_of_infix (pair_infix_of_append (u := ['\n']) (by decide) hclose)
    refine ⟨t, .more ?_ ?_ hseries, ht⟩
    · rw [(Lists.cons hstands hrest).skip_append_listing hg, listing_cons]
      exact takes_line hn hname hends hstart
    · have hequals : " = ".toList.length = 3 := rfl
      rw [listing_cons]
      simp only [List.length_append, List.length_cons, List.length_nil]
      omega

end Lists

theorem read_listing {text : String} {src : Source} (h : read text = .ok src) :
    read (String.ofList (listing src.rules)) = .ok ⟨none, [], src.rules⟩ := by
  obtain ⟨s, hlists⟩ := exists_lists_of_read h
  have hskip : skip (listing src.rules) = listing src.rules := hlists.skip_append_listing blank_nil
  have hhead := hlists.head_listing
  obtain ⟨r, hrules, hr⟩ := hlists.series blank_nil
  have hheader := (declines_header (ne_of_mem_of_not_mem hhead (by decide))).optional
  have hname := (declines_grammarName (ne_of_mem_of_not_mem hhead (by decide))).optional
  have himports := declines_importName (ne_of_mem_of_not_mem hhead (by decide))
  rw [← hskip] at hheader hname himports
  have htakes := takes_source ⟨_, hheader, skip_skip _⟩ ⟨_, hname, skip_skip _⟩ (.stop himports)
    hrules
  rw [hr] at htakes
  refine read_of_takes ?_
  rwa [String.toList_ofList]

end Source

end SpokenGrammar
