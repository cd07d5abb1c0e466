import SpokenGrammar.Proofs.Source.Layout
import SpokenGrammar.Proofs.Source.Reader

namespace SpokenGrammar

namespace Reader

variable {α β : Type} {p q : Reader α} {f : α → Reader β} {a : α} {b : β} {as : List α}
  {s t r u : List Char} {x : Char} {label : String} {k : Char → Bool}

/-- Whether `p` reads `a` off the front of the text `s` and leaves `r`. -/
def Takes (p : Reader α) (s : List Char) (a : α) (r : List Char) : Prop :=
  ∀ c : Cursor, c.rest = s → ∃ u d, c.Passes u d ∧ d.rest = r ∧ Reads p c a d

def Declines (p : Reader α) (s : List Char) : Prop :=
  ∀ c : Cursor, c.rest = s → Refuses p c

theorem takes_pure (a : α) (s : List Char) : (pure a : Reader α).Takes s a s :=
  fun c hc => ⟨[], c, .refl c, hc, rfl⟩

theorem Takes.bind (h : p.Takes s a t) (hf : (f a).Takes t b r) : (p >>= f).Takes s b r := by
  intro c hc
  obtain ⟨u, d, hu, hd, hreads⟩ := h c hc
  obtain ⟨v, e, hv, he, hreads'⟩ := hf d hd
  exact ⟨u ++ v, e, hu.trans hv, he, reads_bind.mpr ⟨a, d, hreads, hreads'⟩⟩

theorem Takes.bind_declines (h : p.Takes s a t) (hf : (f a).Declines t) :
    (p >>= f).Declines s := by
  intro c hc
  obtain ⟨-, d, -, hd, hreads⟩ := h c hc
  refine refuses_bind.mpr fun a' e hreads' => ?_
  obtain ⟨rfl, rfl⟩ := Prod.mk.inj (Option.some.inj (hreads.symm.trans hreads'))
  exact hf d hd

theorem Declines.bind (h : p.Declines s) (f : α → Reader β) : (p >>= f).Declines s := by
  intro c hc
  refine refuses_bind.mpr fun a' e hreads => ?_
  exact absurd (hreads.symm.trans (h c hc)) (Option.some_ne_none _)

theorem Takes.orElse (h : p.Takes s a r) (q : Reader α) : (p <|> q).Takes s a r := by
  intro c hc
  obtain ⟨u, d, hu, hd, hreads⟩ := h c hc
  exact ⟨u, d, hu, hd, reads_orElse.mpr (.inl hreads)⟩

theorem Declines.orElse_takes (h : p.Declines s) (hq : q.Takes s a r) :
    (p <|> q).Takes s a r := by
  intro c hc
  obtain ⟨u, d, hu, hd, hreads⟩ := hq c hc
  exact ⟨u, d, hu, hd, reads_orElse.mpr (.inr ⟨h c hc, hreads⟩)⟩

theorem Declines.orElse (h : p.Declines s) (hq : q.Declines s) : (p <|> q).Declines s := by
  intro c hc
  rw [Refuses, value_orElse, Option.or_eq_none_iff]
  exact ⟨h c hc, hq c hc⟩

theorem Takes.optional (h : p.Takes s a r) : (optional p).Takes s (some a) r :=
  (h.bind (takes_pure (some a) r)).orElse _

theorem Declines.optional (h : p.Declines s) : (optional p).Takes s none s :=
  (h.bind _).orElse_takes (takes_pure none s)

theorem takes_word (w : String) (r : List Char) : (word w).Takes (w.toList ++ r) () r := by
  intro c hc
  have hpasses := Cursor.Passes.advance hc
  exact ⟨w.toList, _, hpasses, List.append_cancel_left (hpasses.rest.symm.trans hc),
    reads_word.mpr hpasses⟩

theorem declines_word {w : String} (h : ¬ w.toList <+: s) : (word w).Declines s := by
  intro c hc
  rw [Refuses, word, hc, if_neg (fun hw => h (List.isPrefixOf_iff_prefix.mp hw))]

theorem takes_one (hx : k x = true) (r : List Char) : (one label k).Takes (x :: r) x r := by
  intro c hc
  have hpasses := Cursor.Passes.advance (u := [x]) hc
  exact ⟨[x], _, hpasses, List.append_cancel_left (hpasses.rest.symm.trans hc),
    reads_one.mpr ⟨hx, hpasses⟩⟩

theorem declines_one (hs : ∀ x ∈ s.head?, k x = false) : (one label k).Declines s := by
  intro c hc
  rw [Refuses, one, hc]
  cases s with
  | nil => rfl
  | cons x s => simp [hs x rfl]

theorem takes_run (hu : ∀ x ∈ u, k x = true) (hr : ∀ x ∈ r.head?, k x = false) :
    (run label k).Takes (u ++ r) u r := by
  intro c hc
  have hpasses := Cursor.Passes.advance hc
  refine ⟨u, _, hpasses, List.append_cancel_left (hpasses.rest.symm.trans hc), ?_⟩
  have htake : r.takeWhile k = [] := by
    cases r with
    | nil => rfl
    | cons x r => exact List.takeWhile_cons_of_neg (by simp [hr x rfl])
  have hprefix : (u ++ r).takeWhile k = u := by
    rw [List.takeWhile_append_of_pos hu, htake, List.append_nil]
  rw [Reads, run, hc, hprefix]

theorem takes_runTo {close : Char} (hu : close ∉ u) (r : List Char) :
    (runTo close).Takes (u ++ close :: r) u (close :: r) := by
  refine takes_run (fun x hx => ?_) ?_
  · rw [decide_eq_true_iff]
    rintro rfl
    exact hu hx
  · simp

theorem takes_enclosed (start : Char) {close : Char} (hu : close ∉ u) (r : List Char) :
    (enclosed start close).Takes (start :: u ++ close :: r) () r := by
  have hstart := takes_word (String.singleton start) (u ++ close :: r)
  have hclose := takes_word (String.singleton close) r
  rw [String.toList_singleton] at hstart hclose
  exact hstart.bind ((takes_runTo hu r).bind hclose)

theorem declines_enclosed {start close : Char} (hx : x ≠ start) (s : List Char) :
    (enclosed start close).Declines (x :: s) := by
  refine (declines_word ?_).bind _
  rw [String.toList_singleton]
  rintro ⟨t, ht⟩
  exact hx (List.cons.inj ht).1.symm

theorem declines_enclosed_of_unclosed {start close : Char} (hs : close ∉ s) :
    (enclosed start close).Declines (start :: s) := by
  have hstart := takes_word (String.singleton start) s
  rw [String.toList_singleton] at hstart
  have hall : (runTo close).Takes (s ++ []) s [] := by
    refine takes_run (fun x hx => ?_) ?_
    · rw [decide_eq_true_iff]
      rintro rfl
      exact hs hx
    · simp
  rw [List.append_nil] at hall
  refine hstart.bind_declines (hall.bind_declines (declines_word ?_))
  simp

theorem takes_layout (s : List Char) : layout.Takes s () (Layout.skip s) := by
  intro c hc
  obtain ⟨u, hu⟩ := Layout.skip_suffix s
  have hpasses := Cursor.Passes.advance (hc.trans hu.symm)
  refine ⟨u, _, hpasses, List.append_cancel_left (hpasses.rest.symm.trans (hc.trans hu.symm)), ?_⟩
  have hlength : s.length - (Layout.skip s).length = u.length := by
    rw [← congrArg List.length hu, List.length_append, Nat.add_sub_cancel_right]
  rw [Reads, layout, hc, hlength]

theorem takes_someLayout (h : (Layout.skip s).length < s.length) :
    someLayout.Takes s () (Layout.skip s) := by
  intro c hc
  obtain ⟨u, d, hu, hd, hreads⟩ := takes_layout s c hc
  refine ⟨u, d, hu, hd, ?_⟩
  rwa [Reads, someLayout, hc, if_pos h]

theorem Takes.taken (h : p.Takes (u ++ r) a r) :
    (taken p).Takes (u ++ r) (String.ofList u) r := by
  intro c hc
  obtain ⟨v, d, hv, hd, hreads⟩ := h c hc
  have huv : v = u := by
    have hsplit := hv.rest.symm.trans hc
    rw [hd] at hsplit
    exact List.append_cancel_right hsplit
  subst huv
  refine ⟨v, d, hv, hd, ?_⟩
  have htaken : c.rest.take (d.index - c.index) = v := by
    rw [hv.index, Nat.add_sub_cancel_left, hc, List.take_left]
  rw [Reads] at hreads
  rw [Reads, Reader.taken]
  dsimp only
  rw [hreads, Option.map_some, htaken]

theorem Declines.taken (h : p.Declines s) : (taken p).Declines s := by
  intro c hc
  have hvalue := h c hc
  rw [Refuses] at hvalue
  rw [Refuses, Reader.taken]
  dsimp only
  rw [hvalue, Option.map_none]

inductive TakesAll (p : Reader α) : List Char → List α → List Char → Prop where
  | stop {r : List Char} : p.Declines r → TakesAll p r [] r
  | more {s t r : List Char} {a : α} {as : List α} : p.Takes s a t → t.length < s.length →
      TakesAll p t as r → TakesAll p s (a :: as) r

theorem TakesAll.manyUpTo (h : TakesAll p s as r) {fuel : Nat} (hfuel : s.length < fuel) :
    (manyUpTo p fuel).Takes s as r := by
  -- Every reading takes a character, so the fuel lasts.
  induction h generalizing fuel with
  | stop hr =>
    obtain ⟨fuel, rfl⟩ := Nat.exists_eq_add_one.mpr (Nat.zero_lt_of_lt hfuel)
    exact (hr.bind _).orElse_takes (takes_pure [] _)
  | @more s t r a as ha hlt _ ih =>
    obtain ⟨fuel, rfl⟩ := Nat.exists_eq_add_one.mpr (Nat.zero_lt_of_lt hfuel)
    have hrest := ih (Nat.lt_of_lt_of_le hlt (Nat.le_of_lt_succ hfuel))
    exact (ha.bind (hrest.bind (takes_pure (a :: as) r))).orElse _

theorem TakesAll.many (h : TakesAll p s as r) : (many p).Takes s as r := by
  intro c hc
  obtain ⟨u, d, hu, hd, hreads⟩ := h.manyUpTo (Nat.lt_succ_self _) c hc
  refine ⟨u, d, hu, hd, ?_⟩
  rw [Reads, Reader.many, hc]
  exact hreads

/-- Whether `p` reads all of `as` off the front of the text, with layout before each, and declines
what is left after layout. -/
inductive Series (p : Reader α) : List Char → List α → List Char → Prop where
  | stop {r : List Char} : p.Declines (Layout.skip r) → Series p r [] r
  | more {s t r : List Char} {a : α} {as : List α} : p.Takes (Layout.skip s) a t →
      t.length < s.length → Series p t as r → Series p s (a :: as) r

theorem Series.takesAll (h : Series p s as r) :
    TakesAll (layout >>= fun _ => p) s as r := by
  induction h with
  | @stop r hr => exact .stop ((takes_layout r).bind_declines hr)
  | @more s t r a as ha hlt _ ih => exact .more ((takes_layout s).bind ha) hlt ih

theorem Series.separated (h : Series p s as r) :
    ∃ t, (separated p layout).Takes (Layout.skip s) as t ∧ Layout.skip t = Layout.skip r := by
  cases h with
  | stop hr =>
    exact ⟨Layout.skip s, (hr.bind _).orElse_takes (takes_pure [] _), Layout.skip_skip s⟩
  | @more s t r a as ha _ hrest =>
    exact ⟨r, (ha.bind (hrest.takesAll.many.bind (takes_pure (a :: as) r))).orElse _, rfl⟩

end Reader

end SpokenGrammar
