import Mathlib.Data.List.Forall2

namespace SpokenGrammar

theorem exists_of_forall₂ {α β : Type} {R : α → β → Prop} {l : List α} {l' : List β}
    (h : List.Forall₂ R l l') : (∀ b ∈ l', ∃ a ∈ l, R a b) ∧ ∀ a ∈ l, ∃ b ∈ l', R a b := by
  induction h with
  | nil => simp
  | cons hab _ ih =>
    obtain ⟨hleft, hright⟩ := ih
    constructor
    · intro b hb
      rcases List.mem_cons.mp hb with rfl | hb
      · exact ⟨_, List.mem_cons_self, hab⟩
      · obtain ⟨a, ha, hr⟩ := hleft b hb
        exact ⟨a, List.mem_cons_of_mem _ ha, hr⟩
    · intro a ha
      rcases List.mem_cons.mp ha with rfl | ha
      · exact ⟨_, List.mem_cons_self, hab⟩
      · obtain ⟨b, hb, hr⟩ := hright a ha
        exact ⟨b, List.mem_cons_of_mem _ hb, hr⟩

theorem exists_forall₂ {α β : Type} {R : α → β → Prop} {l : List α} (h : ∀ a ∈ l, ∃ b, R a b) :
    ∃ l', List.Forall₂ R l l' := by
  induction l with
  | nil => exact ⟨[], .nil⟩
  | cons a l ih =>
    obtain ⟨b, hb⟩ := h a List.mem_cons_self
    obtain ⟨l', hl'⟩ := ih fun x hx => h x (List.mem_cons_of_mem _ hx)
    exact ⟨b :: l', .cons hb hl'⟩

theorem getElem?_of_forall₂ {α β : Type} {R : α → β → Prop} {l : List α} {l' : List β}
    (h : List.Forall₂ R l l') (i : Nat) : Option.Rel R l[i]? l'[i]? := by
  induction h generalizing i with
  | nil => exact .none
  | @cons a b l l' hab _ ih =>
    cases i with
    | zero => exact .some hab
    | succ i => exact ih i

namespace Attempt

variable {ε α β : Type}

theorem bind_eq_ok {x : Except ε α} {f : α → Except ε β} {b : β} :
    (x >>= f) = .ok b ↔ ∃ a, x = .ok a ∧ f a = .ok b := by
  cases x with
  | error e =>
    constructor
    · intro h
      cases h
    · rintro ⟨a, h, -⟩
      cases h
  | ok a =>
    constructor
    · intro h
      exact ⟨a, rfl, h⟩
    · rintro ⟨a', h, hf⟩
      rcases Except.ok.inj h with rfl
      exact hf

theorem map_eq_ok {x : Except ε α} {f : α → β} {b : β} :
    x.map f = .ok b ↔ ∃ a, x = .ok a ∧ f a = b := by
  cases x with
  | error e =>
    constructor
    · intro h
      cases h
    · rintro ⟨a, h, -⟩
      cases h
  | ok a =>
    constructor
    · intro h
      exact ⟨a, rfl, Except.ok.inj h⟩
    · rintro ⟨a', h, rfl⟩
      rcases Except.ok.inj h with rfl
      rfl

theorem bind_eq_error {x : Except ε α} {f : α → Except ε β} {e : ε} :
    (x >>= f) = .error e ↔ x = .error e ∨ ∃ a, x = .ok a ∧ f a = .error e := by
  cases x <;> simp [bind, Except.bind]

theorem map_eq_error {x : Except ε α} {f : α → β} {e : ε} : x.map f = .error e ↔ x = .error e := by
  cases x <;> simp [Except.map]

theorem exists_of_any {x : Except ε α} {p : α → Bool} (h : x.toOption.any p = true) :
    ∃ a, x = .ok a ∧ p a = true := by
  cases x with
  | error e => cases h
  | ok a => exact ⟨a, rfl, h⟩

theorem forall₂_of_mapM {f : α → Except ε β} {l : List α} {l' : List β}
    (h : l.mapM f = .ok l') : List.Forall₂ (fun a b => f a = .ok b) l l' := by
  induction l generalizing l' with
  | nil =>
    rcases Except.ok.inj h with rfl
    exact .nil
  | cons a l ih =>
    rw [List.mapM_cons] at h
    obtain ⟨b, hb, h⟩ := bind_eq_ok.mp h
    obtain ⟨bs, hbs, h⟩ := bind_eq_ok.mp h
    rcases Except.ok.inj h with rfl
    exact .cons hb (ih hbs)

theorem eq_ok_of_forM {f : α → Except ε PUnit} {l : List α} (h : l.forM f = .ok ()) :
    ∀ a ∈ l, f a = .ok () := by
  induction l with
  | nil => exact fun a ha => absurd ha List.not_mem_nil
  | cons b l ih =>
    obtain ⟨_, hb, hl⟩ := bind_eq_ok.mp h
    intro a ha
    rcases List.mem_cons.mp ha with rfl | ha
    · exact hb
    · exact ih hl a ha

theorem forM_cases (f : α → Except ε PUnit) (l : List α) :
    l.forM f = .ok () ∨ ∃ a ∈ l, ∃ e, f a = .error e ∧ l.forM f = .error e := by
  induction l with
  | nil => exact .inl rfl
  | cons a l ih =>
    have hcons : (a :: l).forM f = f a >>= fun _ => l.forM f := rfl
    rw [hcons]
    cases ha : f a with
    | error e => exact .inr ⟨a, List.mem_cons_self, e, ha, rfl⟩
    | ok _ =>
      rcases ih with hok | ⟨b, hb, e, he, hl⟩
      · exact .inl hok
      · exact .inr ⟨b, List.mem_cons_of_mem _ hb, e, he, hl⟩

theorem mapM_eq_error {f : α → Except ε β} {l : List α} {e : ε} :
    l.mapM f = .error e ↔ ∃ before a after, l = before ++ a :: after ∧ f a = .error e ∧
      ∀ b ∈ before, ∃ c, f b = .ok c := by
  induction l with
  | nil => simp [pure, Except.pure]
  | cons a l ih =>
    rw [List.mapM_cons, bind_eq_error]
    constructor
    · rintro (ha | ⟨c, hc, hl⟩)
      · exact ⟨[], a, l, rfl, ha, by simp⟩
      · obtain ⟨before, b, after, rfl, hb, hbefore⟩ :=
          ih.mp ((bind_eq_error.mp hl).resolve_right fun ⟨_, _, h⟩ => by cases h)
        exact ⟨a :: before, b, after, rfl, hb, List.forall_mem_cons.mpr ⟨⟨c, hc⟩, hbefore⟩⟩
    · rintro ⟨before, b, after, hl, hb, hbefore⟩
      cases before with
      | nil =>
        obtain ⟨rfl, -⟩ := List.cons.inj hl
        exact .inl hb
      | cons d before =>
        obtain ⟨rfl, rfl⟩ := List.cons.inj hl
        obtain ⟨⟨c, hc⟩, hbefore⟩ := List.forall_mem_cons.mp hbefore
        exact .inr ⟨c, hc, bind_eq_error.mpr (.inl (ih.mpr ⟨before, b, after, rfl, hb, hbefore⟩))⟩

theorem exists_of_mapM_eq_error {f : α → Except ε β} {l : List α} {e : ε}
    (h : l.mapM f = .error e) : ∃ a ∈ l, f a = .error e := by
  obtain ⟨before, a, after, rfl, ha, -⟩ := mapM_eq_error.mp h
  exact ⟨a, by simp, ha⟩

theorem forM_eq_error_iff_mapM {f : α → Except ε Unit} {l : List α} {e : ε} :
    l.forM f = .error e ↔ l.mapM f = .error e := by
  induction l with
  | nil => exact iff_of_false nofun nofun
  | cons a l ih =>
    have hcons : (a :: l).forM f = f a >>= fun _ => l.forM f := rfl
    have hrest : ∀ b, (l.mapM f >>= fun bs => pure (b :: bs)) = .error e ↔ l.mapM f = .error e := by
      intro b
      rw [bind_eq_error]
      exact or_iff_left fun ⟨_, _, h⟩ => by cases h
    rw [hcons, List.mapM_cons, bind_eq_error, bind_eq_error]
    simp only [ih, hrest]

theorem forM_eq_error {f : α → Except ε Unit} {l : List α} {e : ε} :
    l.forM f = .error e ↔ ∃ before a after, l = before ++ a :: after ∧ f a = .error e ∧
      ∀ b ∈ before, f b = .ok () := by
  have hunit : ∀ b, (∃ c, f b = .ok c) ↔ f b = .ok () :=
    fun b => ⟨fun ⟨_, h⟩ => h, fun h => ⟨(), h⟩⟩
  rw [forM_eq_error_iff_mapM, mapM_eq_error]
  simp only [hunit]

theorem exists_of_mapM {f : α → Except ε β} {l : List α} {l' : List β} (h : l.mapM f = .ok l') :
    (∀ b ∈ l', ∃ a ∈ l, f a = .ok b) ∧ ∀ a ∈ l, ∃ b ∈ l', f a = .ok b :=
  exists_of_forall₂ (forall₂_of_mapM h)

theorem exists_mapM {f : α → Except ε β} {l : List α} (h : ∀ a ∈ l, ∃ b, f a = .ok b) :
    ∃ l', l.mapM f = .ok l' := by
  induction l with
  | nil => exact ⟨[], rfl⟩
  | cons a l ih =>
    obtain ⟨b, hb⟩ := h a List.mem_cons_self
    obtain ⟨bs, hbs⟩ := ih fun x hx => h x (List.mem_cons_of_mem _ hx)
    refine ⟨b :: bs, ?_⟩
    rw [List.mapM_cons, hb, hbs]
    rfl

theorem exists_foldlM₂ {γ : Type} {f : β → α → Except ε β} {g : γ → α → Except ε γ}
    {I : List α → β → γ → Prop}
    (hstep : ∀ a l b c, I (a :: l) b c → ∃ b' c', f b a = .ok b' ∧ g c a = .ok c' ∧ I l b' c')
    {l : List α} {b : β} {c : γ} (h : I l b c) :
    ∃ b' c', l.foldlM f b = .ok b' ∧ l.foldlM g c = .ok c' ∧ I [] b' c' := by
  induction l generalizing b c with
  | nil => exact ⟨b, c, rfl, rfl, h⟩
  | cons a l ih =>
    obtain ⟨b₁, c₁, hf, hg, h₁⟩ := hstep a l b c h
    obtain ⟨b₂, c₂, hf', hg', h₂⟩ := ih h₁
    refine ⟨b₂, c₂, ?_, ?_, h₂⟩
    · rw [List.foldlM_cons, hf]
      exact hf'
    · rw [List.foldlM_cons, hg]
      exact hg'

theorem foldlM_cases {f : β → α → Except ε β} {I : List α → β → Prop} {E : ε → Prop}
    (hstep : ∀ a l b, I (a :: l) b →
      (∃ b', f b a = .ok b' ∧ I l b') ∨ ∃ e, f b a = .error e ∧ E e)
    {l : List α} {b : β} (h : I l b) :
    (∃ b', l.foldlM f b = .ok b' ∧ I [] b') ∨ ∃ e, l.foldlM f b = .error e ∧ E e := by
  induction l generalizing b with
  | nil => exact .inl ⟨b, rfl, h⟩
  | cons a l ih =>
    rw [List.foldlM_cons]
    rcases hstep a l b h with ⟨b', hb, h'⟩ | ⟨e, he, hE⟩
    · rw [hb]
      exact ih h'
    · rw [he]
      exact .inr ⟨e, rfl, hE⟩

theorem forall_of_foldlM {f : β → α → Except ε β} {l : List α} {b b' : β}
    (h : l.foldlM f b = .ok b') : ∀ a ∈ l, ∃ c c', f c a = .ok c' := by
  induction l generalizing b with
  | nil => exact fun a ha => absurd ha List.not_mem_nil
  | cons x l ih =>
    rw [List.foldlM_cons] at h
    obtain ⟨c, hc, h⟩ := bind_eq_ok.mp h
    intro a ha
    rcases List.mem_cons.mp ha with rfl | ha
    · exact ⟨b, c, hc⟩
    · exact ih h a ha

end Attempt

end SpokenGrammar
