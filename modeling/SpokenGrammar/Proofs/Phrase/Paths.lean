import SpokenGrammar.Proofs.Graph.Assembly
import SpokenGrammar.Proofs.Phrase.Basic

namespace SpokenGrammar

section Leads

variable {next : Nat → Nat → Prop} {i j k : Nat} {xs ys : List Nat}

def leads (next : Nat → Nat → Prop) (j : Nat) : Language Nat :=
  {p | Route next 0 j p}

def leadsToAny (next : Nat → Nat → Prop) (xs : List Nat) : Language Nat :=
  {p | ∃ j ∈ xs, p ∈ leads next j}

theorem mem_leadsToAny {p : List Nat} :
    p ∈ leadsToAny next xs ↔ ∃ j ∈ xs, p ∈ leads next j :=
  Iff.rfl

theorem leadsToAny_singleton (next : Nat → Nat → Prop) (j : Nat) :
    leadsToAny next [j] = leads next j := by
  ext p
  simp [mem_leadsToAny]

theorem leadsToAny_append (next : Nat → Nat → Prop) (xs ys : List Nat) :
    leadsToAny next (xs ++ ys) = leadsToAny next xs + leadsToAny next ys := by
  ext p
  simp [mem_leadsToAny, Language.mem_add, or_and_right, exists_or]

theorem leadsToAny_nil (next : Nat → Nat → Prop) : leadsToAny next [] = 0 := by
  ext p
  constructor
  · rintro ⟨j, hj, -⟩
    cases hj
  · exact fun hp => absurd hp (Language.notMem_zero p)

theorem leads_zero (h : ∀ x, ¬ next x 0) : leads next 0 = {[0]} := by
  ext p
  constructor
  · intro r
    rcases Route.exists_snoc r with ⟨-, rfl⟩ | ⟨j, q, -, hj, -⟩
    · rfl
    · exact absurd hj (h j)
  · intro hp
    obtain rfl : p = [0] := hp
    exact .here 0

theorem leads_eq (hk : k ≠ 0) (h : ∀ x, next x k ↔ x ∈ xs) :
    leads next k = leadsToAny next xs * {[k]} := by
  ext p
  constructor
  · intro r
    rcases Route.exists_snoc r with ⟨h0, -⟩ | ⟨j, q, hq, hj, rfl⟩
    · exact absurd h0.symm hk
    · exact Language.append_mem_mul ⟨j, (h j).mp hj, hq⟩ rfl
  · intro hp
    obtain ⟨q, ⟨j, hj, hq⟩, u, hu, rfl⟩ := Language.mem_mul.mp hp
    obtain rfl : u = [k] := hu
    exact Route.snoc hq ((h j).mpr hj)

end Leads

namespace Assembly

variable {next : Nat → Nat → Prop} {a b c : Assembly} {i m n : Nat} {t : Token}
  {ts us : List Token} {es fs : List (Nat × Nat)}

def Window (next : Nat → Nat → Prop) (i n : Nat) (es : List (Nat × Nat)) : Prop :=
  ∀ x k, i ≤ k → k < i + n → (next x k ↔ (x, k) ∈ es)

theorem target_of_step (ht : t ≠ .start) (h : a.step i t = .ok (b, es)) {x k : Nat}
    (hx : (x, k) ∈ es) : k = i := by
  obtain ⟨xs, rfl, -⟩ := exists_moves ht h
  obtain ⟨y, -, hy⟩ := List.mem_map.mp hx
  exact (Prod.mk.inj hy).2.symm

theorem target_of_steps (hts : ∀ t ∈ ts, t ≠ .start) (h : Steps a i ts b es) {x k : Nat}
    (hx : (x, k) ∈ es) : i ≤ k ∧ k < i + ts.length := by
  induction h with
  | nil a i => cases hx
  | @cons a b c i t ts es fs hstep _ ih =>
    rw [List.length_cons]
    rcases List.mem_append.mp hx with hx | hx
    · have hk := target_of_step (hts t List.mem_cons_self) hstep hx
      omega
    · have hk := ih (fun t' ht' => hts t' (List.mem_cons_of_mem _ ht')) hx
      omega

theorem Steps.one (h : Steps a i [t] b es) : a.step i t = .ok (b, es) := by
  cases h with
  | cons hstep hnil =>
    cases hnil
    rwa [List.append_nil]

theorem Steps.split (h : Steps a i (ts ++ us) c es) (hw : Window next i (ts ++ us).length es)
    (hts : ∀ t ∈ ts, t ≠ .start) (hus : ∀ t ∈ us, t ≠ .start) :
    ∃ b fs gs, Steps a i ts b fs ∧ Window next i ts.length fs ∧
      Steps b (i + ts.length) us c gs ∧ Window next (i + ts.length) us.length gs := by
  obtain ⟨b, fs, gs, hfs, hgs, rfl⟩ := h.of_append
  rw [List.length_append] at hw
  refine ⟨b, fs, gs, hfs, ?_, hgs, ?_⟩
  · intro x k hi hk
    rw [hw x k hi (by omega), List.mem_append]
    constructor
    · rintro (hx | hx)
      · exact hx
      · have := target_of_steps hus hgs hx
        omega
    · exact .inl
  · intro x k hi hk
    rw [hw x k (by omega) (by omega), List.mem_append]
    constructor
    · rintro (hx | hx)
      · have := target_of_steps hts hfs hx
        omega
      · exact hx
    · exact .inr

theorem Window.leads {xs : List Nat} (h : Window next i 1 (xs.map (·, i))) (hi : 0 < i) :
    leads next i = leadsToAny next xs * {[i]} := by
  refine leads_eq hi.ne' fun x => ?_
  rw [h x i le_rfl (Nat.lt_succ_self i)]
  simp

theorem Window.leads_single {x : Nat} (h : Window next i 1 [(x, i)]) (hi : 0 < i) :
    SpokenGrammar.leads next i = SpokenGrammar.leads next x * {[i]} := by
  have hleads : SpokenGrammar.leads next i = leadsToAny next [x] * {[i]} := Window.leads h hi
  rwa [leadsToAny_singleton] at hleads

end Assembly

open Assembly

section Simulation

variable {next : Nat → Nat → Prop}

theorem follow_leads {a b : Assembly} {i : Nat} {t : Token} {es : List (Nat × Nat)}
    (h : Steps a i [t] b es) (ht : a.step i t = .ok (a.follow i)) (hw : Window next i 1 es)
    (hi : 0 < i) :
    b.groups = a.groups ∧ leads next b.last = leads next a.last * {[i]} := by
  obtain ⟨rfl, rfl⟩ := Prod.mk.inj (Except.ok.inj (ht.symm.trans h.one))
  exact ⟨rfl, hw.leads_single hi⟩

theorem group_leads {a b : Assembly} {i : Nat} {es : List (Nat × Nat)} {p : Phrase} {m o : Mark}
    (h : Steps a i (Token.mark o :: p.tokens ++ [Token.mark m]) b es)
    (hw : Window next i (Token.mark o :: p.tokens ++ [Token.mark m]).length es) (hi : 0 < i)
    (hopen : a.step i (.mark o) = .ok (a.enter o i))
    (hclose : ∀ a i, Assembly.step a i (.mark m) = a.leave m i)
    (hp : ∀ {a b : Assembly} {j : Nat} {es : List (Nat × Nat)} {g : OpenGroup}
      {rest : List OpenGroup}, Steps a j p.tokens b es → Window next j p.tokens.length es →
      0 < j → a.groups = g :: rest → a.last = g.position →
      ∃ ends, b.groups = { g with ends := g.ends ++ ends } :: rest ∧
        leadsToAny next (ends ++ [b.last]) = leads next g.position * p.routes j) :
    b.groups = a.groups ∧
      leads next b.last = leads next a.last * {[i]} *
        (p.routes (i + 1) + if m = .closeOptional then 1 else 0) *
          {[i + 1 + p.tokens.length]} := by
  have hinner : ∀ t ∈ p.tokens, t ≠ .start := fun t ht => (p.isInner_of_mem ht).1
  have hclosing : ∀ t ∈ [Token.mark m], t ≠ .start := by simp
  have hrest : ∀ t ∈ p.tokens ++ [Token.mark m], t ≠ .start :=
    fun t ht => (List.mem_append.mp ht).elim (hinner t) (hclosing t)
  obtain ⟨b₁, es₁, es₂, h₁, hw₁, h₂, hw₂⟩ :=
    Steps.split (show Steps a i ([Token.mark o] ++ (p.tokens ++ [Token.mark m])) b es from h) hw
      (by simp) hrest
  obtain ⟨b₂, es₃, es₄, h₃, hw₃, h₄, hw₄⟩ := Steps.split h₂ hw₂ hinner hclosing
  obtain ⟨rfl, rfl⟩ := Prod.mk.inj (Except.ok.inj (hopen.symm.trans h₁.one))
  have hleads₁ : leads next i = leads next a.last * {[i]} := hw₁.leads_single hi
  obtain ⟨ends, hgroups, hleads⟩ := hp h₃ hw₃ (Nat.succ_pos i) rfl rfl
  have hleave := h₄.one
  rw [hclose] at hleave
  obtain ⟨g, rest, hg, -, rfl, rfl⟩ := leave_eq_ok hleave
  rw [hgroups] at hg
  obtain ⟨rfl, rfl⟩ := List.cons.inj hg
  have hskip : leadsToAny next (if m = .closeOptional then [i] else []) =
      leads next i * if m = .closeOptional then 1 else 0 := by
    split
    · rw [leadsToAny_singleton, mul_one]
    · rw [leadsToAny_nil, mul_zero]
  have hends : leadsToAny next (ends ++ [b₂.last]) = leads next i * p.routes (i + 1) := hleads
  have hlast : leads next (i + 1 + p.tokens.length) =
      leadsToAny next (ends ++ (if m = .closeOptional then [i] else []) ++ [b₂.last]) *
        {[i + 1 + p.tokens.length]} := Window.leads hw₄ (by omega)
  refine ⟨rfl, ?_⟩
  change leads next (i + 1 + p.tokens.length) = _
  rw [leadsToAny_append] at hends
  rw [hlast, leadsToAny_append, leadsToAny_append, hskip, add_right_comm, hends, ← mul_add, hleads₁]

mutual

theorem Phrase.leads_routes (p : Phrase) {a b : Assembly} {i : Nat} {es : List (Nat × Nat)}
    {g : OpenGroup} {rest : List OpenGroup} (h : Steps a i p.tokens b es)
    (hw : Window next i p.tokens.length es) (hi : 0 < i) (hg : a.groups = g :: rest)
    (hlast : a.last = g.position) :
    ∃ ends, b.groups = { g with ends := g.ends ++ ends } :: rest ∧
      leadsToAny next (ends ++ [b.last]) = leads next g.position * p.routes i := by
  cases p with
  | only c =>
    obtain ⟨hgroups, hleads⟩ := c.leads_routes h hw hi
    refine ⟨[], ?_, ?_⟩
    · rw [hgroups, hg, List.append_nil]
    · rw [List.nil_append, leadsToAny_singleton, hleads, hlast]
      rfl
  | or c others =>
    have hinner : ∀ t ∈ Token.mark .alternative :: others.tokens, t ≠ .start := by
      intro t ht
      rcases List.mem_cons.mp ht with rfl | ht
      · exact Token.noConfusion
      · exact (others.isInner_of_mem ht).1
    obtain ⟨b₁, es₁, es₂, h₁, hw₁, h₂, hw₂⟩ :=
      Steps.split h hw (fun t ht => (c.isInner_of_mem ht).1) hinner
    obtain ⟨b₂, es₃, es₄, h₃, -, h₄, hw₄⟩ :=
      Steps.split
        (show Steps b₁ _ ([Token.mark .alternative] ++ others.tokens) b es₂ from h₂) hw₂
        (by simp) (fun t ht => (others.isInner_of_mem ht).1)
    obtain ⟨hgroups, hleads⟩ := c.leads_routes h₁ hw₁ hi
    obtain ⟨g', rest', hg', -, rfl⟩ := branch_eq_ok h₃.one
    rw [hgroups, hg] at hg'
    obtain ⟨rfl, rfl⟩ := List.cons.inj hg'
    obtain ⟨ends, hends, hothers⟩ := others.leads_routes h₄ hw₄ (by omega) rfl rfl
    refine ⟨b₁.last :: ends, ?_, ?_⟩
    · rw [hends, List.append_assoc, List.singleton_append]
    · have hsplit : leadsToAny next (b₁.last :: ends ++ [b.last]) =
          leadsToAny next [b₁.last] + leadsToAny next (ends ++ [b.last]) :=
        leadsToAny_append next [b₁.last] (ends ++ [b.last])
      rw [hsplit, leadsToAny_singleton, hleads, hlast, hothers, Phrase.routes, mul_add]
      rfl

theorem Clause.leads_routes (c : Clause) {a b : Assembly} {i : Nat} {es : List (Nat × Nat)}
    (h : Steps a i c.tokens b es) (hw : Window next i c.tokens.length es) (hi : 0 < i) :
    b.groups = a.groups ∧ leads next b.last = leads next a.last * c.routes i := by
  cases c with
  | nil =>
    cases h
    refine ⟨rfl, ?_⟩
    rw [Clause.routes, mul_one]
  | cons x rest =>
    obtain ⟨b₁, es₁, es₂, h₁, hw₁, h₂, hw₂⟩ :=
      Steps.split h hw (fun t ht => (x.isInner_of_mem ht).1)
        (fun t ht => (rest.isInner_of_mem ht).1)
    obtain ⟨hgroups₁, hleads₁⟩ := x.leads_routes h₁ hw₁ hi
    obtain ⟨hgroups₂, hleads₂⟩ := rest.leads_routes h₂ hw₂ (by omega)
    refine ⟨hgroups₂.trans hgroups₁, ?_⟩
    rw [hleads₂, hleads₁, Clause.routes, mul_assoc]

theorem Atom.leads_routes (x : Atom) {a b : Assembly} {i : Nat} {es : List (Nat × Nat)}
    (h : Steps a i x.tokens b es) (hw : Window next i x.tokens.length es) (hi : 0 < i) :
    b.groups = a.groups ∧ leads next b.last = leads next a.last * x.routes i := by
  cases x with
  | text s weight => exact follow_leads h rfl hw hi
  | reference name => exact follow_leads h rfl hw hi
  | group p =>
    obtain ⟨hgroups, hleads⟩ :=
      group_leads (m := .closeGroup) h hw hi rfl (fun _ _ => rfl) p.leads_routes
    refine ⟨hgroups, ?_⟩
    rw [hleads, if_neg Mark.noConfusion, add_zero, Atom.routes, mul_assoc, mul_assoc, mul_assoc]
  | optional p =>
    obtain ⟨hgroups, hleads⟩ :=
      group_leads (m := .closeOptional) h hw hi rfl (fun _ _ => rfl) p.leads_routes
    refine ⟨hgroups, ?_⟩
    rw [hleads, if_pos rfl, Atom.routes, mul_assoc, mul_assoc, mul_assoc]

end

end Simulation

namespace Assembly

variable {p : Phrase} {a : Assembly} {es : List (Nat × Nat)} {g : Graph}

theorem Closing.paths_eq (h : Closing p.tokens a es g)
    (hspans : g.Spans 0 (p.tokens.length + 2)) :
    g.paths = {[0]} * p.routes 1 * {[p.tokens.length + 1]} * {[p.tokens.length + 2]} := by
  have hwindow : Window g.Joins 1 p.tokens.length es := by
    intro x k hk hlt
    rw [h.joins]
    have hne : k ≠ p.tokens.length + 1 ∧ k ≠ p.tokens.length + 2 := by omega
    simp [hne.2, Ne.symm hne.1]
  obtain ⟨ends, hgroups, hends⟩ := p.leads_routes h.steps hwindow Nat.one_pos rfl rfl
  have hterminated : a.terminated = [a.last] ++ ends := by
    rw [terminated, hgroups]
    simp
  have hterminator : leads g.Joins (p.tokens.length + 1) =
      leadsToAny g.Joins ([a.last] ++ ends) * {[p.tokens.length + 1]} := by
    refine leads_eq (Nat.succ_ne_zero _) fun x => ?_
    rw [h.joins, ← hterminated]
    have hes : ¬ (x, p.tokens.length + 1) ∈ es := by
      intro hx
      have := target_of_steps (fun t ht => (p.isInner_of_mem ht).1) h.steps hx
      omega
    simp [hes]
  have hfinish : leads g.Joins (p.tokens.length + 2) =
      leadsToAny g.Joins [p.tokens.length + 1] * {[p.tokens.length + 2]} := by
    refine leads_eq (Nat.succ_ne_zero _) fun x => ?_
    rw [h.joins]
    have hes : ¬ (x, p.tokens.length + 2) ∈ es := by
      intro hx
      have := target_of_steps (fun t ht => (p.isInner_of_mem ht).1) h.steps hx
      omega
    simp [hes]
  have hpaths : g.paths = leads g.Joins (p.tokens.length + 2) := by
    ext q
    exact hspans.mem_paths
  rw [hpaths, hfinish, leadsToAny_singleton, hterminator, leadsToAny_append, add_comm,
    ← leadsToAny_append, hends, leads_zero hspans.not_entered]

end Assembly

end SpokenGrammar
