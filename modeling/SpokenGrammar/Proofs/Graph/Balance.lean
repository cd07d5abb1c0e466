import SpokenGrammar.Proofs.Graph.Assembly
import SpokenGrammar.Proofs.Token.Balance

namespace SpokenGrammar

open Token (Balanced Innermost Stray Unclosed Culprit height)

namespace Assembly

variable {a b : Assembly} {i k : Nat} {t : Token} {m : Mark} {read ts after : List Token}
  {groups rest : List OpenGroup} {g : OpenGroup} {es : List (Nat × Nat)}

/-- The groups that are open once tokens from the start sentinel on have been read. -/
inductive Stacked : List OpenGroup → List Token → Prop where
  | outermost {ends : List Nat} {ts : List Token} :
      Balanced ts → Stacked [⟨none, 0, ends⟩] (.start :: ts)
  | inner {groups : List OpenGroup} {read ts : List Token} {a : Token} {m : Mark}
      {ends : List Nat} : Stacked groups read → a.opens = some m → Balanced ts →
        Stacked (⟨some m, read.length, ends⟩ :: groups) (read ++ a :: ts)

namespace Stacked

theorem append (h : Stacked groups read) (hts : Balanced ts) : Stacked groups (read ++ ts) := by
  cases h with
  | outermost hbefore => exact .outermost (hbefore.append hts)
  | inner houter hopens hbefore =>
    rw [List.append_assoc]
    exact .inner houter hopens (hbefore.append hts)

theorem plain (h : Stacked groups read) (hopens : t.opens = none) (hcloses : t.closes = none) :
    Stacked groups (read ++ [t]) :=
  h.append (.plain hopens hcloses .nil)

theorem ne_nil (h : Stacked groups read) : groups ≠ [] := by
  cases h <;> simp

theorem ends (h : Stacked (g :: rest) read) (ends : List Nat) :
    Stacked ({ g with ends } :: rest) read := by
  cases h with
  | outermost hbefore => exact .outermost hbefore
  | inner houter hopens hbefore => exact .inner houter hopens hbefore

theorem innermost (h : Stacked (g :: rest) read) (hg : g.opener = some m) (after : List Token) :
    Innermost (read ++ after) m g.position read.length := by
  cases h with
  | outermost => cases hg
  | @inner groups read ts a m' ends houter hopens hbefore =>
    obtain rfl := Option.some.inj hg
    exact ⟨read, a, ts, after, rfl, rfl, by simp [Nat.add_assoc], hopens, hbefore⟩

theorem opener_of_innermost (h : Stacked (g :: rest) read)
    (hk : Innermost (read ++ after) m k read.length) : g.opener = some m := by
  cases hg : g.opener with
  | some m' => rw [((h.innermost hg after).unique hk).2]
  | none =>
    cases h with
    | inner => cases hg
    | @outermost ends ts hbefore =>
      -- From the start sentinel on the height never falls below 0, and here it is 0 again.
      have heq := hk.height_eq
      have hlt := hk.lt
      have hstart : Token.start.rise = 0 := rfl
      rw [List.take_left, List.take_append_of_le_length (by omega)] at heq
      cases k with
      | zero => simp [hstart, hbefore.height_eq] at heq
      | succ k =>
        have hnonneg := hbefore.height_take k
        simp only [List.take_succ_cons, Token.height_cons, hstart, hbefore.height_eq] at heq
        omega

theorem leave (h : Stacked (g :: rest) read) (hg : g.opener = some m) (ht : t.closes = some m) :
    Stacked rest (read ++ [t]) := by
  cases h with
  | outermost => cases hg
  | inner houter hopens hbefore =>
    obtain rfl := Option.some.inj hg
    rw [List.append_assoc]
    exact houter.append (.group hopens ht hbefore .nil)

theorem leave_cases (h : Stacked a.groups read) {c : Mark} (ht : (Token.mark c).closes = some m) :
    (∃ b es, a.leave c read.length = .ok (b, es) ∧ Stacked b.groups (read ++ [.mark c]) ∧
      ∀ after, ¬ Stray (read ++ .mark c :: after) read.length) ∨
    a.leave c read.length = .error (.unbalancedGroup read.length) ∧
      ∀ after, Stray (read ++ .mark c :: after) read.length := by
  have hread : ∀ after, (read ++ .mark c :: after)[read.length]? = some (.mark c) := by simp
  cases hgroups : a.groups with
  | nil => exact absurd hgroups h.ne_nil
  | cons g rest =>
    rw [hgroups] at h
    have hc : c.opener = some m := ht
    by_cases hg : g.opener = some m
    · left
      have hleave : ∃ es, a.leave c read.length = .ok (⟨read.length, rest⟩, es) := by
        rw [Assembly.leave, hgroups]
        exact ⟨_, if_pos (hg.trans hc.symm)⟩
      obtain ⟨es, hleave⟩ := hleave
      exact ⟨_, es, hleave, h.leave hg ht,
        fun after => (h.innermost hg _).not_stray (hread after) ht⟩
    · right
      constructor
      · rw [Assembly.leave, hgroups]
        exact if_neg fun heq => hg (heq.trans hc)
      · exact fun after => ⟨_, m, hread after, ht, fun k hk => hg (h.opener_of_innermost hk)⟩

theorem step_cases (h : Stacked a.groups read) (ht : t ≠ .start) :
    (∃ b es, a.step read.length t = .ok (b, es) ∧ Stacked b.groups (read ++ [t]) ∧
      ∀ after, ¬ Stray (read ++ t :: after) read.length) ∨
    a.step read.length t = .error (.unbalancedGroup read.length) ∧
      ∀ after, Stray (read ++ t :: after) read.length := by
  have hopening : t.closes = none → ∀ after, ¬ Stray (read ++ t :: after) read.length :=
    fun hcloses after => Token.not_stray_of_closes_eq_none (by simp) hcloses
  cases t with
  | start => exact absurd rfl ht
  | finish => exact .inl ⟨_, _, rfl, h.plain rfl rfl, hopening rfl⟩
  | reference name => exact .inl ⟨_, _, rfl, h.plain rfl rfl, hopening rfl⟩
  | text s weight => exact .inl ⟨_, _, rfl, h.plain rfl rfl, hopening rfl⟩
  | mark m =>
    cases m with
    | openGroup => exact .inl ⟨_, _, rfl, .inner h rfl .nil, hopening rfl⟩
    | openOptional => exact .inl ⟨_, _, rfl, .inner h rfl .nil, hopening rfl⟩
    | closeGroup => exact h.leave_cases rfl
    | closeOptional => exact h.leave_cases rfl
    | terminator => exact .inl ⟨_, _, rfl, h.plain rfl rfl, hopening rfl⟩
    | alternative =>
      left
      cases hgroups : a.groups with
      | nil => exact absurd hgroups h.ne_nil
      | cons g rest =>
        rw [hgroups] at h
        refine ⟨⟨g.position, { g with ends := g.ends ++ [a.last] } :: rest⟩, [], ?_,
          (h.ends _).plain rfl rfl, hopening rfl⟩
        rw [Assembly.step, Assembly.branch, hgroups]

theorem exists_outermost (h : Stacked groups read) {s : OpenGroup}
    (hgroups : groups.reverse = s :: g :: rest) :
    ∃ ts a m us, read = .start :: ts ++ a :: us ∧ Balanced ts ∧ g.position = ts.length + 1 ∧
      a.opens = some m ∧ ∀ n, 0 ≤ height (us.take n) := by
  induction h generalizing rest with
  | outermost => simp at hgroups
  | @inner groups read ts a m ends houter hopens hbefore ih =>
    rw [List.reverse_cons] at hgroups
    cases hreverse : groups.reverse with
    | nil => exact absurd (List.reverse_eq_nil_iff.mp hreverse) houter.ne_nil
    | cons s' others =>
      rw [hreverse] at hgroups
      cases others with
      | nil =>
        obtain ⟨-, hg⟩ := List.cons.inj hgroups
        obtain ⟨rfl, -⟩ := List.cons.inj hg
        obtain rfl : groups = [s'] := by simpa using congrArg List.reverse hreverse
        cases houter with
        | outermost houtside =>
          exact ⟨_, a, m, ts, rfl, houtside, rfl, hopens, hbefore.height_take⟩
        | inner hnone => exact absurd rfl hnone.ne_nil
      | cons g' others =>
        obtain ⟨rfl, hg⟩ := List.cons.inj hgroups
        obtain ⟨rfl, -⟩ := List.cons.inj hg
        obtain ⟨ts', a', m', us, rfl, houtside, hposition, hopens', hnonneg⟩ := ih hreverse
        refine ⟨ts', a', m', us ++ a :: ts, by simp, houtside, hposition, hopens', fun n => ?_⟩
        have hfirst := hnonneg n
        rw [List.take_append, Token.height_append]
        cases n - us.length with
        | zero => simpa using hfirst
        | succ n =>
          have hlast := hbefore.height_take n
          simp [Token.rise_of_opens hopens]
          omega

theorem culprit (h : Stacked groups read) {s : OpenGroup}
    (hgroups : groups.reverse = s :: g :: rest) :
    Unclosed read g.position ∧ ∀ j < g.position, ¬ Unclosed read j := by
  obtain ⟨ts, a, m, us, rfl, hbefore, hposition, hopens, hnonneg⟩ := h.exists_outermost hgroups
  rw [hposition]
  constructor
  · refine Token.unclosed_of_height_lt (t := a) (by simp) hopens fun j hj => ?_
    obtain ⟨n, rfl⟩ := Nat.exists_eq_add_of_lt hj
    have hinside := hnonneg n
    have hstart : (.start :: ts : List Token).length = ts.length + 1 := rfl
    rw [← hstart, List.take_left, Nat.add_assoc, List.take_length_add_append]
    simp only [List.take_succ_cons, Token.height_append, Token.height_cons,
      Token.rise_of_opens hopens]
    omega
  · intro j hj
    cases j with
    | zero => exact Token.not_unclosed_of_opens_eq_none (t := .start) (by simp) rfl
    | succ j =>
      have hpaired := (hbefore.paired [.start] (a :: us) (i := j) (by omega)).2
      simpa [Nat.add_comm 1] using hpaired

end Stacked

theorem Stacked.exists_body (h : Stacked groups read)
    (hshort : ∀ s g rest, groups.reverse ≠ s :: g :: rest) :
    ∃ body, read = .start :: body ∧ Balanced body := by
  cases h with
  | outermost hbody => exact ⟨_, rfl, hbody⟩
  | @inner groups read ts t m ends houter _ _ =>
    cases hreverse : groups.reverse with
    | nil => exact absurd (List.reverse_eq_nil_iff.mp hreverse) houter.ne_nil
    | cons s others =>
      rw [List.reverse_cons, hreverse] at hshort
      cases others with
      | nil => exact absurd rfl (hshort s _ _)
      | cons g others => exact absurd rfl (hshort s g _)

theorem run_cases (h : Stacked a.groups read) (hread : ∀ j < read.length, ¬ Stray (read ++ ts) j)
    (hts : ∀ t ∈ ts, t ≠ .start) :
    (∃ es, a.run read.length ts = .ok es) ∧
      (∃ body, read ++ ts = .start :: body ∧ Balanced body) ∨
    ∃ i, a.run read.length ts = .error (.unbalancedGroup i) ∧ Culprit (read ++ ts) i := by
  induction ts generalizing a read with
  | nil =>
    rw [List.append_nil] at hread ⊢
    rw [run]
    split
    · rename_i s g rest hgroups
      right
      obtain ⟨hunclosed, hfirst⟩ := h.culprit hgroups
      refine ⟨g.position, rfl, .inr ⟨fun j => ?_, hunclosed, hfirst⟩⟩
      by_cases hj : j < read.length
      · exact hread j hj
      · rintro ⟨t, o, ht, -⟩
        simp [hj] at ht
    · rename_i hshort
      exact .inl ⟨⟨[], rfl⟩, h.exists_body hshort⟩
  | cons t ts ih =>
    have hrest : ∀ t ∈ ts, t ≠ .start := fun t ht => hts t (List.mem_cons_of_mem _ ht)
    rcases h.step_cases (hts t List.mem_cons_self) with
      ⟨b, es, hstep, hb, htaken⟩ | ⟨hstep, hstray⟩
    · have hnext := ih hb (fun j hj => ?_) hrest
      · rw [List.length_append, List.length_singleton, List.append_assoc] at hnext
        rw [run_of_step hstep]
        rcases hnext with ⟨⟨fs, hrun⟩, hbody⟩ | ⟨i, hrun, hculprit⟩
        · exact .inl ⟨⟨es ++ fs, by rw [hrun]; rfl⟩, hbody⟩
        · exact .inr ⟨i, by rw [hrun]; rfl, hculprit⟩
      · rw [List.append_assoc]
        rw [List.length_append, List.length_singleton] at hj
        rcases Nat.lt_succ_iff_lt_or_eq.mp hj with hj | rfl
        · exact hread j hj
        · exact htaken ts
    · exact .inr ⟨read.length, run_of_step_error hstep ts, .inl ⟨hstray ts, hread⟩⟩

theorem Steps.forall_ends {P : Nat → Prop} (h : Steps a i ts b es) (hts : ∀ t ∈ ts, t ≠ .start)
    (ha : ∀ x ∈ a.held, P x)
    (hP : ∀ k t, ts[k]? = some t → t ≠ .mark .alternative → P (i + k)) :
    ∀ x y, (x, y) ∈ es → P x ∧ P y := by
  induction h with
  | nil a i => exact fun _ _ hxy => absurd hxy List.not_mem_nil
  | @cons a b c i t ts es fs hstep _ ih =>
    obtain ⟨xs, rfl, hmoves⟩ := exists_moves (hts t List.mem_cons_self) hstep
    have hi : xs ≠ [] → P i := by
      intro hne
      refine hP 0 t rfl fun halternative => hne ?_
      subst halternative
      exact List.map_eq_nil_iff.mp (moves_branch hstep).1
    have hb : ∀ x ∈ b.held, P x := by
      intro x hx
      rcases hmoves.kept x hx with hx | ⟨rfl, hne⟩
      · exact ha x hx
      · exact hi hne
    have hrest := ih (fun t ht => hts t (List.mem_cons_of_mem _ ht)) hb fun k t ht hne => by
      rw [Nat.add_assoc, Nat.add_comm 1]
      exact hP (k + 1) t ht hne
    intro x y hxy
    rcases List.mem_append.mp hxy with hxy | hxy
    · obtain ⟨x', hx, heq⟩ := List.mem_map.mp hxy
      obtain ⟨rfl, rfl⟩ := Prod.mk.inj heq
      exact ⟨ha x' (hmoves.left hx), hi (List.ne_nil_of_mem hx)⟩
    · exact hrest x y hxy

end Assembly

theorem Token.Balanced.not_culprit {ts : List Token} (h : Balanced ts) (i : Nat) :
    ¬ Culprit (.start :: ts) i := by
  have hall : Balanced (.start :: ts) := .plain rfl rfl h
  have hpaired : ∀ j < (Token.start :: ts).length,
      ¬ Stray (.start :: ts) j ∧ ¬ Unclosed (.start :: ts) j := by
    intro j hj
    simpa using hall.paired [] [] hj
  rintro (⟨hstray, -⟩ | ⟨-, hunclosed, -⟩)
  · obtain ⟨t, o, ht, -⟩ := id hstray
    exact (hpaired i (List.getElem?_eq_some_iff.mp ht).1).1 hstray
  · obtain ⟨t, o, ht, -⟩ := id hunclosed
    exact (hpaired i (List.getElem?_eq_some_iff.mp ht).1).2 hunclosed

namespace Graph

open Assembly

variable {ts : List Token} {g : Graph} {x y : Nat}

theorem ofTokens_cases (hts : ∀ t ∈ ts, t ≠ .start) :
    (∃ g, ofTokens (.start :: ts) = .ok g) ∧ Balanced ts ∨
      ∃ i, ofTokens (.start :: ts) = .error (.unbalancedGroup i) ∧ Culprit (.start :: ts) i := by
  have hstart : ∀ j < [Token.start].length, ¬ Stray ([.start] ++ ts) j := by
    intro j hj
    obtain rfl : j = 0 := by simpa using hj
    exact Token.not_stray_of_closes_eq_none (t := .start) rfl rfl
  have hopened : run {} 0 (.start :: ts) = (run opened 1 ts).map ([] ++ ·) := run_of_step rfl ts
  have hstacked : Stacked opened.groups [.start] := .outermost .nil
  rw [ofTokens, hopened]
  rcases run_cases hstacked hstart hts with ⟨⟨es, hrun⟩, body, hbody, hbalanced⟩ | ⟨i, hrun, hi⟩
  · left
    obtain ⟨-, rfl⟩ := List.cons.inj hbody
    exact ⟨⟨_, congrArg (Except.map _ ∘ Except.map _) hrun⟩, hbalanced⟩
  · exact .inr ⟨i, congrArg (Except.map _ ∘ Except.map _) hrun, hi⟩

theorem exists_ofTokens_of_balanced (hts : ∀ t ∈ ts, t ≠ .start) (h : Balanced ts) :
    ∃ g, ofTokens (.start :: ts) = .ok g := by
  rcases ofTokens_cases hts with ⟨hbuilt, -⟩ | ⟨i, -, hculprit⟩
  · exact hbuilt
  · exact absurd hculprit (h.not_culprit i)

theorem lt_of_joins (h : ofTokens (.start :: ts) = .ok g) (hts : ∀ t ∈ ts, t ≠ .start)
    (hxy : g.Joins x y) : x < y := by
  obtain ⟨b, es, hsteps, -, -, hjoins⟩ := exists_steps_of_ofTokens h
  exact ((sound_start.steps hsteps hts).rising x y ((hjoins x y).mp hxy)).1

theorem not_alternative_of_touched (h : ofTokens (.start :: ts) = .ok g)
    (hts : ∀ t ∈ ts, t ≠ .start) (hx : g.Touched x) :
    (.start :: ts)[x]? ≠ some (.mark .alternative) := by
  obtain ⟨b, es, hsteps, -, -, hjoins⟩ := exists_steps_of_ofTokens h
  have hopened : ∀ z ∈ opened.held, (.start :: ts)[z]? ≠ some (.mark .alternative) := by
    intro z hz
    obtain rfl : z = 0 := by simpa [held, opened] using hz
    simp
  have hends := hsteps.forall_ends hts hopened fun k t ht hne heq => by
    rw [Nat.add_comm, List.getElem?_cons_succ, ht] at heq
    exact hne (Option.some.inj heq)
  obtain ⟨y, hxy | hyx⟩ := hx
  · exact (hends x y ((hjoins x y).mp hxy)).1
  · exact (hends y x ((hjoins y x).mp hyx)).2

theorem ofTokens_balanced (hts : ∀ t ∈ ts, t ≠ .start) :
    ((∃ g, ofTokens (.start :: ts) = .ok g) ↔ Balanced ts) ∧
    (¬ Balanced ts →
      ∃ i, ofTokens (.start :: ts) = .error (.unbalancedGroup i) ∧ Culprit (.start :: ts) i) ∧
    ∀ g, ofTokens (.start :: ts) = .ok g →
      g.tokens = .start :: ts ∧
      (∀ x y, g.Joins x y → x < y) ∧
      (∀ x, ¬ Relation.TransGen g.Joins x x) ∧
      ∀ x, g.Touched x → g.tokens[x]? ≠ some (.mark .alternative) := by
  refine ⟨⟨?_, exists_ofTokens_of_balanced hts⟩, ?_, fun g hg => ?_⟩
  · rintro ⟨g, hg⟩
    rcases ofTokens_cases hts with ⟨-, hbalanced⟩ | ⟨i, hfault, -⟩
    · exact hbalanced
    · rw [hg] at hfault
      cases hfault
  · intro hunbalanced
    rcases ofTokens_cases hts with ⟨-, hbalanced⟩ | hculprit
    · exact absurd hbalanced hunbalanced
    · exact hculprit
  · have htokens := tokens_of_ofTokens hg
    have hrising : ∀ x y, g.Joins x y → id x < id y := fun x y => lt_of_joins hg hts
    refine ⟨htokens, hrising, acyclic_of_rank hrising, fun x hx => ?_⟩
    rw [htokens]
    exact not_alternative_of_touched hg hts hx

theorem ofTokens_balanced_of_crossed :
    ofTokens [.start, .mark .openGroup, .mark .openOptional, .text "a" none, .mark .closeGroup,
      .mark .terminator, .finish] = .error (.unbalancedGroup 4) ∧
    Culprit [.start, .mark .openGroup, .mark .openOptional, .text "a" none, .mark .closeGroup,
      .mark .terminator, .finish] 4 := by
  have hinner : ∀ t ∈ ([.mark .openGroup, .mark .openOptional, .text "a" none, .mark .closeGroup,
      .mark .terminator, .finish] : List Token), t ≠ .start := by simp
  obtain ⟨hbalanced, hculprit, -⟩ := ofTokens_balanced hinner
  have hfault : ofTokens [.start, .mark .openGroup, .mark .openOptional, .text "a" none,
      .mark .closeGroup, .mark .terminator, .finish] = .error (.unbalancedGroup 4) := rfl
  refine ⟨hfault, ?_⟩
  rw [hfault] at hbalanced hculprit
  obtain ⟨i, hi, hculprit⟩ := hculprit fun h => by
    obtain ⟨g, hg⟩ := hbalanced.mpr h
    cases hg
  obtain rfl : 4 = i := Fault.unbalancedGroup.inj (Except.error.inj hi)
  exact hculprit

end Graph

end SpokenGrammar
