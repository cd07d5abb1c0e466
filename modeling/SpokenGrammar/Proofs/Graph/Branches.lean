import SpokenGrammar.Proofs.Graph.Assembly

namespace SpokenGrammar

namespace Token

def depthAfter (depth : Nat) : Token → Nat
  | .mark .openGroup => depth + 1
  | .mark .openOptional => depth + 1
  | .mark .closeGroup => depth - 1
  | .mark .closeOptional => depth - 1
  | _ => depth

/-- Whether a terminator comes after every alternative outside all groups. -/
def Rejoins : Nat → List Token → Prop
  | _, [] => True
  | depth, t :: ts =>
    (depth = 0 → t = .mark .alternative → .mark .terminator ∈ ts) ∧ Rejoins (t.depthAfter depth) ts

instance decidableRejoins : (depth : Nat) → (ts : List Token) → Decidable (Rejoins depth ts)
  | _, [] => .isTrue trivial
  | depth, t :: ts =>
    have := decidableRejoins (t.depthAfter depth) ts
    inferInstanceAs (Decidable (_ ∧ _))

theorem rejoins_of_terminated (depth : Nat) (body : List Token) :
    Rejoins depth (body ++ [.mark .terminator, .finish]) := by
  induction body generalizing depth with
  | nil =>
    have hterminator : Token.mark .terminator ≠ .mark .alternative := by simp
    exact ⟨fun _ h => absurd h hterminator, fun _ => Token.noConfusion, trivial⟩
  | cons t body ih => exact ⟨fun _ _ => by simp, ih _⟩

def mark? : Token → Option Mark
  | .mark m => some m
  | _ => none

theorem mem_marks {m : Mark} {ts : List Token} :
    .mark m ∈ (ts.filterMap mark?).map Token.mark ↔ .mark m ∈ ts := by
  rw [List.mem_map_of_injective fun _ _ => Token.mark.inj, List.mem_filterMap]
  constructor
  · rintro ⟨t, ht, hm⟩
    cases t with
    | mark m' => exact Option.some.inj hm ▸ ht
    | start => cases hm
    | finish => cases hm
    | reference name => cases hm
    | text s weight => cases hm
  · exact fun hm => ⟨_, hm, rfl⟩

theorem rejoins_marks (depth : Nat) (ts : List Token) :
    Rejoins depth ((ts.filterMap mark?).map Token.mark) ↔ Rejoins depth ts := by
  induction ts generalizing depth with
  | nil => exact Iff.rfl
  | cons t ts ih =>
    cases t with
    | mark m => exact and_congr (imp_congr_right fun _ => imp_congr_right fun _ => mem_marks) (ih _)
    | start => exact (ih depth).trans (and_iff_right fun _ => Token.noConfusion).symm
    | finish => exact (ih depth).trans (and_iff_right fun _ => Token.noConfusion).symm
    | reference name => exact (ih depth).trans (and_iff_right fun _ => Token.noConfusion).symm
    | text s weight => exact (ih depth).trans (and_iff_right fun _ => Token.noConfusion).symm

theorem rejoins_congr {depth : Nat} {ts us : List Token}
    (h : ts.filterMap mark? = us.filterMap mark?) : Rejoins depth ts ↔ Rejoins depth us := by
  rw [← rejoins_marks, h, rejoins_marks]

end Token

namespace Assembly

variable {a b : Assembly} {i : Nat} {t : Token} {ts : List Token} {es fs : List (Nat × Nat)}
  {inner : List OpenGroup} {outer : OpenGroup}

/-- The ends of the outermost group are left, or there is a terminator still to come. -/
structure Guarded (inner : List OpenGroup) (outer : OpenGroup) (ts : List Token) (a : Assembly)
    (es : List (Nat × Nat)) : Prop where
  groups : a.groups = inner ++ [outer]
  opener : outer.opener = none
  rejoins : Token.Rejoins inner.length ts
  ended : ∀ x ∈ outer.ends, (∃ y, (x, y) ∈ es) ∨ .mark .terminator ∈ ts

namespace Guarded

variable (h : Guarded inner outer (t :: ts) a es)
include h

theorem later (ht : t ≠ .mark .terminator) (fs : List (Nat × Nat)) :
    ∀ x ∈ outer.ends, (∃ y, (x, y) ∈ es ++ fs) ∨ .mark .terminator ∈ ts := by
  intro x hx
  rcases h.ended x hx with ⟨y, hy⟩ | hmem
  · exact .inl ⟨y, List.mem_append_left _ hy⟩
  · exact .inr ((List.mem_cons.mp hmem).resolve_left ht.symm)

theorem stay (ht : t ≠ .mark .terminator) (hdepth : t.depthAfter inner.length = inner.length)
    (hb : b.groups = a.groups) (fs : List (Nat × Nat)) : Guarded inner outer ts b (es ++ fs) :=
  ⟨hb.trans h.groups, h.opener, hdepth ▸ h.rejoins.2, h.later ht fs⟩

theorem enter (m : Mark) (ht : t ≠ .mark .terminator)
    (hdepth : t.depthAfter inner.length = inner.length + 1) (fs : List (Nat × Nat)) :
    Guarded (⟨some m, i, []⟩ :: inner) outer ts (a.enter m i).1 (es ++ fs) := by
  refine ⟨?_, h.opener, ?_, h.later ht fs⟩
  · rw [Assembly.enter, h.groups, List.cons_append]
  · rw [List.length_cons, ← hdepth]
    exact h.rejoins.2

theorem leave {m : Mark} (ht : t ≠ .mark .terminator)
    (hdepth : t.depthAfter inner.length = inner.length - 1) (hm : m.opener ≠ none)
    (hleave : a.leave m i = .ok (b, fs)) : ∃ inner', Guarded inner' outer ts b (es ++ fs) := by
  obtain ⟨g, rest, hg, hopener, rfl, -⟩ := leave_eq_ok hleave
  cases inner with
  | nil =>
    -- The group that the start sentinel opened is closed by no mark.
    obtain ⟨rfl, -⟩ := List.cons.inj (h.groups.symm.trans hg)
    exact absurd (hopener.symm.trans h.opener) hm
  | cons g' inner =>
    obtain ⟨-, rfl⟩ := List.cons.inj (h.groups.symm.trans hg)
    refine ⟨inner, rfl, h.opener, ?_, h.later ht fs⟩
    have hrejoins := h.rejoins.2
    rwa [hdepth] at hrejoins

theorem branch (ht : t = .mark .alternative) (hbranch : a.branch i = .ok (b, fs)) :
    ∃ inner' outer', Guarded inner' outer' ts b (es ++ fs) := by
  obtain ⟨g, rest, hg, rfl, rfl⟩ := branch_eq_ok hbranch
  subst ht
  have hterminator : Token.mark .alternative ≠ .mark .terminator := by simp
  cases inner with
  | nil =>
    obtain ⟨rfl, rfl⟩ := List.cons.inj (h.groups.symm.trans hg)
    exact ⟨[], _, rfl, h.opener, h.rejoins.2, fun _ _ => .inr (h.rejoins.1 rfl rfl)⟩
  | cons g' inner =>
    obtain ⟨rfl, rfl⟩ := List.cons.inj (h.groups.symm.trans hg)
    exact ⟨_ :: inner, outer, rfl, h.opener, h.rejoins.2, h.later hterminator []⟩

theorem terminate (ht : t = .mark .terminator) :
    Guarded inner outer ts (a.terminate i).1 (es ++ (a.terminate i).2) := by
  subst ht
  refine ⟨h.groups, h.opener, h.rejoins.2, fun x hx => .inl ⟨i, ?_⟩⟩
  have hterminated : x ∈ a.terminated := by
    refine pending_subset_terminated (mem_pending.mpr (.inr ⟨outer, ?_, hx⟩))
    rw [h.groups]
    simp
  rw [terminate_edges]
  exact List.mem_append_right _ (List.mem_map.mpr ⟨x, hterminated, rfl⟩)

theorem step (ht : t ≠ .start) (hstep : a.step i t = .ok (b, fs)) :
    ∃ inner' outer', Guarded inner' outer' ts b (es ++ fs) := by
  cases t with
  | start => exact absurd rfl ht
  | finish =>
    obtain ⟨rfl, rfl⟩ := Prod.mk.inj (Except.ok.inj hstep)
    exact ⟨inner, outer, h.stay (b := { a with last := i }) Token.noConfusion rfl rfl _⟩
  | reference name =>
    obtain ⟨rfl, rfl⟩ := Prod.mk.inj (Except.ok.inj hstep)
    exact ⟨inner, outer, h.stay (b := { a with last := i }) Token.noConfusion rfl rfl _⟩
  | text s weight =>
    obtain ⟨rfl, rfl⟩ := Prod.mk.inj (Except.ok.inj hstep)
    exact ⟨inner, outer, h.stay (b := { a with last := i }) Token.noConfusion rfl rfl _⟩
  | mark m =>
    cases m with
    | openGroup =>
      obtain ⟨rfl, rfl⟩ := Prod.mk.inj (Except.ok.inj hstep)
      exact ⟨_, _, h.enter .openGroup (by simp) rfl _⟩
    | openOptional =>
      obtain ⟨rfl, rfl⟩ := Prod.mk.inj (Except.ok.inj hstep)
      exact ⟨_, _, h.enter .openOptional (by simp) rfl _⟩
    | closeGroup =>
      obtain ⟨inner', hinner⟩ := h.leave (m := .closeGroup) (by simp) rfl (by decide) hstep
      exact ⟨inner', outer, hinner⟩
    | closeOptional =>
      obtain ⟨inner', hinner⟩ := h.leave (m := .closeOptional) (by simp) rfl (by decide) hstep
      exact ⟨inner', outer, hinner⟩
    | alternative => exact h.branch rfl hstep
    | terminator =>
      obtain ⟨rfl, rfl⟩ := Prod.mk.inj (Except.ok.inj hstep)
      exact ⟨_, _, h.terminate rfl⟩

end Guarded

theorem Guarded.steps (h : Guarded inner outer ts a es) (hs : Steps a i ts b fs)
    (hts : ∀ t ∈ ts, t ≠ .start) : ∃ inner' outer', Guarded inner' outer' [] b (es ++ fs) := by
  induction hs generalizing inner outer es with
  | nil a i => exact ⟨inner, outer, by rwa [List.append_nil]⟩
  | cons hstep _ ih =>
    obtain ⟨inner', outer', hnext⟩ := h.step (hts _ List.mem_cons_self) hstep
    rw [← List.append_assoc]
    exact ih hnext fun t ht => hts t (List.mem_cons_of_mem _ ht)

theorem exists_entry (ht : t ≠ .start) (halternative : t ≠ .mark .alternative)
    (h : a.step i t = .ok (b, es)) : ∃ x, (x, i) ∈ es := by
  cases t with
  | start => exact absurd rfl ht
  | finish =>
    obtain ⟨rfl, rfl⟩ := Prod.mk.inj (Except.ok.inj h)
    exact ⟨a.last, List.mem_singleton_self _⟩
  | reference name =>
    obtain ⟨rfl, rfl⟩ := Prod.mk.inj (Except.ok.inj h)
    exact ⟨a.last, List.mem_singleton_self _⟩
  | text s weight =>
    obtain ⟨rfl, rfl⟩ := Prod.mk.inj (Except.ok.inj h)
    exact ⟨a.last, List.mem_singleton_self _⟩
  | mark m =>
    have hleave : ∀ {m : Mark}, a.leave m i = .ok (b, es) → ∃ x, (x, i) ∈ es := by
      intro m hm
      obtain ⟨g, rest, -, -, -, rfl⟩ := leave_eq_ok hm
      exact ⟨a.last, by simp⟩
    cases m with
    | openGroup =>
      obtain ⟨rfl, rfl⟩ := Prod.mk.inj (Except.ok.inj h)
      exact ⟨a.last, List.mem_singleton_self _⟩
    | openOptional =>
      obtain ⟨rfl, rfl⟩ := Prod.mk.inj (Except.ok.inj h)
      exact ⟨a.last, List.mem_singleton_self _⟩
    | closeGroup => exact hleave h
    | closeOptional => exact hleave h
    | alternative => exact absurd rfl halternative
    | terminator =>
      obtain ⟨rfl, rfl⟩ := Prod.mk.inj (Except.ok.inj h)
      exact ⟨a.last, List.mem_cons_self⟩

theorem Steps.exists_entry (h : Steps a i ts b es) (hts : ∀ t ∈ ts, t ≠ .start) {k : Nat}
    (hk : ts[k]? = some t) (ht : t ≠ .mark .alternative) : ∃ x, (x, i + k) ∈ es := by
  induction h generalizing k with
  | nil a i => cases hk
  | @cons a b c i u ts es fs hstep _ ih =>
    cases k with
    | zero =>
      obtain rfl := Option.some.inj hk
      obtain ⟨x, hx⟩ := Assembly.exists_entry (hts _ List.mem_cons_self) ht hstep
      exact ⟨x, List.mem_append_left _ hx⟩
    | succ k =>
      obtain ⟨x, hx⟩ := ih (fun t ht => hts t (List.mem_cons_of_mem _ ht)) hk
      rw [Nat.add_assoc, Nat.add_comm 1] at hx
      exact ⟨x, List.mem_append_right _ hx⟩

theorem Steps.last_of_finish (h : Steps a i (ts ++ [.finish]) b es) : b.last = i + ts.length := by
  obtain ⟨c, fs, gs, -, hfinish, -⟩ := h.of_append
  cases hfinish with
  | cons hstep hnone =>
    obtain ⟨rfl, -⟩ := Prod.mk.inj (Except.ok.inj hstep)
    cases hnone
    rfl

end Assembly

namespace Graph

open Assembly

variable {g : Graph} {body : List Token}

theorem spans_ofTokens (h : ofTokens (.start :: body ++ [.finish]) = .ok g)
    (hbody : ∀ t ∈ body, t ≠ .start) (hrejoins : Token.Rejoins 0 (body ++ [.finish])) :
    g.Spans 0 (body.length + 1) := by
  rw [List.cons_append] at h
  obtain ⟨b, es, hsteps, hgroups, htokens, hjoins⟩ := exists_steps_of_ofTokens h
  have hall : ∀ t ∈ body ++ [.finish], t ≠ .start :=
    List.forall_mem_append.mpr ⟨hbody, by simp⟩
  have hopened : Guarded [] ⟨none, 0, []⟩ (body ++ [.finish]) opened [] :=
    ⟨rfl, rfl, hrejoins, by simp⟩
  obtain ⟨inner, outer, hguarded⟩ := hopened.steps hsteps hall
  rw [List.nil_append] at hguarded
  have hinner : inner = [] := by
    rw [hguarded.groups, List.length_append, List.length_singleton] at hgroups
    exact List.eq_nil_of_length_eq_zero (by omega)
  have hlast : b.last = body.length + 1 := hsteps.last_of_finish.trans (Nat.add_comm ..)
  have hlength : g.tokens.length = body.length + 2 := by
    rw [htokens]
    simp
  obtain ⟨hrising, -, hentered, hleft⟩ := sound_start.steps hsteps hall
  rw [List.nil_append] at hrising hentered hleft
  simp only [← hjoins] at hrising hentered hleft
  simp only [Entered, ← hjoins] at hentered hleft
  have htouched : ∀ x, g.Touched x → x = 0 ∨ ∃ w, g.Joins w x := by
    rintro x ⟨y, hxy | hyx⟩
    · exact hentered x y hxy
    · exact .inr ⟨y, hyx⟩
  have hexit : ∀ x, (x = 0 ∨ ∃ w, g.Joins w x) → x ≠ body.length + 1 → ∃ y, g.Joins x y := by
    intro x hx hne
    rcases hleft x hx with hy | hpending
    · exact hy
    · rcases mem_pending.mp hpending with rfl | ⟨group, hgroup, hends⟩
      · exact absurd hlast hne
      · rw [hguarded.groups, hinner] at hgroup
        rcases List.mem_singleton.mp hgroup with rfl
        rcases hguarded.ended x hends with ⟨y, hy⟩ | hmem
        · exact ⟨y, (hjoins x y).mpr hy⟩
        · cases hmem
  rw [List.length_append, List.length_singleton] at hrising
  constructor
  · exact ⟨id, fun x y hxy => (hrising x y hxy).1⟩
  · intro x y hxy
    have := hrising x y hxy
    omega
  · intro x hx hne
    exact (htouched x hx).resolve_left hne
  · exact fun x hx => hexit x (htouched x hx)
  · intro x hx
    exact absurd (hrising x 0 hx).1 (Nat.not_lt_zero x)
  · intro y hy
    have := hrising _ y hy
    omega
  · obtain ⟨y, hy⟩ := hexit 0 (.inl rfl) (by omega)
    exact ⟨y, .inl hy⟩

theorem spans_of_terminated
    (h : ofTokens (.start :: body ++ [.mark .terminator, .finish]) = .ok g)
    (hbody : ∀ t ∈ body, t ≠ .start) : g.Spans 0 (body.length + 2) := by
  have hsplit : (.start :: body ++ [.mark .terminator, .finish] : List Token) =
      .start :: (body ++ [.mark .terminator]) ++ [.finish] := by simp
  have hrejoins : Token.Rejoins 0 (body ++ [.mark .terminator] ++ [.finish]) := by
    rw [List.append_assoc]
    exact Token.rejoins_of_terminated 0 body
  have hspans := spans_ofTokens (hsplit ▸ h) (List.forall_mem_append.mpr ⟨hbody, by simp⟩) hrejoins
  rwa [List.length_append, List.length_singleton] at hspans

theorem touched_ofTokens {ts : List Token} (h : ofTokens (.start :: ts) = .ok g)
    (hts : ∀ t ∈ ts, t ≠ .start) {i : Nat} {t : Token} (hi : g.tokens[i]? = some t)
    (ht : t.isStructural = false) : g.Touched i := by
  obtain ⟨b, es, hsteps, -, htokens, hjoins⟩ := exists_steps_of_ofTokens h
  rw [htokens] at hi
  cases i with
  | zero =>
    obtain rfl := Option.some.inj hi
    cases ht
  | succ k =>
    have halternative : t ≠ .mark .alternative := by
      rintro rfl
      cases ht
    obtain ⟨x, hx⟩ := hsteps.exists_entry hts hi halternative
    rw [Nat.add_comm] at hx
    exact ⟨x, .inr ((hjoins x _).mpr hx)⟩

end Graph

end SpokenGrammar
