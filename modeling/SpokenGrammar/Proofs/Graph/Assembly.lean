import SpokenGrammar.Graph.OfTokens
import SpokenGrammar.Proofs.Graph.Route
import SpokenGrammar.Proofs.Token.Reading

namespace SpokenGrammar

theorem Graph.tokens_of_ofTokens {tokens : List Token} {g : Graph}
    (h : ofTokens tokens = .ok g) : g.tokens = tokens := by
  obtain ⟨ends, -, rfl⟩ := Attempt.map_eq_ok.mp h
  rfl

namespace Assembly

variable {a b c : Assembly} {i : Nat} {t : Token} {ts us : List Token} {es fs : List (Nat × Nat)}

inductive Steps : Assembly → Nat → List Token → Assembly → List (Nat × Nat) → Prop where
  | nil (a : Assembly) (i : Nat) : Steps a i [] a []
  | cons {a b c : Assembly} {i : Nat} {t : Token} {ts : List Token} {es fs : List (Nat × Nat)} :
      a.step i t = .ok (b, es) → Steps b (i + 1) ts c fs → Steps a i (t :: ts) c (es ++ fs)

theorem Steps.of_append (h : Steps a i (ts ++ us) c es) :
    ∃ b fs gs, Steps a i ts b fs ∧ Steps b (i + ts.length) us c gs ∧ es = fs ++ gs := by
  induction ts generalizing a i es with
  | nil => exact ⟨a, [], es, .nil a i, h, rfl⟩
  | cons t ts ih =>
    cases h with
    | cons hstep hrest =>
      obtain ⟨b, fs, gs, hts, hus, rfl⟩ := ih hrest
      refine ⟨b, _, gs, .cons hstep hts, ?_, (List.append_assoc ..).symm⟩
      rwa [List.length_cons, Nat.add_comm ts.length, ← Nat.add_assoc]

theorem run_of_step (h : a.step i t = .ok (b, es)) (ts : List Token) :
    a.run i (t :: ts) = (b.run (i + 1) ts).map (es ++ ·) := by
  rw [run, h]

theorem run_of_step_error {f : Fault} (h : a.step i t = .error f) (ts : List Token) :
    a.run i (t :: ts) = .error f := by
  rw [run, h]

theorem exists_steps_of_run (h : a.run i ts = .ok es) :
    ∃ b, Steps a i ts b es ∧ b.groups.length ≤ 1 := by
  induction ts generalizing a i es with
  | nil =>
    rw [run] at h
    split at h
    · cases h
    · rename_i hshort
      rcases Except.ok.inj h with rfl
      refine ⟨a, .nil a i, ?_⟩
      rw [← List.length_reverse]
      match hr : a.groups.reverse with
      | [] => simp
      | [g] => simp
      | g :: g' :: rest => exact absurd hr (hshort g g' rest)
  | cons t ts ih =>
    cases hstep : a.step i t with
    | error f =>
      rw [run_of_step_error hstep] at h
      cases h
    | ok next =>
      obtain ⟨b, fs⟩ := next
      rw [run_of_step hstep] at h
      obtain ⟨gs, hrun, rfl⟩ := Attempt.map_eq_ok.mp h
      obtain ⟨c, hsteps, hgroups⟩ := ih hrun
      exact ⟨c, .cons hstep hsteps, hgroups⟩

/-- The nodes that edges may still leave. -/
def held (a : Assembly) : List Nat :=
  a.last :: a.groups.flatMap fun g => g.position :: g.ends

/-- The nodes that edges will leave. -/
def pending (a : Assembly) : List Nat :=
  a.last :: a.groups.flatMap OpenGroup.ends

theorem mem_held {x : Nat} :
    x ∈ a.held ↔ x = a.last ∨ ∃ g ∈ a.groups, x = g.position ∨ x ∈ g.ends := by
  simp [held]

theorem mem_pending {x : Nat} : x ∈ a.pending ↔ x = a.last ∨ ∃ g ∈ a.groups, x ∈ g.ends := by
  simp [pending]

structure Moves (a : Assembly) (i : Nat) (xs : List Nat) (b : Assembly) : Prop where
  left : xs ⊆ a.held
  kept : ∀ x ∈ b.held, x ∈ a.held ∨ x = i ∧ xs ≠ []
  stayed : ∀ x ∈ a.pending, x ∈ xs ∨ x ∈ b.pending
  arrived : xs ≠ [] → b.last = i

theorem moves_follow : a.Moves i [a.last] { a with last := i } := by
  constructor
  · intro x hx
    rcases List.mem_singleton.mp hx with rfl
    exact List.mem_cons_self
  · intro x hx
    rcases mem_held.mp hx with rfl | hx
    · exact .inr ⟨rfl, List.cons_ne_nil _ _⟩
    · exact .inl (mem_held.mpr (.inr hx))
  · intro x hx
    rcases mem_pending.mp hx with rfl | hx
    · exact .inl (List.mem_singleton_self _)
    · exact .inr (mem_pending.mpr (.inr hx))
  · exact fun _ => rfl

theorem moves_enter (m : Mark) : a.Moves i [a.last] (a.enter m i).1 := by
  constructor
  · intro x hx
    rcases List.mem_singleton.mp hx with rfl
    exact List.mem_cons_self
  · intro x hx
    rcases mem_held.mp hx with rfl | ⟨g, hg, hx⟩
    · exact .inr ⟨rfl, List.cons_ne_nil _ _⟩
    · rcases List.mem_cons.mp hg with rfl | hg
      · rcases hx with rfl | hx
        · exact .inr ⟨rfl, List.cons_ne_nil _ _⟩
        · cases hx
      · exact .inl (mem_held.mpr (.inr ⟨g, hg, hx⟩))
  · intro x hx
    rcases mem_pending.mp hx with rfl | ⟨g, hg, hx⟩
    · exact .inl (List.mem_singleton_self _)
    · exact .inr (mem_pending.mpr (.inr ⟨g, List.mem_cons_of_mem _ hg, hx⟩))
  · exact fun _ => rfl

theorem leave_eq_ok {m : Mark} (h : a.leave m i = .ok (b, es)) :
    ∃ g rest, a.groups = g :: rest ∧ g.opener = m.opener ∧ b = { last := i, groups := rest } ∧
      es = (g.ends ++ (if m = .closeOptional then [g.position] else []) ++ [a.last]).map
        (·, i) := by
  rw [leave] at h
  split at h
  · cases h
  · rename_i g rest hg
    split at h
    · rename_i hopener
      obtain ⟨rfl, rfl⟩ := Prod.mk.inj (Except.ok.inj h)
      refine ⟨g, rest, hg, hopener, rfl, ?_⟩
      split <;> simp
    · cases h

theorem branch_eq_ok (h : a.branch i = .ok (b, es)) :
    ∃ g rest, a.groups = g :: rest ∧ es = [] ∧
      b = { last := g.position, groups := { g with ends := g.ends ++ [a.last] } :: rest } := by
  rw [branch] at h
  split at h
  · cases h
  · rename_i g rest hg
    obtain ⟨rfl, rfl⟩ := Prod.mk.inj (Except.ok.inj h)
    exact ⟨g, rest, hg, rfl, rfl⟩

theorem moves_leave {m : Mark} (h : a.leave m i = .ok (b, es)) :
    ∃ xs, es = xs.map (·, i) ∧ a.Moves i xs b := by
  obtain ⟨g, rest, hg, -, rfl, rfl⟩ := leave_eq_ok h
  refine ⟨_, rfl, ?_⟩
  have hmem : g ∈ a.groups := hg ▸ List.mem_cons_self
  have hrest : ∀ g' ∈ rest, g' ∈ a.groups := fun g' hg' => hg ▸ List.mem_cons_of_mem _ hg'
  constructor
  · intro x hx
    rw [List.mem_append, List.mem_append, List.mem_singleton] at hx
    rcases hx with (hx | hx) | rfl
    · exact mem_held.mpr (.inr ⟨g, hmem, .inr hx⟩)
    · split at hx
      · exact mem_held.mpr (.inr ⟨g, hmem, .inl (List.mem_singleton.mp hx)⟩)
      · cases hx
    · exact List.mem_cons_self
  · intro x hx
    rcases mem_held.mp hx with rfl | ⟨g', hg', hx⟩
    · exact .inr ⟨rfl, by simp⟩
    · exact .inl (mem_held.mpr (.inr ⟨g', hrest g' hg', hx⟩))
  · intro x hx
    rcases mem_pending.mp hx with rfl | ⟨g', hg', hx⟩
    · exact .inl (by simp)
    · rw [hg] at hg'
      rcases List.mem_cons.mp hg' with rfl | hg'
      · exact .inl (by simp [hx])
      · exact .inr (mem_pending.mpr (.inr ⟨g', hg', hx⟩))
  · exact fun _ => rfl

theorem moves_branch (h : a.branch i = .ok (b, es)) : es = [] ∧ a.Moves i [] b := by
  obtain ⟨g, rest, hg, rfl, rfl⟩ := branch_eq_ok h
  refine ⟨rfl, ?_⟩
  have hmem : g ∈ a.groups := hg ▸ List.mem_cons_self
  have hrest : ∀ g' ∈ rest, g' ∈ a.groups := fun g' hg' => hg ▸ List.mem_cons_of_mem _ hg'
  constructor
  · exact List.nil_subset _
  · intro x hx
    left
    rcases mem_held.mp hx with rfl | ⟨g', hg', hx⟩
    · exact mem_held.mpr (.inr ⟨g, hmem, .inl rfl⟩)
    · rcases List.mem_cons.mp hg' with rfl | hg'
      · rcases hx with rfl | hx
        · exact mem_held.mpr (.inr ⟨g, hmem, .inl rfl⟩)
        · rcases List.mem_append.mp hx with hx | hx
          · exact mem_held.mpr (.inr ⟨g, hmem, .inr hx⟩)
          · rcases List.mem_singleton.mp hx with rfl
            exact List.mem_cons_self
      · exact mem_held.mpr (.inr ⟨g', hrest g' hg', hx⟩)
  · intro x hx
    right
    rcases mem_pending.mp hx with rfl | ⟨g', hg', hx⟩
    · exact mem_pending.mpr (.inr ⟨_, List.mem_cons_self, by simp⟩)
    · rw [hg] at hg'
      rcases List.mem_cons.mp hg' with rfl | hg'
      · exact mem_pending.mpr (.inr ⟨_, List.mem_cons_self, by simp [hx]⟩)
      · exact mem_pending.mpr (.inr ⟨g', List.mem_cons_of_mem _ hg', hx⟩)
  · exact fun h => absurd rfl h

def terminated (a : Assembly) : List Nat :=
  a.last :: a.groups.reverse.flatMap OpenGroup.ends

theorem terminate_edges : (a.terminate i).2 = a.terminated.map (·, i) := by
  simp [terminate, terminated, List.map_flatMap]

theorem pending_subset_terminated : a.pending ⊆ a.terminated := by
  intro x hx
  rcases mem_pending.mp hx with rfl | ⟨g, hg, hx⟩
  · exact List.mem_cons_self
  · refine List.mem_cons_of_mem _ (List.mem_flatMap.mpr ⟨g, ?_, hx⟩)
    exact List.mem_reverse.mpr hg

theorem moves_terminate : a.Moves i a.terminated (a.terminate i).1 := by
  constructor
  · intro x hx
    rcases List.mem_cons.mp hx with rfl | hx
    · exact List.mem_cons_self
    · obtain ⟨g, hg, hx⟩ := List.mem_flatMap.mp hx
      exact mem_held.mpr (.inr ⟨g, List.mem_reverse.mp hg, .inr hx⟩)
  · intro x hx
    rcases mem_held.mp hx with rfl | hx
    · exact .inr ⟨rfl, List.cons_ne_nil _ _⟩
    · exact .inl (mem_held.mpr (.inr hx))
  · exact fun x hx => .inl (pending_subset_terminated hx)
  · exact fun _ => rfl

theorem exists_moves (ht : t ≠ .start) (h : a.step i t = .ok (b, es)) :
    ∃ xs, es = xs.map (·, i) ∧ a.Moves i xs b := by
  cases t with
  | start => exact absurd rfl ht
  | finish =>
    obtain ⟨rfl, rfl⟩ := Prod.mk.inj (Except.ok.inj h)
    exact ⟨[a.last], rfl, moves_follow⟩
  | reference name =>
    obtain ⟨rfl, rfl⟩ := Prod.mk.inj (Except.ok.inj h)
    exact ⟨[a.last], rfl, moves_follow⟩
  | text s weight =>
    obtain ⟨rfl, rfl⟩ := Prod.mk.inj (Except.ok.inj h)
    exact ⟨[a.last], rfl, moves_follow⟩
  | mark m =>
    cases m with
    | openGroup =>
      obtain ⟨rfl, rfl⟩ := Prod.mk.inj (Except.ok.inj h)
      exact ⟨[a.last], rfl, moves_enter _⟩
    | openOptional =>
      obtain ⟨rfl, rfl⟩ := Prod.mk.inj (Except.ok.inj h)
      exact ⟨[a.last], rfl, moves_enter _⟩
    | closeGroup => exact moves_leave h
    | closeOptional => exact moves_leave h
    | alternative =>
      obtain ⟨rfl, hmoves⟩ := moves_branch h
      exact ⟨[], rfl, hmoves⟩
    | terminator =>
      obtain ⟨rfl, rfl⟩ := Prod.mk.inj (Except.ok.inj h)
      exact ⟨a.terminated, terminate_edges, moves_terminate⟩

def Entered (es : List (Nat × Nat)) (x : Nat) : Prop :=
  x = 0 ∨ ∃ w, (w, x) ∈ es

theorem Entered.append {x : Nat} (h : Entered es x) : Entered (es ++ fs) x := by
  rcases h with rfl | ⟨w, hw⟩
  · exact .inl rfl
  · exact .inr ⟨w, List.mem_append_left _ hw⟩

/-- What holds of an assembly and of all edges before position `i`. -/
structure Sound (a : Assembly) (i : Nat) (es : List (Nat × Nat)) : Prop where
  rising : ∀ x y, (x, y) ∈ es → x < y ∧ y < i
  held : ∀ x ∈ a.held, x < i ∧ Entered es x
  entered : ∀ x y, (x, y) ∈ es → Entered es x
  left : ∀ x, Entered es x → (∃ y, (x, y) ∈ es) ∨ x ∈ a.pending

theorem sound_start : Sound { last := 0, groups := [⟨none, 0, []⟩] } 1 [] := by
  constructor
  · exact fun _ _ h => absurd h List.not_mem_nil
  · intro x hx
    obtain rfl : x = 0 := by simpa [held] using hx
    exact ⟨Nat.one_pos, .inl rfl⟩
  · exact fun _ _ h => absurd h List.not_mem_nil
  · intro x hx
    rcases hx with rfl | ⟨w, hw⟩
    · exact .inr List.mem_cons_self
    · cases hw

theorem Sound.step {xs : List Nat} (h : a.Sound i es) (hm : a.Moves i xs b) :
    b.Sound (i + 1) (es ++ xs.map (·, i)) := by
  have hnew : ∀ x y, (x, y) ∈ xs.map (·, i) ↔ x ∈ xs ∧ y = i := by
    simp [eq_comm]
  constructor
  · intro x y hxy
    rcases List.mem_append.mp hxy with hxy | hxy
    · obtain ⟨hlt, hi⟩ := h.rising x y hxy
      exact ⟨hlt, Nat.lt_succ_of_lt hi⟩
    · obtain ⟨hx, rfl⟩ := (hnew x y).mp hxy
      exact ⟨(h.held x (hm.left hx)).1, Nat.lt_succ_self _⟩
  · intro x hx
    rcases hm.kept x hx with hx | ⟨rfl, hne⟩
    · obtain ⟨hlt, hentered⟩ := h.held x hx
      exact ⟨Nat.lt_succ_of_lt hlt, hentered.append⟩
    · obtain ⟨w, hw⟩ := List.exists_mem_of_ne_nil xs hne
      exact ⟨Nat.lt_succ_self _, .inr ⟨w, List.mem_append_right _ ((hnew w x).mpr ⟨hw, rfl⟩)⟩⟩
  · intro x y hxy
    rcases List.mem_append.mp hxy with hxy | hxy
    · exact (h.entered x y hxy).append
    · obtain ⟨hx, -⟩ := (hnew x y).mp hxy
      exact (h.held x (hm.left hx)).2.append
  · have hold : ∀ x, Entered es x → (∃ y, (x, y) ∈ es ++ xs.map (·, i)) ∨ x ∈ b.pending := by
      intro x hx
      rcases h.left x hx with ⟨y, hy⟩ | hpending
      · exact .inl ⟨y, List.mem_append_left _ hy⟩
      · rcases hm.stayed x hpending with hx | hx
        · exact .inl ⟨i, List.mem_append_right _ ((hnew x i).mpr ⟨hx, rfl⟩)⟩
        · exact .inr hx
    intro x hx
    rcases hx with rfl | ⟨w, hw⟩
    · exact hold 0 (.inl rfl)
    · rcases List.mem_append.mp hw with hw | hw
      · exact hold x (.inr ⟨w, hw⟩)
      · obtain ⟨hxs, rfl⟩ := (hnew w x).mp hw
        rw [mem_pending]
        exact .inr (.inl (hm.arrived (List.ne_nil_of_mem hxs)).symm)

theorem Sound.steps (h : a.Sound i es) (hs : Steps a i ts b fs) (hts : ∀ t ∈ ts, t ≠ .start) :
    b.Sound (i + ts.length) (es ++ fs) := by
  induction hs generalizing es with
  | nil a i => rwa [List.append_nil]
  | @cons a b c i t ts fs gs hstep _ ih =>
    obtain ⟨xs, rfl, hmoves⟩ := exists_moves (hts t List.mem_cons_self) hstep
    have hrest := ih (h.step hmoves) fun t' ht' => hts t' (List.mem_cons_of_mem _ ht')
    rw [List.append_assoc] at hrest
    rwa [List.length_cons, Nat.add_comm ts.length, ← Nat.add_assoc]

def opened : Assembly where
  last := 0
  groups := [⟨none, 0, []⟩]

/-- The assembly `a` after the body of an expression, the edges `es` that it has added, and the
graph `g` of all tokens, in which the terminator and the end sentinel follow. -/
structure Closing (body : List Token) (a : Assembly) (es : List (Nat × Nat)) (g : Graph) :
    Prop where
  steps : Steps opened 1 body a es
  balanced : a.groups.length ≤ 1
  tokens : g.tokens = .start :: body ++ [.mark .terminator, .finish]
  joins : ∀ x y, g.Joins x y ↔ (x, y) ∈
    es ++ a.terminated.map (·, body.length + 1) ++ [(body.length + 1, body.length + 2)]

theorem exists_steps_of_ofTokens {g : Graph} (h : Graph.ofTokens (.start :: ts) = .ok g) :
    ∃ a es, Steps opened 1 ts a es ∧ a.groups.length ≤ 1 ∧ g.tokens = .start :: ts ∧
      ∀ x y, g.Joins x y ↔ (x, y) ∈ es := by
  rw [Graph.ofTokens] at h
  cases hrun : run {} 0 (.start :: ts) with
  | error f =>
    rw [hrun] at h
    cases h
  | ok all =>
    rw [hrun] at h
    rcases Except.ok.inj h with rfl
    obtain ⟨a, hsteps, hgroups⟩ := exists_steps_of_run hrun
    cases hsteps with
    | cons hstart hrest =>
      obtain ⟨rfl, rfl⟩ := Prod.mk.inj (Except.ok.inj hstart)
      refine ⟨a, _, hrest, hgroups, rfl, fun x y => ?_⟩
      rw [Graph.joins_ofEdges, List.map_map]
      simp [Edge.ends, Function.comp_def]

theorem exists_closing {body : List Token} {g : Graph}
    (h : Graph.ofTokens (.start :: body ++ [.mark .terminator, .finish]) = .ok g) :
    ∃ a es, Closing body a es g := by
  obtain ⟨d, all, hsteps, hgroups, htokens, hjoins⟩ := exists_steps_of_ofTokens h
  obtain ⟨a, es, fs, hbody, hclose, rfl⟩ := hsteps.of_append
  cases hclose with
  | cons hterminator hlast =>
    obtain ⟨rfl, rfl⟩ := Prod.mk.inj (Except.ok.inj hterminator)
    cases hlast with
    | cons hfinish hnone =>
      obtain ⟨rfl, rfl⟩ := Prod.mk.inj (Except.ok.inj hfinish)
      cases hnone
      refine ⟨a, es, hbody, hgroups, htokens, fun x y => ?_⟩
      have hedges : (a.last, 1 + body.length) ::
          a.groups.reverse.flatMap (fun g => g.ends.map (·, 1 + body.length)) =
            a.terminated.map (·, body.length + 1) := by
        rw [Nat.add_comm 1 body.length]
        exact terminate_edges
      rw [hjoins, hedges, Nat.add_comm 1 body.length]
      simp

end Assembly

end SpokenGrammar
