import SpokenGrammar.Proofs.Graph.Branches
import SpokenGrammar.Proofs.Graph.Language
import SpokenGrammar.Proofs.Phrase.Account
import SpokenGrammar.Proofs.Phrase.Paths

namespace SpokenGrammar

variable {ρ : String → Language Char}

def Token.sign (ρ : String → Language Char) : Token → Sign Char
  | .mark m => .mark m
  | t => .say (t.language ρ)

namespace Assembly

variable {next : Nat → Nat → Prop} {f : Nat → Language Char} {a b : Assembly} {i : Nat} {t : Token}
  {ts : List Token} {xs ys : List Nat} {es : List (Nat × Nat)}

section Reach

variable (next : Nat → Nat → Prop) (f : Nat → Language Char)

def reach (j : Nat) : Language Char :=
  substitute f (leads next j)

def reachAny (xs : List Nat) : Language Char :=
  substitute f (leadsToAny next xs)

def account (a : Assembly) : Account Char where
  said := reach next f a.last
  levels := a.groups.map fun g => ⟨g.opener, reach next f g.position, reachAny next f g.ends⟩

theorem reachAny_nil : reachAny next f [] = 0 := by
  rw [reachAny, leadsToAny_nil, substitute_zero]

theorem reachAny_singleton (j : Nat) : reachAny next f [j] = reach next f j := by
  rw [reachAny, leadsToAny_singleton, reach]

theorem reachAny_append (xs ys : List Nat) :
    reachAny next f (xs ++ ys) = reachAny next f xs + reachAny next f ys := by
  rw [reachAny, leadsToAny_append, substitute_add, reachAny, reachAny]

theorem reachAny_terminated (a : Assembly) :
    reachAny next f a.terminated = (a.account next f).terminate.said := by
  -- The terminator joins the outermost group first, an account counts from the innermost one.
  have hends : ∀ gs : List OpenGroup, reachAny next f (gs.reverse.flatMap OpenGroup.ends) =
      (gs.map fun g => reachAny next f g.ends).sum := by
    intro gs
    induction gs with
    | nil => exact reachAny_nil next f
    | cons g gs ih =>
      rw [List.reverse_cons, List.flatMap_append, reachAny_append, ih, List.flatMap_singleton,
        add_comm, List.map_cons, List.sum_cons]
  have hcons : a.terminated = [a.last] ++ a.groups.reverse.flatMap OpenGroup.ends := rfl
  rw [hcons, reachAny_append, reachAny_singleton, hends, Account.terminate, account, List.map_map]
  rfl

end Reach

theorem Window.reach (hw : Window next i 1 (xs.map (·, i))) (hi : 0 < i) :
    Assembly.reach next f i = reachAny next f xs * f i := by
  rw [Assembly.reach, hw.leads hi, substitute_mul, substitute_letter, reachAny]

theorem account_opened (h : ∀ x, ¬ next x 0) (hf : f 0 = 1) :
    opened.account next f = Account.opened := by
  have hreach : reach next f 0 = 1 := by
    rw [reach, leads_zero h, substitute_letter, hf]
  have haccount : opened.account next f =
      ⟨reach next f 0, [⟨none, reach next f 0, reachAny next f []⟩]⟩ := rfl
  rw [haccount, hreach, reachAny_nil, Account.opened]

section Step

variable (hw : Window next i 1 es) (hi : 0 < i)
include hw hi

theorem account_follow (h : a.follow i = (b, es)) :
    (a.account next f).say (f i) = b.account next f := by
  obtain ⟨rfl, rfl⟩ := Prod.mk.inj h
  have hreach : reach next f i = reachAny next f [a.last] * f i := Window.reach hw hi
  rw [reachAny_singleton] at hreach
  rw [Account.say, account, account, hreach]

theorem account_enter {m : Mark} (hf : f i = 1) (h : a.enter m i = (b, es)) :
    (a.account next f).enter m = b.account next f := by
  obtain ⟨rfl, rfl⟩ := Prod.mk.inj h
  have hreach : reach next f i = reachAny next f [a.last] * f i := Window.reach hw hi
  rw [reachAny_singleton, hf, mul_one] at hreach
  rw [Account.enter, account, account, hreach, List.map_cons, reachAny_nil, hreach]

theorem account_leave {m : Mark} (hf : f i = 1) (h : a.leave m i = .ok (b, es)) :
    (a.account next f).leave m = some (b.account next f) := by
  obtain ⟨g, rest, hg, hopener, rfl, rfl⟩ := leave_eq_ok h
  have hreach := Window.reach (f := f) hw hi
  rw [reachAny_append, reachAny_append, reachAny_singleton, hf, mul_one] at hreach
  rw [Account.leave, account, hg, List.map_cons]
  dsimp only
  rw [if_pos hopener, account, hreach]
  split
  · rw [reachAny_singleton]
  · rw [reachAny_nil]

theorem account_terminate (hf : f i = 1) (h : a.terminate i = (b, es)) :
    (a.account next f).terminate = b.account next f := by
  rw [show es = a.terminated.map (·, i) by rw [← terminate_edges, h]] at hw
  have hreach := Window.reach (f := f) hw hi
  rw [reachAny_terminated, hf, mul_one] at hreach
  obtain ⟨rfl, -⟩ := Prod.mk.inj h
  rw [account, account, hreach]
  rfl

end Step

theorem account_branch (h : a.branch i = .ok (b, es)) :
    (a.account next f).branch = some (b.account next f) := by
  obtain ⟨g, rest, hg, -, rfl⟩ := branch_eq_ok h
  rw [Account.branch, account, hg, account, List.map_cons, List.map_cons, reachAny_append,
    reachAny_singleton]

theorem account_step (ht : t ≠ .start) (h : a.step i t = .ok (b, es)) (hw : Window next i 1 es)
    (hi : 0 < i) (hf : f i = t.language ρ) :
    (a.account next f).step (t.sign ρ) = some (b.account next f) := by
  cases t with
  | start => exact absurd rfl ht
  | finish => exact congrArg some (hf ▸ account_follow hw hi (Except.ok.inj h))
  | reference name => exact congrArg some (hf ▸ account_follow hw hi (Except.ok.inj h))
  | text s weight => exact congrArg some (hf ▸ account_follow hw hi (Except.ok.inj h))
  | mark m =>
    cases m with
    | openGroup => exact congrArg some (account_enter hw hi hf (Except.ok.inj h))
    | openOptional => exact congrArg some (account_enter hw hi hf (Except.ok.inj h))
    | closeGroup => exact account_leave hw hi hf h
    | closeOptional => exact account_leave hw hi hf h
    | alternative => exact account_branch h
    | terminator => exact congrArg some (account_terminate hw hi hf (Except.ok.inj h))

theorem account_steps (hts : ∀ t ∈ ts, t ≠ .start) (h : Steps a i ts b es)
    (hw : Window next i ts.length es) (hi : 0 < i) (hf : Spells ρ f i ts) :
    (a.account next f).run (ts.map (Token.sign ρ)) = some (b.account next f) := by
  induction ts generalizing a i es with
  | nil =>
    cases h
    rfl
  | cons t ts ih =>
    have ht : ∀ t' ∈ [t], t' ≠ .start :=
      fun t' ht' => hts t' (List.mem_singleton.mp ht' ▸ List.mem_cons_self)
    have hrest : ∀ t ∈ ts, t ≠ .start := fun t ht => hts t (List.mem_cons_of_mem _ ht)
    obtain ⟨b', fs, gs, h₁, hw₁, h₂, hw₂⟩ :=
      Steps.split (show Steps a i ([t] ++ ts) b es from h) hw ht hrest
    rw [List.map_cons, Account.run_cons,
      account_step (ht t (List.mem_singleton_self t)) h₁.one hw₁ hi hf.head]
    exact ih hrest h₂ hw₂ (Nat.succ_pos i) hf.tail

def Aligned (a : Assembly) (o : Account Char) : Prop :=
  a.groups.map OpenGroup.opener = o.levels.map Level.opener

namespace Aligned

variable {o o' : Account Char}

theorem leave (h : a.Aligned o) {m : Mark} (ho : o.leave m = some o') (i : Nat) :
    ∃ b es, a.leave m i = .ok (b, es) ∧ b.Aligned o' := by
  obtain ⟨last, groups⟩ := a
  obtain ⟨said, levels⟩ := o
  cases levels with
  | nil => cases ho
  | cons l levels =>
    cases groups with
    | nil => cases h
    | cons g groups =>
      obtain ⟨hopener, hrest⟩ := List.cons.inj h
      rw [Account.leave] at ho
      split at ho
      · cases ho
      · rename_i hcons
        obtain ⟨rfl, rfl⟩ := List.cons.inj hcons
        split at ho
        · rename_i hm
          obtain rfl := Option.some.inj ho
          exact ⟨_, _, if_pos (hopener.trans hm), hrest⟩
        · cases ho

theorem branch (h : a.Aligned o) (ho : o.branch = some o') (i : Nat) :
    ∃ b es, a.branch i = .ok (b, es) ∧ b.Aligned o' := by
  obtain ⟨last, groups⟩ := a
  obtain ⟨said, levels⟩ := o
  cases levels with
  | nil => cases ho
  | cons l levels =>
    cases groups with
    | nil => cases h
    | cons g groups =>
      obtain rfl := Option.some.inj ho
      exact ⟨_, _, rfl, h⟩

theorem step (h : a.Aligned o) (ht : t ≠ .start) (ho : o.step (t.sign ρ) = some o') (i : Nat) :
    ∃ b es, a.step i t = .ok (b, es) ∧ b.Aligned o' := by
  cases t with
  | start => exact absurd rfl ht
  | finish =>
    obtain rfl := Option.some.inj ho
    exact ⟨_, _, rfl, h⟩
  | reference name =>
    obtain rfl := Option.some.inj ho
    exact ⟨_, _, rfl, h⟩
  | text s weight =>
    obtain rfl := Option.some.inj ho
    exact ⟨_, _, rfl, h⟩
  | mark m =>
    cases m with
    | openGroup =>
      obtain rfl := Option.some.inj ho
      exact ⟨_, _, rfl, congrArg (_ :: ·) h⟩
    | openOptional =>
      obtain rfl := Option.some.inj ho
      exact ⟨_, _, rfl, congrArg (_ :: ·) h⟩
    | closeGroup => exact h.leave ho i
    | closeOptional => exact h.leave ho i
    | alternative => exact h.branch ho i
    | terminator =>
      obtain rfl := Option.some.inj ho
      exact ⟨_, _, rfl, h⟩

theorem run (h : a.Aligned o) (hts : ∀ t ∈ ts, t ≠ .start)
    (ho : o.run (ts.map (Token.sign ρ)) = some o') (hlevels : o'.levels.length ≤ 1) (i : Nat) :
    ∃ es, a.run i ts = .ok es := by
  induction ts generalizing a o i with
  | nil =>
    obtain rfl := Option.some.inj ho
    have hlength := congrArg List.length h
    rw [List.length_map, List.length_map] at hlength
    rw [Assembly.run]
    split
    · rename_i g g' rest hreverse
      have hgroups := congrArg List.length hreverse
      rw [List.length_reverse, List.length_cons, List.length_cons] at hgroups
      omega
    · exact ⟨[], rfl⟩
  | cons t ts ih =>
    rw [List.map_cons, Account.run_cons] at ho
    obtain ⟨o₁, ho₁, ho⟩ := Option.bind_eq_some_iff.mp ho
    obtain ⟨b, es, hstep, hb⟩ := h.step (hts t List.mem_cons_self) ho₁ i
    obtain ⟨fs, hfs⟩ := ih hb (fun t ht => hts t (List.mem_cons_of_mem _ ht)) ho (i + 1)
    refine ⟨es ++ fs, ?_⟩
    rw [Assembly.run, hstep]
    exact Attempt.map_eq_ok.mpr ⟨fs, hfs, rfl⟩

end Aligned

end Assembly

namespace Graph

open Assembly

variable {g : Graph} {body ts : List Token}

theorem exists_ofTokens {o : Account Char} (hts : ∀ t ∈ ts, t ≠ .start)
    (ho : Account.opened.run (ts.map (Token.sign ρ)) = some o) (hlevels : o.levels.length ≤ 1) :
    ∃ g, ofTokens (.start :: ts) = .ok g := by
  have haligned : Assembly.opened.Aligned Account.opened := rfl
  obtain ⟨es, hes⟩ := haligned.run hts ho hlevels 1
  have hrun : Assembly.run {} 0 (.start :: ts) = .ok ([] ++ es) :=
    Attempt.map_eq_ok.mpr ⟨es, hes, rfl⟩
  exact ⟨_, Attempt.map_eq_ok.mpr ⟨_, hrun, rfl⟩⟩

theorem run_ofTokens (h : ofTokens (.start :: body ++ [.finish]) = .ok g)
    (hbody : ∀ t ∈ body, t ≠ .start) (hrejoins : Token.Rejoins 0 (body ++ [.finish]))
    (ρ : String → Language Char) :
    ∃ o, Account.opened.run ((body ++ [Token.finish]).map (Token.sign ρ)) = some o ∧
      o.levels.length ≤ 1 ∧ o.said = g.language ρ := by
  have hspan := spans_ofTokens h hbody hrejoins
  rw [List.cons_append] at h
  obtain ⟨b, es, hsteps, hgroups, htokens, hjoins⟩ := exists_steps_of_ofTokens h
  have hall : ∀ t ∈ body ++ [.finish], t ≠ .start :=
    List.forall_mem_append.mpr ⟨hbody, by simp⟩
  have hspells : Spells ρ (g.letter ρ) 0 (.start :: (body ++ [.finish])) := by
    intro k t ht
    rw [Nat.zero_add]
    exact letter_eq (htokens ▸ ht)
  have hopened : Assembly.opened.account g.Joins (g.letter ρ) = Account.opened :=
    account_opened hspan.not_entered hspells.head
  have hrun := account_steps hall hsteps (fun x k _ _ => hjoins x k) Nat.one_pos hspells.tail
  rw [hopened] at hrun
  refine ⟨_, hrun, ?_, ?_⟩
  · rwa [account, List.length_map]
  · have hpaths : g.paths = leads g.Joins (body.length + 1) := by
      ext q
      exact hspan.mem_paths
    rw [account, hsteps.last_of_finish, Nat.add_comm, language, hpaths]
    rfl

end Graph

end SpokenGrammar
