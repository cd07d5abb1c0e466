import SpokenGrammar.Chance.Choice

namespace SpokenGrammar

variable {α β : Type}

def Draw.Yields (x : Draw α) (P : α → Prop) (F : Fault → Prop) : Prop :=
  ∀ s : Supply,
    match (x.run s).1 with
    | .ok a => P a
    | .error f => F f

namespace Draw

variable {x : Draw α} {P : α → Prop} {Q : β → Prop} {F : Fault → Prop}

theorem yields_pure {a : α} (h : P a) : Draw.Yields (pure a) P F :=
  fun _ => h

theorem yields_throw {f : Fault} (h : F f) : Draw.Yields (throw f : Draw α) P F :=
  fun _ => h

theorem run_bind (x : Draw α) (k : α → Draw β) (s : Supply) :
    (x >>= k).run s =
      match x.run s with
      | (.ok a, s') => (k a).run s'
      | (.error f, s') => (.error f, s') := by
  change (ExceptT.bindCont k (x.run s).1).run (x.run s).2 = _
  cases x.run s with
  | mk r s' => cases r <;> rfl

theorem Yields.bind {k : α → Draw β} (hx : Draw.Yields x P F) (hk : ∀ a, P a → (k a).Yields Q F) :
    Draw.Yields (x >>= k) Q F := by
  intro s
  have hs := hx s
  rw [run_bind]
  cases h : x.run s with
  | mk r s' =>
    rw [h] at hs
    cases r with
    | ok a => exact hk a hs s'
    | error f => exact hs

theorem Yields.imp {G : Fault → Prop} {P' : α → Prop} (hx : Draw.Yields x P F)
    (hP : ∀ a, P a → P' a) (hF : ∀ f, F f → G f) : Draw.Yields x P' G := by
  intro s
  have hs := hx s
  cases h : (x.run s).1 with
  | ok a =>
    rw [h] at hs
    exact hP a hs
  | error f =>
    rw [h] at hs
    exact hF f hs

theorem Yields.of_ok (hx : Draw.Yields x P F) {s : Supply} {a : α} (h : (x.run s).1 = .ok a) :
    P a := by
  have hs := hx s
  rwa [h] at hs

theorem Yields.of_error (hx : Draw.Yields x P F) {s : Supply} {f : Fault}
    (h : (x.run s).1 = .error f) : F f := by
  have hs := hx s
  rwa [h] at hs

theorem yields_drawUpTo (max : Nat) : (drawUpTo max).Yields (· ≤ max) F := by
  intro s
  rw [run_drawUpTo]
  exact Nat.lt_succ_iff.mp (Nat.mod_lt _ (Nat.succ_pos max))

end Draw

end SpokenGrammar
