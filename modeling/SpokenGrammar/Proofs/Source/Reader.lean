import Mathlib.Data.List.TakeWhile
import SpokenGrammar.Source.Reader

namespace SpokenGrammar

structure Cursor.Passes (c : Cursor) (u : List Char) (d : Cursor) : Prop where
  rest : c.rest = u ++ d.rest
  index : d.index = c.index + u.length

namespace Cursor.Passes

variable {c d e : Cursor} {u v : List Char}

theorem refl (c : Cursor) : c.Passes [] c :=
  ⟨rfl, rfl⟩

theorem trans (h : c.Passes u d) (h' : d.Passes v e) : c.Passes (u ++ v) e := by
  constructor
  · rw [h.rest, h'.rest, List.append_assoc]
  · rw [h'.index, h.index, List.length_append, Nat.add_assoc]

theorem advance (h : c.rest = u ++ v) : c.Passes u (c.advance u.length) := by
  constructor
  · simp [Cursor.advance, h]
  · rfl

theorem eq_advance (h : c.Passes u d) : d = c.advance u.length := by
  obtain ⟨hrest, hindex⟩ := h
  cases d
  simp_all [Cursor.advance]

end Cursor.Passes

namespace Reader

variable {α β : Type} {c d e : Cursor} {a a' : α} {b : β}

def Reads (p : Reader α) (c : Cursor) (a : α) (d : Cursor) : Prop :=
  (p c).value = some (a, d)

def Refuses (p : Reader α) (c : Cursor) : Prop :=
  (p c).value = none

theorem reads_pure : Reads (pure a : Reader α) c a' d ↔ a = a' ∧ c = d := by
  simp [Reads, pure]

theorem value_bind (p : Reader α) (f : α → Reader β) (c : Cursor) :
    ((p >>= f) c).value = (p c).value.bind fun x => (f x.1 x.2).value := by
  simp only [bind]
  cases p c with
  | mk value misses => cases value <;> rfl

theorem value_orElse (p q : Reader α) (c : Cursor) :
    ((p <|> q) c).value = (p c).value.or (q c).value := by
  change (orElse p (fun _ => q) c).value = _
  rw [orElse]
  cases p c with
  | mk value misses => cases value <;> rfl

theorem reads_bind {p : Reader α} {f : α → Reader β} :
    Reads (p >>= f) c b d ↔ ∃ a e, Reads p c a e ∧ Reads (f a) e b d := by
  simp [Reads, value_bind, Option.bind_eq_some_iff]

theorem refuses_bind {p : Reader α} {f : α → Reader β} :
    Refuses (p >>= f) c ↔ ∀ a e, Reads p c a e → Refuses (f a) e := by
  simp [Refuses, Reads, value_bind, Option.bind_eq_none_iff]

theorem reads_orElse {p q : Reader α} :
    Reads (p <|> q) c a d ↔ Reads p c a d ∨ Refuses p c ∧ Reads q c a d := by
  simp only [Reads, Refuses, value_orElse, Option.or_eq_some_iff]

theorem reads_word {w : String} {u : Unit} : Reads (word w) c u d ↔ c.Passes w.toList d := by
  constructor
  · intro h
    rw [Reads, word] at h
    split at h
    · rename_i hw
      obtain ⟨r, hr⟩ := List.isPrefixOf_iff_prefix.mp hw
      have hd : c.advance w.toList.length = d := by
        rw [String.length_toList]
        exact congrArg Prod.snd (Option.some.inj h)
      exact hd ▸ Cursor.Passes.advance hr.symm
    · cases h
  · intro h
    have hw : w.toList.isPrefixOf c.rest = true :=
      List.isPrefixOf_iff_prefix.mpr ⟨d.rest, h.rest.symm⟩
    rw [Reads, word, if_pos hw, h.eq_advance, String.length_toList]

theorem reads_one {label : String} {p : Char → Bool} {x : Char} :
    Reads (one label p) c x d ↔ p x = true ∧ c.Passes [x] d := by
  constructor
  · intro h
    rw [Reads, one] at h
    split at h
    · rename_i y r hy
      split at h
      · rename_i hp
        obtain ⟨rfl, rfl⟩ := Prod.mk.inj (Option.some.inj h)
        exact ⟨hp, Cursor.Passes.advance (u := [y]) hy⟩
      · cases h
    · cases h
  · rintro ⟨hp, h⟩
    rw [Reads, one, h.rest]
    simp [hp, h.eq_advance]

theorem eq_false_of_refuses_one {label : String} {p : Char → Bool} {x : Char} {r : List Char}
    (h : Refuses (one label p) c) (hr : c.rest = x :: r) : p x = false := by
  cases hp : p x with
  | false => rfl
  | true =>
    have hreads : Reads (one label p) c x (c.advance [x].length) :=
      reads_one.mpr ⟨hp, Cursor.Passes.advance (u := [x]) hr⟩
    exact absurd (hreads.symm.trans h) (Option.some_ne_none _)

theorem reads_runTo {close : Char} {s : List Char} (h : Reads (runTo close) c s d) :
    c.Passes s d ∧ close ∉ s ∧ ∀ x r, d.rest = x :: r → x = close := by
  obtain ⟨rfl, rfl⟩ := Prod.mk.inj (Option.some.inj h)
  have hsplit := List.takeWhile_append_dropWhile (p := fun x => decide (x ≠ close)) (l := c.rest)
  have hpasses := Cursor.Passes.advance hsplit.symm
  refine ⟨hpasses, ?_, ?_⟩
  · intro hmem
    simpa using List.mem_takeWhile_imp hmem
  · intro x r hx
    have hdrop := List.append_cancel_left (hsplit.trans hpasses.rest)
    have hhead := List.head?_dropWhile_not (fun x => decide (x ≠ close)) c.rest
    rw [hdrop, hx] at hhead
    simpa using hhead

theorem exists_reads_runTo (close : Char) (c : Cursor) : ∃ s d, Reads (runTo close) c s d :=
  ⟨_, _, rfl⟩

theorem reads_enclosed {start close : Char} {u : Unit} (h : Reads (enclosed start close) c u d) :
    ∃ inside, close ∉ inside ∧ c.Passes (start :: inside ++ [close]) d := by
  obtain ⟨_, c₁, hstart, h⟩ := reads_bind.mp h
  obtain ⟨inside, c₂, hinside, hclose⟩ := reads_bind.mp h
  have hfirst := reads_word.mp hstart
  obtain ⟨hmiddle, hnot, -⟩ := reads_runTo hinside
  have hlast := reads_word.mp hclose
  rw [String.toList_singleton] at hfirst hlast
  exact ⟨inside, hnot, (hfirst.trans hmiddle).trans hlast⟩

theorem refuses_enclosed {start close : Char} {r : List Char} (h : Refuses (enclosed start close) c)
    (hr : c.rest = start :: r) : close ∉ r := by
  intro hmem
  have hfirst : c.Passes [start] (c.advance 1) := Cursor.Passes.advance (u := [start]) hr
  have hrest : (c.advance 1).rest = r := by
    have := hfirst.rest
    rw [hr] at this
    exact (List.cons.inj this).2.symm
  obtain ⟨s, d, hs⟩ := exists_reads_runTo close (c.advance 1)
  obtain ⟨hpasses, hnot, hhead⟩ := reads_runTo hs
  have hsplit : r = s ++ d.rest := hrest ▸ hpasses.rest
  have hlast : ¬ Refuses (word (String.singleton close)) d := by
    cases hd : d.rest with
    | nil =>
      rw [hd, List.append_nil] at hsplit
      exact absurd (hsplit ▸ hmem) hnot
    | cons x v =>
      have hx := hhead x v hd
      have hreads : Reads (word (String.singleton close)) d () (d.advance [close].length) := by
        rw [reads_word, String.toList_singleton]
        exact Cursor.Passes.advance (hx ▸ hd)
      intro hrefuses
      exact absurd (hreads.symm.trans hrefuses) (Option.some_ne_none _)
  have hstart : Reads (word (String.singleton start)) c () (c.advance 1) := by
    rw [reads_word, String.toList_singleton]
    exact hfirst
  exact hlast (refuses_bind.mp (refuses_bind.mp h () _ hstart) s d hs)

theorem reads_taken {p : Reader α} {s : String} (h : Reads (taken p) c s d) :
    ∃ a, Reads p c a d ∧ s = String.ofList (c.rest.take (d.index - c.index)) := by
  obtain ⟨⟨a, e⟩, ha, hs⟩ := Option.map_eq_some_iff.mp h
  obtain ⟨rfl, rfl⟩ := Prod.mk.inj hs
  exact ⟨a, ha, rfl⟩

theorem reads_manyUpTo_succ {p : Reader α} {fuel : Nat} {as : List α}
    (h : Reads (manyUpTo p (fuel + 1)) c as d) :
    (∃ a e as', Reads p c a e ∧ Reads (manyUpTo p fuel) e as' d ∧ as = a :: as') ∨
      as = [] ∧ d = c := by
  rcases reads_orElse.mp h with h | ⟨-, h⟩
  · obtain ⟨a, e, ha, h⟩ := reads_bind.mp h
    obtain ⟨as', e', has', h⟩ := reads_bind.mp h
    obtain ⟨rfl, rfl⟩ := reads_pure.mp h
    exact .inl ⟨a, e, as', ha, has', rfl⟩
  · obtain ⟨rfl, rfl⟩ := reads_pure.mp h
    exact .inr ⟨rfl, rfl⟩

theorem exists_reads_of_mem_manyUpTo {p : Reader α} {fuel : Nat} {as : List α}
    (h : Reads (manyUpTo p fuel) c as d) (ha : a ∈ as) : ∃ c' d', Reads p c' a d' := by
  induction fuel generalizing c as with
  | zero =>
    obtain ⟨rfl, -⟩ := reads_pure.mp h
    cases ha
  | succ fuel ih =>
    rcases reads_manyUpTo_succ h with ⟨a', e, as', ha', has', rfl⟩ | ⟨rfl, -⟩
    · rcases List.mem_cons.mp ha with rfl | ha
      · exact ⟨c, e, ha'⟩
      · exact ih has' ha
    · cases ha

theorem exists_reads_of_mem_separated {p : Reader α} {between : Reader Unit} {as : List α}
    (h : Reads (separated p between) c as d) (ha : a ∈ as) : ∃ c' d', Reads p c' a d' := by
  rcases reads_orElse.mp h with h | ⟨-, h⟩
  · obtain ⟨a', e, ha', h⟩ := reads_bind.mp h
    obtain ⟨as', e', has', h⟩ := reads_bind.mp h
    obtain ⟨rfl, rfl⟩ := reads_pure.mp h
    rcases List.mem_cons.mp ha with rfl | ha
    · exact ⟨c, e, ha'⟩
    · obtain ⟨c', d', h'⟩ := exists_reads_of_mem_manyUpTo has' ha
      obtain ⟨-, c'', -, h''⟩ := reads_bind.mp h'
      exact ⟨c'', d', h''⟩
  · obtain ⟨rfl, -⟩ := reads_pure.mp h
    cases ha

end Reader

end SpokenGrammar
