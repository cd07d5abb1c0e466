import Mathlib.Data.List.Basic
import SpokenGrammar.Token.Basic

namespace SpokenGrammar

namespace Token

variable {t : Token} {o o' : Mark} {ts us : List Token} {i j k : Nat}

def opens : Token → Option Mark
  | .mark .openGroup => some .openGroup
  | .mark .openOptional => some .openOptional
  | _ => none

def closes : Token → Option Mark
  | .mark m => m.opener
  | _ => none

theorem opens_of_closes (h : t.closes = some o) : t.opens = none := by
  cases t with
  | mark m => cases m <;> simp_all [closes, Mark.opener, opens]
  | _ => rfl

theorem closes_of_opens (h : t.opens = some o) : t.closes = none := by
  cases t with
  | mark m => cases m <;> simp_all [closes, Mark.opener, opens]
  | _ => rfl

inductive Balanced : List Token → Prop where
  | nil : Balanced []
  | plain {t : Token} {ts : List Token} :
      t.opens = none → t.closes = none → Balanced ts → Balanced (t :: ts)
  | group {a b : Token} {o : Mark} {inside rest : List Token} :
      a.opens = some o → b.closes = some o → Balanced inside → Balanced rest →
        Balanced (a :: inside ++ b :: rest)

theorem Balanced.append (h : Balanced ts) (h' : Balanced us) : Balanced (ts ++ us) := by
  induction h with
  | nil => exact h'
  | plain hopens hcloses _ ih => exact .plain hopens hcloses ih
  | group hopens hcloses hinside _ _ ih =>
    rw [List.append_assoc]
    exact .group hopens hcloses hinside ih

def rise (t : Token) : Int :=
  if t.opens.isSome then 1 else if t.closes.isSome then -1 else 0

theorem rise_of_opens (h : t.opens = some o) : t.rise = 1 := by
  simp [rise, h]

theorem rise_of_closes (h : t.closes = some o) : t.rise = -1 := by
  simp [rise, h, opens_of_closes h]

def height : List Token → Int
  | [] => 0
  | t :: ts => t.rise + height ts

@[simp] theorem height_nil : height [] = 0 := rfl

@[simp] theorem height_cons (t : Token) (ts : List Token) : height (t :: ts) = t.rise + height ts :=
  rfl

@[simp] theorem height_append (ts us : List Token) : height (ts ++ us) = height ts + height us := by
  induction ts with
  | nil => simp
  | cons t ts ih => simp [ih, Int.add_assoc]

theorem Balanced.height_eq (h : Balanced ts) : height ts = 0 := by
  induction h with
  | nil => rfl
  | plain hopens hcloses _ ih => simp [rise, hopens, hcloses, ih]
  | group hopens hcloses _ _ ihinside ihrest =>
    simp [rise_of_opens hopens, rise_of_closes hcloses, ihinside, ihrest]

theorem Balanced.height_take (h : Balanced ts) (n : Nat) : 0 ≤ height (ts.take n) := by
  induction h generalizing n with
  | nil => simp
  | plain hopens hcloses _ ih =>
    cases n with
    | zero => simp
    | succ n => simpa [rise, hopens, hcloses] using ih n
  | @group a b o inside rest hopens hcloses hinside _ ihinside ihrest =>
    cases n with
    | zero => simp
    | succ n =>
      cases hn : n - inside.length with
      | zero =>
        have hfirst : 0 ≤ 1 + height (inside.take n) := Int.add_nonneg Int.one_nonneg (ihinside n)
        simpa [List.take_append, hn, rise_of_opens hopens] using hfirst
      | succ m =>
        have hlast := ihrest m
        have hall : inside.take n = inside := List.take_of_length_le (by omega)
        simp only [List.cons_append, List.take_succ_cons, List.take_append, hn, hall, height_cons,
          height_append, rise_of_opens hopens, rise_of_closes hcloses, hinside.height_eq]
        omega

/-- Whether the bracket at `k` opens a group of `o` and is the innermost one open before `i`. -/
def Innermost (ts : List Token) (o : Mark) (k i : Nat) : Prop :=
  ∃ before a inside after, ts = before ++ a :: inside ++ after ∧ before.length = k ∧
    k + inside.length + 1 = i ∧ a.opens = some o ∧ Balanced inside

namespace Innermost

theorem lt (h : Innermost ts o k i) : k < i := by
  obtain ⟨before, a, inside, after, -, -, rfl, -⟩ := h
  omega

theorem height_take (h : Innermost ts o k i) (hj : k < j) (hji : j ≤ i) :
    height (ts.take k) + 1 ≤ height (ts.take j) := by
  obtain ⟨before, a, inside, after, rfl, rfl, rfl, hopens, hinside⟩ := h
  obtain ⟨m, rfl⟩ := Nat.exists_eq_add_of_lt hj
  have hm : m - inside.length = 0 := by omega
  have hinner := hinside.height_take m
  rw [List.append_assoc, List.take_left, Nat.add_assoc, List.take_length_add_append]
  simp only [List.cons_append, List.take_succ_cons, List.take_append, hm, List.take_zero,
    List.append_nil, height_append, height_cons, rise_of_opens hopens]
  omega

theorem height_eq (h : Innermost ts o k i) : height (ts.take i) = height (ts.take k) + 1 := by
  obtain ⟨before, a, inside, after, rfl, rfl, rfl, hopens, hinside⟩ := h
  rw [List.append_assoc, List.take_left, Nat.add_assoc, List.take_length_add_append]
  simp [rise_of_opens hopens, hinside.height_eq]

theorem unique (h : Innermost ts o k i) (h' : Innermost ts o' j i) : k = j ∧ o = o' := by
  have hkj : k = j := by
    have heq := h.height_eq
    have heq' := h'.height_eq
    -- Of two of them the outer one would be closed again by the height at the inner one.
    rcases Nat.lt_trichotomy k j with hlt | heq | hlt
    · have := h.height_take hlt (Nat.le_of_lt h'.lt)
      omega
    · exact heq
    · have := h'.height_take hlt (Nat.le_of_lt h.lt)
      omega
  subst hkj
  obtain ⟨before, a, inside, after, rfl, rfl, -, hopens, -⟩ := h
  obtain ⟨before', a', inside', after', heq, hlength, -, hopens', -⟩ := h'
  rw [List.append_assoc, List.append_assoc] at heq
  obtain ⟨-, htail⟩ := List.append_inj heq hlength.symm
  obtain ⟨rfl, -⟩ := List.cons.inj htail
  exact ⟨rfl, Option.some.inj (hopens.symm.trans hopens')⟩

end Innermost

/-- Whether a closing bracket stands at `i` whose innermost open bracket is missing or of the other
kind. -/
def Stray (ts : List Token) (i : Nat) : Prop :=
  ∃ t o, ts[i]? = some t ∧ t.closes = some o ∧ ∀ k, ¬ Innermost ts o k i

def Unclosed (ts : List Token) (k : Nat) : Prop :=
  ∃ t o, ts[k]? = some t ∧ t.opens = some o ∧
    ∀ i b, Innermost ts o k i → ts[i]? = some b → b.closes ≠ some o

/-- Whether the bracket at `i` is the first that closes nothing or, if there is none, the outermost
that is not closed. -/
def Culprit (ts : List Token) (i : Nat) : Prop :=
  (Stray ts i ∧ ∀ j < i, ¬ Stray ts j) ∨
    (∀ j, ¬ Stray ts j) ∧ Unclosed ts i ∧ ∀ j < i, ¬ Unclosed ts j

theorem not_stray_of_closes_eq_none (hi : ts[i]? = some t) (h : t.closes = none) :
    ¬ Stray ts i := by
  rintro ⟨t', o, ht', hcloses, -⟩
  simp_all

theorem not_unclosed_of_opens_eq_none (hi : ts[i]? = some t) (h : t.opens = none) :
    ¬ Unclosed ts i := by
  rintro ⟨t', o, ht', hopens, -⟩
  simp_all

theorem Innermost.not_stray (h : Innermost ts o k i) (hi : ts[i]? = some t)
    (hcloses : t.closes = some o) : ¬ Stray ts i := by
  rintro ⟨t', o', ht', hcloses', hnone⟩
  obtain rfl := Option.some.inj (hi.symm.trans ht')
  obtain rfl := Option.some.inj (hcloses.symm.trans hcloses')
  exact hnone k h

theorem Innermost.not_unclosed (h : Innermost ts o k i) (hi : ts[i]? = some t)
    (hcloses : t.closes = some o) : ¬ Unclosed ts k := by
  rintro ⟨a', o', ha', hopens', hall⟩
  obtain ⟨before, a, inside, after, rfl, rfl, hlength, hopens, hinside⟩ := id h
  obtain rfl : a = a' := by simpa using ha'
  obtain rfl := Option.some.inj (hopens.symm.trans hopens')
  exact hall i t h hi hcloses

theorem unclosed_of_height_lt (hk : ts[k]? = some t) (h : t.opens = some o)
    (hlt : ∀ j, k < j → height (ts.take k) < height (ts.take j)) : Unclosed ts k := by
  refine ⟨t, o, hk, h, fun i b hinnermost hi hcloses => ?_⟩
  have hopened := hinnermost.height_eq
  have hclosed := hlt (i + 1) (Nat.lt_succ_of_lt hinnermost.lt)
  rw [List.take_add_one, hi] at hclosed
  simp only [Option.toList_some, height_append, height_cons, height_nil,
    rise_of_closes hcloses] at hclosed
  omega

theorem Balanced.paired (h : Balanced ts) (before after : List Token) (hi : i < ts.length) :
    ¬ Stray (before ++ ts ++ after) (before.length + i) ∧
      ¬ Unclosed (before ++ ts ++ after) (before.length + i) := by
  induction h generalizing before after i with
  | nil => simp at hi
  | @plain t ts hopens hcloses _ ih =>
    cases i with
    | zero =>
      have ht : (before ++ t :: ts ++ after)[before.length]? = some t := by simp
      exact ⟨not_stray_of_closes_eq_none ht hcloses, not_unclosed_of_opens_eq_none ht hopens⟩
    | succ i =>
      have hrest := ih (before ++ [t]) after (i := i) (by simpa using hi)
      simpa [Nat.add_assoc, Nat.add_comm 1] using hrest
  | @group a b o inside rest hopens hcloses hinside _ ihinside ihrest =>
    have hall : before ++ (a :: inside ++ b :: rest) ++ after =
        before ++ a :: inside ++ b :: (rest ++ after) := by simp
    rw [hall]
    have ha : (before ++ a :: inside ++ b :: (rest ++ after))[before.length]? = some a := by simp
    have hb : (before ++ a :: inside ++ b :: (rest ++ after))[(before ++ a :: inside).length]? =
        some b := by
      rw [List.getElem?_append_right (Nat.le_refl _)]
      simp
    have hinnermost : Innermost (before ++ a :: inside ++ b :: (rest ++ after)) o before.length
        (before ++ a :: inside).length :=
      ⟨before, a, inside, b :: (rest ++ after), rfl, rfl, by simp [Nat.add_assoc], hopens, hinside⟩
    rcases Nat.lt_trichotomy i (inside.length + 1) with hlt | rfl | hgt
    · cases i with
      | zero =>
        exact ⟨not_stray_of_closes_eq_none ha (closes_of_opens hopens),
          hinnermost.not_unclosed hb hcloses⟩
      | succ i =>
        have hinner := ihinside (before ++ [a]) (b :: (rest ++ after)) (i := i) (by omega)
        simpa [Nat.add_assoc, Nat.add_comm 1] using hinner
    · rw [List.length_append, List.length_cons] at hb hinnermost
      exact ⟨hinnermost.not_stray hb hcloses,
        not_unclosed_of_opens_eq_none hb (opens_of_closes hcloses)⟩
    · obtain ⟨m, rfl⟩ := Nat.exists_eq_add_of_lt hgt
      have hm : m < rest.length := by
        simp at hi
        omega
      have hplace : before.length + (inside.length + 1 + m + 1) =
          (before ++ a :: inside ++ [b]).length + m := by
        simp
        omega
      rw [hplace]
      simpa using ihrest (before ++ a :: inside ++ [b]) after hm

end Token

end SpokenGrammar
