import Mathlib.Algebra.Group.Nat.Defs
import Mathlib.Order.Lattice
import SpokenGrammar.Chance.Choice

/-!
# The total of the shares

Sums are rounded and may overflow, but a sum of numbers that are not negative is still positive as
soon as one of them is. So the total of the shares fails to be positive only if no weight is usable.
-/

namespace SpokenGrammar

open Float.Model Float.Model.UnpackedFloat

inductive Positive : UnpackedFloat → Prop where
  | finite (m : Nat) (e : Int) (h : 0 < m) : Positive (.finite .positive m e h)
  | infinity : Positive (.infinity .positive)

def InFormat : UnpackedFloat → Prop
  | .finite _ m e _ => m < 2 ^ 53 ∧ -1074 ≤ e
  | _ => True

variable {u v : UnpackedFloat} {m : Nat} {e : Int} {x y w : Float} {weights : List Float}

theorem inFormat_unpack (x : Float.Model) : InFormat x.unpack := by
  unfold Float.Model.unpack UnpackedFloat.unpack
  dsimp only
  generalize @unpackExponent Format.binary64 x.toBits.toBitVec = v
  by_cases hones : v = -1#_
  · rw [if_pos hones]
    split <;> trivial
  · rw [if_neg hones]
    by_cases hexp : v = 0#_
    · rw [if_pos hexp]
      by_cases hman : @unpackMantissa Format.binary64 x.toBits.toBitVec = 0#_
      · rw [dif_pos hman]
        trivial
      · rw [dif_neg hman]
        exact ⟨(BitVec.isLt _).trans (by decide), by rw [hexp]; decide⟩
    · rw [if_neg hexp]
      refine ⟨BitVec.isLt _, ?_⟩
      have hv : v.toNat ≠ 0 := fun h => hexp (BitVec.eq_of_toNat_eq h)
      change -1074 ≤ (v.toNat : Int) - (1023 + 52)
      omega

section Rounding

theorem shift_mantissa (em : ExtendedMantissa) (k : Nat) :
    (em >>> k).mantissa = em.mantissa / 2 ^ k := by
  induction k with
  | zero => exact (Nat.div_one _).symm
  | succ k ih =>
    change (em >>> k).mantissa / 2 = _
    rw [ih, Nat.div_div_eq_div_mul, Nat.pow_succ]

theorem targetExponent_eq (m : Nat) (e : Int) :
    Format.binary64.targetExponent (totalExponent m e) = max (m.log2 + e - 52) (-1074) := by
  have hexponent : Format.binary64.targetExponent (totalExponent m e) =
      max (((m.log2 + 1 : Nat) : Int) + e - (53 : Nat)) (-1074) := rfl
  rw [hexponent]
  congr 1
  omega

theorem le_roundedMantissa (em : ExtendedMantissa) : em.mantissa ≤ em.roundedMantissa := by
  obtain ⟨m, r, s⟩ := em
  cases r <;> cases s <;>
    simp [ExtendedMantissa.roundedMantissa, ExtendedMantissa.accuracy, Accuracy.roundToNearestEven]

theorem shiftToTargetExponent_bounds (hm : 0 < m) (he : -1074 ≤ e) :
    let s := shiftToTargetExponent Format.binary64 m e .exact
    0 < s.1.mantissa ∧ s.1.mantissa < 2 ^ 53 ∧ -1074 ≤ s.2 := by
  intro s
  obtain ⟨k, hk⟩ : ∃ k, k = (max (m.log2 + e - 52) (-1074) - e).toNat := ⟨_, rfl⟩
  have hs : s = (ExtendedMantissa.mk m false false >>> k, e + k) := by
    rw [hk, ← targetExponent_eq]
    rfl
  have hlow : 2 ^ k ≤ m := (Nat.le_log2 hm.ne').mp (by omega)
  have hhigh : m < 2 ^ (53 + k) := (Nat.log2_lt hm.ne').mp (by omega)
  rw [hs, shift_mantissa]
  refine ⟨Nat.div_pos hlow (Nat.two_pow_pos k), ?_, by dsimp only; omega⟩
  rwa [Nat.div_lt_iff_lt_mul (Nat.two_pow_pos k), ← Nat.pow_add]

/-- No number is so small that it is rounded to zero, since the exponent only has to grow. -/
theorem round_positive (hm : 0 < m) (he : -1074 ≤ e) :
    Positive (UnpackedFloat.round Format.binary64 .positive m e) ∧
      InFormat (UnpackedFloat.round Format.binary64 .positive m e) := by
  obtain ⟨j, hj⟩ : ∃ j, j = (e - max (m.log2 + e - 52) (-1074)).toNat := ⟨_, rfl⟩
  have hround : UnpackedFloat.round Format.binary64 .positive m e =
      roundWithAccuracy Format.binary64 .positive (m <<< j) (e - j) .exact := by
    rw [hj, ← targetExponent_eq]
    rfl
  have hshifted : 0 < m <<< j := by
    rw [Nat.shiftLeft_eq]
    exact Nat.mul_pos hm (Nat.two_pow_pos j)
  -- The mantissa is shifted once before it is rounded, and once more for the carry.
  obtain ⟨hfirst, -, hexp⟩ := shiftToTargetExponent_bounds hshifted (show -1074 ≤ e - j by omega)
  obtain ⟨hlast, hfits⟩ :=
    shiftToTargetExponent_bounds (hfirst.trans_le (le_roundedMantissa _)) hexp
  have hfinite : UnpackedFloat.round Format.binary64 .positive m e = .finite .positive _ _ hlast :=
    hround.trans (dif_neg hlast.ne')
  rw [hfinite]
  exact ⟨.finite _ _ hlast, hfits⟩

end Rounding

section Packing

theorem sign_packComponents (e : BitVec 11) (m : BitVec 52) :
    Sign.ofBitVec (unpackSign (packComponents Format.binary64 .positive e m)) = .positive := by
  have hsign : unpackSign (packComponents Format.binary64 .positive e m) = 0#1 := by
    change (0#1 ++ e ++ m).extractLsb' 63 1 = 0#1
    ext i hi
    rw [BitVec.getElem_extractLsb', BitVec.getLsbD_append, if_neg (by omega),
      BitVec.getLsbD_append, if_neg (by omega)]
    simp
  rw [hsign]
  rfl

theorem positive_unpack {b : BitVec Format.binary64.numBits}
    (hsign : Sign.ofBitVec (unpackSign b) = .positive) (hexp : unpackExponent b ≠ -1#_)
    (hman : unpackExponent b ≠ 0#_ ∨ unpackMantissa b ≠ 0#_) :
    Positive (unpack Format.binary64 b) := by
  unfold UnpackedFloat.unpack
  dsimp only
  rw [if_neg hexp, hsign]
  by_cases hzero : unpackExponent b = 0#_
  · rw [if_pos hzero, dif_neg (hman.resolve_left (absurd hzero))]
    exact .finite ..
  · rw [if_neg hzero]
    exact .finite ..

theorem positive_packComponents {e : BitVec 11} {m : BitVec 52} (he : e ≠ -1#11)
    (hem : e ≠ 0#11 ∨ m ≠ 0#52) :
    Positive (unpack Format.binary64 (packComponents Format.binary64 .positive e m)) := by
  refine positive_unpack (sign_packComponents e m) ?_ ?_
  · rwa [unpackExponent_packComponents]
  · rwa [unpackExponent_packComponents, unpackMantissa_packComponents]

theorem positive_pack_finite (hm : 0 < m) (hlt : m < 2 ^ 53) (he : -1074 ≤ e) :
    Positive (Float.Model.pack (.finite .positive m e hm)).unpack := by
  obtain ⟨b, hb⟩ : ∃ b, b = (e + 1023 + 52).toNat := ⟨_, rfl⟩
  have hpack : UnpackedFloat.pack Format.binary64 (.finite .positive m e hm) =
      if 2048 ≤ b + 1 then packedInfinity Format.binary64 .positive
      else if m.log2 + 1 = 53 then
        packComponents Format.binary64 .positive (.ofNat 11 b) (.ofNat 52 m)
      else packComponents Format.binary64 .positive 0 (.ofNat 52 m) := by
    rw [hb]
    rfl
  change Positive (UnpackedFloat.unpack _ (UnpackedFloat.pack Format.binary64 _))
  rw [hpack]
  split
  · exact .infinity
  · split
    · have hexp : (BitVec.ofNat 11 b).toNat = b := Nat.mod_eq_of_lt (by omega)
      refine positive_packComponents (fun h => ?_) (.inl fun h => ?_)
      · rw [h, show (-1#11).toNat = 2047 from rfl] at hexp
        omega
      · rw [h, show (0#11).toNat = 0 from rfl] at hexp
        omega
    · have hlog : m.log2 < 53 := (Nat.log2_lt hm.ne').mpr hlt
      have hsmall : m < 2 ^ 52 := (Nat.log2_lt hm.ne').mp (by omega)
      have hman : (BitVec.ofNat 52 m).toNat = m := Nat.mod_eq_of_lt hsmall
      refine positive_packComponents (by decide) (.inr fun h => ?_)
      rw [h] at hman
      exact hm.ne hman

theorem positive_pack (hu : Positive u) (hfits : InFormat u) :
    Positive (Float.Model.pack u).unpack := by
  cases hu with
  | finite m e h => exact positive_pack_finite h hfits.1 hfits.2
  | infinity => exact .infinity

end Packing

theorem positive_add (hu : Positive u) (hv : Positive v) (hfits : InFormat u)
    (hfits' : InFormat v) :
    Positive (UnpackedFloat.add Format.binary64 u v) ∧
      InFormat (UnpackedFloat.add Format.binary64 u v) := by
  cases hu with
  | infinity =>
    cases hv with
    | infinity => exact ⟨.infinity, trivial⟩
    | finite m' e' h' => exact ⟨.infinity, trivial⟩
  | finite m e h =>
    cases hv with
    | infinity => exact ⟨.infinity, trivial⟩
    | finite m' e' h' =>
      obtain ⟨k, hk⟩ : ∃ k, k = (e - min e e').toNat := ⟨_, rfl⟩
      obtain ⟨k', hk'⟩ : ∃ k', k' = (e' - min e e').toNat := ⟨_, rfl⟩
      have hsum : 0 < m <<< k + m' <<< k' := by
        rw [Nat.shiftLeft_eq]
        exact Nat.add_pos_left (Nat.mul_pos h (Nat.two_pow_pos k)) _
      have hadd : UnpackedFloat.add Format.binary64 (.finite .positive m e h)
          (.finite .positive m' e' h') =
          UnpackedFloat.normalize Format.binary64 ((m <<< k + m' <<< k' : Nat) : Int) (min e e')
            .positive := by
        rw [hk, hk']
        rfl
      have hnormal : UnpackedFloat.add Format.binary64 (.finite .positive m e h)
          (.finite .positive m' e' h') =
          UnpackedFloat.round Format.binary64 .positive (m <<< k + m' <<< k') (min e e') := by
        rw [hadd, UnpackedFloat.normalize, Int.compare_eq_gt.mpr (by exact_mod_cast hsum)]
        rfl
      rw [hnormal]
      exact round_positive hsum (le_min hfits.2 hfits'.2)

inductive NotNegative : UnpackedFloat → Prop where
  | zero (s : UnpackedFloat.Sign) : NotNegative (.zero s)
  | positive {u : UnpackedFloat} : Positive u → NotNegative u

theorem not_positive_zero (s : UnpackedFloat.Sign) : ¬ Positive (.zero s) := nofun

theorem notNegative_pack_add (hu : NotNegative u) (hv : NotNegative v) (hfits : InFormat u)
    (hfits' : InFormat v) :
    NotNegative (Float.Model.pack (UnpackedFloat.add Format.binary64 u v)).unpack ∧
      (Positive (Float.Model.pack (UnpackedFloat.add Format.binary64 u v)).unpack ↔
        Positive u ∨ Positive v) := by
  have hpositive : ∀ {r}, Positive r → InFormat r → Positive u ∨ Positive v →
      NotNegative (Float.Model.pack r).unpack ∧
        (Positive (Float.Model.pack r).unpack ↔ Positive u ∨ Positive v) :=
    fun hr hroom huv =>
      ⟨.positive (positive_pack hr hroom), iff_of_true (positive_pack hr hroom) huv⟩
  cases hu with
  | zero s =>
    cases hv with
    | zero s' =>
      have hnone : ¬ (Positive (.zero s) ∨ Positive (.zero s')) :=
        fun h => h.elim (not_positive_zero s) (not_positive_zero s')
      cases s <;> cases s' <;> exact ⟨.zero _, iff_of_false (not_positive_zero _) hnone⟩
    | positive hv =>
      have hadd : UnpackedFloat.add Format.binary64 (.zero s) v = v := by
        cases hv <;> rfl
      rw [hadd]
      exact hpositive hv hfits' (.inr hv)
  | positive hu =>
    cases hv with
    | zero s =>
      have hadd : UnpackedFloat.add Format.binary64 u (.zero s) = u := by
        cases hu <;> rfl
      rw [hadd]
      exact hpositive hu hfits (.inl hu)
    | positive hv =>
      obtain ⟨hadd, hroom⟩ := positive_add hu hv hfits hfits'
      exact hpositive hadd hroom (.inl hu)

theorem lt_zero_iff : UnpackedFloat.lt (.zero .positive) u = true ↔ Positive u := by
  cases u with
  | notANumber => exact iff_of_false (by decide) nofun
  | infinity s =>
    cases s with
    | negative => exact iff_of_false (by decide) nofun
    | positive => exact iff_of_true (by decide) .infinity
  | zero s => exact iff_of_false (by cases s <;> decide) nofun
  | finite s m e h =>
    cases s with
    | negative => exact iff_of_false nofun nofun
    | positive => exact iff_of_true rfl (.finite m e h)

theorem NotNegative.le_zero_iff (hu : NotNegative u) :
    UnpackedFloat.le u (.zero .positive) = true ↔ ¬ Positive u := by
  cases hu with
  | zero s => exact iff_of_true (by cases s <;> rfl) (not_positive_zero s)
  | positive hu => exact iff_of_false (by cases hu <;> exact Bool.false_ne_true) (not_not_intro hu)

theorem Positive.beq_zero (hu : Positive u) : UnpackedFloat.beq u (.zero .positive) = false := by
  cases hu <;> rfl

section Shares

theorem pos_iff : 0 < x ↔ Positive x.toModel.unpack :=
  (decide_eq_true_iff (p := (0 : Float).toModel < x.toModel)).trans lt_zero_iff

theorem positive_share_iff : Positive (share w).toModel.unpack ↔ isUsable w = true := by
  unfold share
  split
  · rename_i hw
    exact iff_of_true (pos_iff.mp (isUsable_iff.mp hw).2) hw
  · rename_i hw
    exact iff_of_false (not_positive_zero .positive) hw

theorem notNegative_share (w : Float) : NotNegative (share w).toModel.unpack := by
  by_cases hw : isUsable w = true
  · exact .positive (positive_share_iff.mpr hw)
  · rw [share, if_neg hw]
    exact .zero .positive

theorem share_beq_zero (w : Float) : (share w == 0) = !isUsable w := by
  cases hw : isUsable w with
  | true => exact (positive_share_iff.mpr hw).beq_zero
  | false =>
    rw [share, if_neg (by simp [hw])]
    rfl

theorem notNegative_total (weights : List Float) (hx : NotNegative x.toModel.unpack) :
    NotNegative (weights.foldl (fun total w => total + share w) x).toModel.unpack ∧
      (Positive (weights.foldl (fun total w => total + share w) x).toModel.unpack ↔
        Positive x.toModel.unpack ∨ ∃ w ∈ weights, isUsable w = true) := by
  induction weights generalizing x with
  | nil => simpa using hx
  | cons w weights ih =>
    obtain ⟨hsum, hpositive⟩ := notNegative_pack_add hx (notNegative_share w)
      (inFormat_unpack x.toModel) (inFormat_unpack (share w).toModel)
    obtain ⟨htotal, hiff⟩ := ih (x := x + share w) hsum
    refine ⟨htotal, hiff.trans ?_⟩
    simp only [List.mem_cons, exists_eq_or_imp, ← or_assoc, ← positive_share_iff (w := w)]
    exact or_congr_left hpositive

theorem totalWeight_le_zero_iff :
    totalWeight weights ≤ 0 ↔ ∀ w ∈ weights, isUsable w = false := by
  obtain ⟨htotal, hpositive⟩ := notNegative_total weights (x := 0) (.zero .positive)
  have hle : totalWeight weights ≤ 0 ↔ ¬ Positive (totalWeight weights).toModel.unpack :=
    (decide_eq_true_iff (p := (totalWeight weights).toModel ≤ (0 : Float).toModel)).trans
      htotal.le_zero_iff
  rw [hle, totalWeight, hpositive]
  simp [show ¬ Positive (0 : Float).toModel.unpack from not_positive_zero .positive]

end Shares

end SpokenGrammar
