import InlinePlan.Decimal.Integer
import Mathlib.Tactic.Common

set_option autoImplicit false

/-! # Integers are read back

An integer is written with a sign if it is negative and then in digits. Reading keeps to the range of its
width (`within_of_readInt`) and gives back every integer of the range from what is written
(`readInt_toString`). -/

namespace InlinePlan.Decimal

/-! ## Digits -/

theorem isDigit_iff {c : Char} : c.isDigit = true ↔ 48 ≤ c.toNat ∧ c.toNat ≤ 57 := by
  simp only [Char.isDigit, ge_iff_le, Bool.and_eq_true, decide_eq_true_eq, UInt32.le_iff_toNat_le]
  rfl

theorem digitValue?_of_isDigit {c : Char} (h : c.isDigit = true) :
    digitValue? c = some (c.toNat - '0'.toNat) := by
  obtain ⟨hlow, hhigh⟩ := isDigit_iff.1 h
  have hlower : lowerAscii c = c := by
    rw [lowerAscii, if_neg (by omega)]
  simp only [digitValue?, hlower, hlow, hhigh, and_self, if_true]
  rfl

theorem le_ofDigitChars (cs : List Char) (acc : Nat) : acc ≤ Nat.ofDigitChars 10 cs acc := by
  induction cs generalizing acc with
  | nil => exact Nat.le_refl acc
  | cons c cs ih =>
    rw [Nat.ofDigitChars_cons]
    exact Nat.le_trans (by omega) (ih _)

/-- Digits are read as the number that they write. -/
theorem readMagnitude_digits {limit acc : Nat} {ds : List Char} (hdigits : ∀ c ∈ ds, c.isDigit = true)
    (hlimit : Nat.ofDigitChars 10 ds acc < limit) :
    readMagnitude 10 limit false ds acc = .ok (Nat.ofDigitChars 10 ds acc) := by
  induction ds generalizing acc with
  | nil => rfl
  | cons c ds ih =>
    obtain ⟨hc, hds⟩ := List.forall_mem_cons.1 hdigits
    obtain ⟨hlow, hhigh⟩ := isDigit_iff.1 hc
    rw [Nat.ofDigitChars_cons, Nat.mul_comm 10 acc] at hlimit ⊢
    -- More digits make the number no smaller, so it is below the limit after this one, too.
    have hle := le_ofDigitChars ds (acc * 10 + (c.toNat - '0'.toNat))
    have hsmall : ¬ 10 ≤ c.toNat - '0'.toNat := by
      change ¬ 10 ≤ c.toNat - 48
      omega
    rw [readMagnitude, digitValue?_of_isDigit hc]
    simp only [Bool.false_and, Bool.false_eq_true, if_false, if_neg hsmall]
    rw [if_neg (by omega), ih hds hlimit]

/-! ## Signs -/

theorem toList_toString (n : Int) :
    (toString n).toList
      = if 0 ≤ n then Nat.toDigits 10 n.toNat else '-' :: Nat.toDigits 10 (-n).toNat := by
  rw [Int.toString_eq_repr, Int.repr_eq_if]
  split
  · exact Nat.toList_repr
  · rw [String.toList_append, Nat.toList_repr]
    rfl

theorem mem_toString {n : Int} {c : Char} (h : c ∈ (toString n).toList) : c = '-' ∨ c.isDigit = true := by
  rw [toList_toString] at h
  split at h
  · exact .inr (Nat.isDigit_of_mem_toDigits (by decide) (by decide) h)
  · exact (List.mem_cons.1 h).imp id (Nat.isDigit_of_mem_toDigits (by decide) (by decide))

theorem toString_ne_nil (n : Int) : (toString n).toList ≠ [] := by
  rw [toList_toString]
  split
  · exact Nat.toDigits_ne_nil
  · exact nofun

theorem splitSign_toDigits (n : Nat) : splitSign (Nat.toDigits 10 n) = (false, Nat.toDigits 10 n) := by
  cases h : Nat.toDigits 10 n with
  | nil => rfl
  | cons c cs =>
    have hc : c.isDigit = true :=
      Nat.isDigit_of_mem_toDigits (b := 10) (n := n) (by decide) (by decide) (by simp [h])
    unfold splitSign
    split
    · rename_i heq
      cases heq
      exact absurd hc (by decide)
    · rename_i heq
      cases heq
      exact absurd hc (by decide)
    · rfl

/-! ## Reading -/

/-- The signed range of a width. -/
def Within (bits : Nat) (n : Int) : Prop :=
  -(Nat.pow 2 (bits - 1) : Int) ≤ n ∧ n < (Nat.pow 2 (bits - 1) : Int)

instance (bits : Nat) (n : Int) : Decidable (Within bits n) := inferInstanceAs (Decidable (_ ∧ _))

theorem within_of_signed {bits m : Nat} {negative : Bool} {n : Int}
    (h : signed bits negative m = .ok n) : Within bits n := by
  unfold signed at h
  unfold Within
  have hpos : 0 < Nat.pow 2 (bits - 1) := Nat.two_pow_pos _
  generalize Nat.pow 2 (bits - 1) = bound at h hpos ⊢
  split at h <;> split at h <;> cases h <;> omega

/-- What is read lies in the range of its width. -/
theorem within_of_readInt {bits : Nat} {cs : List Char} {n : Int} (h : readInt bits cs = .ok n) :
    Within bits n := by
  unfold readInt at h
  dsimp only at h
  split at h
  · cases h
  · cases hread : readMagnitude 10 (Nat.pow 2 bits) false (splitSign cs).2 0 with
    | error e =>
      rw [hread] at h
      cases h
    | ok m =>
      rw [hread] at h
      exact within_of_signed h

/-- A magnitude within the unsigned range of the width is read behind its sign. -/
theorem readInt_of_splitSign {bits m : Nat} {negative : Bool} {cs : List Char}
    (hsign : splitSign cs = (negative, Nat.toDigits 10 m)) (hm : m < Nat.pow 2 bits) :
    readInt bits cs = signed bits negative m := by
  have hread : readMagnitude 10 (Nat.pow 2 bits) false (Nat.toDigits 10 m) 0 = .ok m := by
    rw [readMagnitude_digits (fun c => Nat.isDigit_of_mem_toDigits (by decide) (by decide))
      (by rwa [Nat.ofDigitChars_ten_toDigits]), Nat.ofDigitChars_ten_toDigits]
  have hne : (Nat.toDigits 10 m).isEmpty = false := List.isEmpty_eq_false_iff.2 Nat.toDigits_ne_nil
  rw [readInt, hsign]
  simp only [hne, hread, Bool.false_eq_true, if_false]
  rfl

theorem readInt_toString {bits : Nat} {n : Int} (hbits : 0 < bits) (hn : Within bits n) :
    readInt bits (toString n).toList = .ok n := by
  have hdouble : Nat.pow 2 bits = Nat.pow 2 (bits - 1) * 2 := (Nat.two_pow_pred_mul_two hbits).symm
  obtain ⟨hlow, hhigh⟩ := hn
  rw [toList_toString]
  split
  · rw [readInt_of_splitSign (splitSign_toDigits _) (by omega), signed, if_neg Bool.false_ne_true, if_pos (by omega), Int.toNat_of_nonneg (by omega)]
  · have hsign : splitSign ('-' :: Nat.toDigits 10 (-n).toNat) = (true, Nat.toDigits 10 (-n).toNat) :=
      rfl
    rw [readInt_of_splitSign hsign (by omega), signed, if_pos rfl, if_pos (by omega), Int.toNat_of_nonneg (by omega), Int.neg_neg]

/-- What has been read is read again from how it is written. -/
theorem readInt_toString_of_readInt {bits : Nat} {cs : List Char} {n : Int} (hbits : 0 < bits)
    (h : readInt bits cs = .ok n) : readInt bits (toString n).toList = .ok n :=
  readInt_toString hbits (within_of_readInt h)

end InlinePlan.Decimal
