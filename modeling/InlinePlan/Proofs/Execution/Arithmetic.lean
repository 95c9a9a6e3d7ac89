import InlinePlan.Proofs.Execution.Machine

set_option autoImplicit false

/-! # Arithmetic on words

The analysis computes with integers; the executing machine cuts the exact result to the width of its
words. Both give the same results. -/

namespace InlinePlan

theorem ofInt_eq_of_toInt {bits : Nat} {r : BitVec bits} {v : Int} (h : r.toInt = v) :
    BitVec.ofInt bits v = r := by
  rw [← h, BitVec.ofInt_toInt]

/-- An integer of 32 bits is its own word. -/
theorem toInt_ofInt_32 {v : Int} (hlo : minInt32 ≤ v) (hhi : v ≤ maxInt32) :
    (BitVec.ofInt 32 v).toInt = v := by
  unfold minInt32 at hlo
  unfold maxInt32 at hhi
  rw [BitVec.toInt_ofInt]
  exact Int.bmod_eq_of_le (by omega) (by omega)

theorem toInt_ofInt_64 {v : Int} (hlo : minInt32 ≤ v) (hhi : v ≤ maxInt32) :
    (BitVec.ofInt 64 v).toInt = v := by
  unfold minInt32 at hlo
  unfold maxInt32 at hhi
  rw [BitVec.toInt_ofInt]
  exact Int.bmod_eq_of_le (by omega) (by omega)

theorem toInt_32_bounds (v : BitVec 32) : minInt32 ≤ v.toInt ∧ v.toInt ≤ maxInt32 := by
  have hlo := BitVec.le_toInt v
  have hhi := BitVec.toInt_lt (x := v)
  unfold minInt32 maxInt32
  omega

/-! ## Operations -/

theorem Arith.word_eq_some {bits : Nat} {f : Arith} {a b r : BitVec bits} (h : f.Yields a b r) :
    f.word a b = some r := by
  have hzero : b.toInt ≠ 0 → b ≠ 0 := by
    rintro hb rfl
    exact hb BitVec.toInt_zero
  cases f with
  | add => rw [word, show r = _ from h, BitVec.ofInt_add, BitVec.ofInt_toInt, BitVec.ofInt_toInt]
  | sub =>
    rw [word, show r = _ from h, Option.some.injEq]
    refine BitVec.eq_of_toInt_eq ?_
    rw [BitVec.toInt_sub, BitVec.toInt_ofInt]
  | mul => rw [word, show r = _ from h, BitVec.ofInt_mul, BitVec.ofInt_toInt, BitVec.ofInt_toInt]
  | div =>
    obtain ⟨hb, rfl⟩ := h
    rw [word, if_neg (hzero hb), Option.some.injEq]
    refine BitVec.eq_of_toInt_eq ?_
    rw [BitVec.toInt_sdiv, BitVec.toInt_ofInt]
  | rem =>
    obtain ⟨hb, rfl⟩ := h
    rw [word, if_neg (hzero hb), Option.some.injEq]
    exact (ofInt_eq_of_toInt (BitVec.toInt_srem a b)).symm
  | and | or | xor => rw [word, show r = _ from h]

/-- The result on constants is the result on their words. -/
theorem Arith.eval_eq_some {w : Width} {f : Arith} {a b r : BitVec w.bits} (h : f.Yields a b r) :
    f.eval w a.toInt b.toInt = some r.toInt := by
  rw [eval, BitVec.ofInt_toInt, BitVec.ofInt_toInt, word_eq_some h, Option.map_some]

theorem Shift.word_eq {bits : Nat} {f : Shift} {a r : BitVec bits} {count : Nat}
    (h : f.Yields a count r) : f.word a count = r := by
  cases f with
  | left =>
    rw [show r = _ from h, word, BitVec.ofInt_mul, BitVec.ofInt_toInt, BitVec.ofInt_natCast,
      BitVec.shiftLeft_eq_mul_twoPow]
    congr 1
    exact BitVec.eq_of_toNat_eq (by rw [BitVec.toNat_twoPow, BitVec.toNat_ofNat]; rfl)
  | right =>
    rw [show r = _ from h, word]
    refine (ofInt_eq_of_toInt ?_).symm
    rw [BitVec.toInt_sshiftRight, Int.shiftRight_eq_div_pow]
    rfl
  | unsignedRight =>
    rw [show r = _ from h, word]
    refine BitVec.eq_of_toNat_eq ?_
    rw [BitVec.toNat_ushiftRight, BitVec.toNat_ofNat, Nat.shiftRight_eq_div_pow]
    exact (Nat.mod_eq_of_lt (Nat.lt_of_le_of_lt (Nat.div_le_self _ _) a.isLt)).symm

theorem Shift.eval_eq {w : Width} {f : Shift} {a r : BitVec w.bits} {n : BitVec 32}
    (h : f.Yields a (n.toNat % w.bits) r) : f.eval w a.toInt n.toInt = r.toInt := by
  rw [eval, BitVec.ofInt_toInt, BitVec.ofInt_toInt, word_eq h]

theorem negate_eq {w : Width} (a : BitVec w.bits) :
    negate w a.toInt = (BitVec.ofInt w.bits (-a.toInt)).toInt := by
  rw [negate, BitVec.ofInt_neg]

theorem compareInts_eq (a b : Int) :
    compareInts a b = (BitVec.ofInt 32 (a - b).sign).toInt := by
  unfold compareInts
  rcases Int.lt_trichotomy a b with h | h | h
  · rw [if_pos h, Int.sign_eq_neg_one_of_neg (by omega)]
    rfl
  · rw [if_neg (by omega), if_neg (by omega), h, Int.sub_self]
    rfl
  · rw [if_neg (by omega), if_pos h, Int.sign_eq_one_of_pos (by omega)]
    rfl

/-! ## Data -/

theorem Width.int?_datum (w : Width) (v : BitVec w.bits) : (w.datum v).int? = some v.toInt := by
  cases w <;> rfl

theorem Width.kind_datum (w : Width) (v : BitVec w.bits) : (w.datum v).kind = w.kind := by
  cases w <;> rfl

theorem Width.kind_ne_untyped (w : Width) : w.kind ≠ .untyped := by
  cases w <;> simp [Width.kind]

/-- An exact conversion of a constant is the conversion of its word. -/
theorem Conversion.int?_eq {c : Conversion} {a r : Datum} {x y : Int} (h : c.Yields a r)
    (hx : a.int? = some x) (hy : c.eval? x = some y) : r.int? = some y := by
  cases c with
  | intToLong =>
    obtain ⟨v, rfl, rfl⟩ := h
    cases hx
    cases hy
    have hb := toInt_32_bounds v
    rw [Datum.int?, toInt_ofInt_64 hb.1 hb.2]
  | longToInt =>
    obtain ⟨v, rfl, rfl⟩ := h
    cases hx
    cases hy
    rfl
  | intToByte =>
    obtain ⟨v, rfl, rfl⟩ := h
    cases hx
    cases hy
    have hlo := Int.le_bmod (x := v.toInt) (m := 256) (by decide)
    have hhi := Int.bmod_lt (x := v.toInt) (m := 256) (by decide)
    rw [Datum.int?, toInt_ofInt_32 (by unfold minInt32; omega) (by unfold maxInt32; omega), wrap,
      BitVec.toInt_ofInt]
  | intToChar =>
    obtain ⟨v, rfl, rfl⟩ := h
    cases hx
    cases hy
    rw [Datum.int?, toInt_ofInt_32 (by unfold minInt32; omega) (by unfold maxInt32; omega),
      BitVec.toNat_ofInt]
    congr 1
    omega
  | intToShort =>
    obtain ⟨v, rfl, rfl⟩ := h
    cases hx
    cases hy
    have hlo := Int.le_bmod (x := v.toInt) (m := 65536) (by decide)
    have hhi := Int.bmod_lt (x := v.toInt) (m := 65536) (by decide)
    rw [Datum.int?, toInt_ofInt_32 (by unfold minInt32; omega) (by unfold maxInt32; omega), wrap,
      BitVec.toInt_ofInt]
  | lossy s t => cases hy

theorem Conversion.kind_eq {c : Conversion} {a r : Datum} (h : c.Yields a r) :
    a.kind = c.source ∧ r.kind = c.target := by
  cases c with
  | lossy s t => exact h
  | _ =>
    obtain ⟨v, rfl, rfl⟩ := h
    exact ⟨rfl, rfl⟩

end InlinePlan
