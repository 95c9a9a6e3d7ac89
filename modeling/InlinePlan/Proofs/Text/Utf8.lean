import InlinePlan.Text.Utf8
import Mathlib.Tactic.Common

set_option autoImplicit false

/-! # Texts and their bytes

An ASCII character is the one byte with its code, and no byte of another character is below `0x80`.
A text is therefore cut at an ASCII character where its bytes are (`byteChars_eq_append_cons`). The
pieces of any byte string make it up again, whether it is valid or not (`bytes_pieces`). -/

namespace InlinePlan.Text

/-! ## Bytes of a character -/

theorem toNat_ofNat {n : Nat} (h : n.isValidChar) : (Char.ofNat n).toNat = n :=
  congrArg Char.toNat (dif_pos h)

theorem encode_of_lt {c : Char} (h : c.toNat < 0x80) :
    String.utf8EncodeChar c = [UInt8.ofNat c.toNat] := by
  have hle : c.val.toNat ≤ 0x7F := Nat.le_of_lt_succ h
  simp only [String.utf8EncodeChar, if_pos hle]
  rfl

theorem high_of_mem_encode {c : Char} (h : 0x80 ≤ c.toNat) {b : UInt8}
    (hb : b ∈ String.utf8EncodeChar c) : 0x80 ≤ b.toNat := by
  have hle : ¬ c.val.toNat ≤ 0x7F := Nat.not_le.2 h
  unfold String.utf8EncodeChar at hb
  simp only [if_neg hle] at hb
  split at hb
  · simp only [List.mem_cons, List.not_mem_nil, or_false] at hb
    rcases hb with rfl | rfl <;> simp only [UInt8.toNat_ofNat'] <;> omega
  · split at hb
    · simp only [List.mem_cons, List.not_mem_nil, or_false] at hb
      rcases hb with rfl | rfl | rfl <;> simp only [UInt8.toNat_ofNat'] <;> omega
    · simp only [List.mem_cons, List.not_mem_nil, or_false] at hb
      rcases hb with rfl | rfl | rfl | rfl <;> simp only [UInt8.toNat_ofNat'] <;> omega

/-! ## Bytes read as characters -/

/-- The bytes of a text, each as the character with its code. -/
def byteChars (cs : List Char) : List Char := (bytesOf cs).map fun b => Char.ofNat b.toNat

@[simp] theorem byteChars_nil : byteChars [] = [] := rfl

@[simp] theorem byteChars_append (cs ds : List Char) :
    byteChars (cs ++ ds) = byteChars cs ++ byteChars ds := by
  simp [byteChars, bytesOf]

theorem byteChars_singleton {c : Char} (h : c.toNat < 0x80) : byteChars [c] = [c] := by
  have hbyte : (UInt8.ofNat c.toNat).toNat = c.toNat := by
    simp only [UInt8.toNat_ofNat']
    omega
  rw [byteChars, bytesOf, List.flatMap_singleton, encode_of_lt h, List.map_singleton, hbyte,
    Char.ofNat_toNat]

theorem byteChars_cons {c : Char} (h : c.toNat < 0x80) (cs : List Char) :
    byteChars (c :: cs) = c :: byteChars cs := by
  rw [← List.singleton_append, byteChars_append, byteChars_singleton h, List.singleton_append]

theorem high_of_mem_byteChars {c d : Char} (h : 0x80 ≤ c.toNat) (hd : d ∈ byteChars [c]) :
    0x80 ≤ d.toNat := by
  simp only [byteChars, bytesOf, List.flatMap_cons, List.flatMap_nil, List.append_nil,
    List.mem_map] at hd
  obtain ⟨b, hb, rfl⟩ := hd
  have hlt := b.toNat_lt
  rw [toNat_ofNat (Or.inl (by omega))]
  exact high_of_mem_encode h hb

/-- Where the bytes of a text show an ASCII character, the text has it. -/
theorem byteChars_eq_append_cons {a : Char} (ha : a.toNat < 0x80) {cs l r : List Char}
    (h : byteChars cs = l ++ a :: r) :
    ∃ cl cr, cs = cl ++ a :: cr ∧ byteChars cl = l ∧ byteChars cr = r := by
  induction cs generalizing l with
  | nil => simp at h
  | cons c cs ih =>
    rw [← List.singleton_append, byteChars_append] at h
    by_cases hc : c.toNat < 0x80
    · rw [byteChars_singleton hc, List.singleton_append] at h
      cases l with
      | nil =>
        obtain ⟨rfl, rfl⟩ := List.cons.inj h
        exact ⟨[], cs, rfl, rfl, rfl⟩
      | cons d l =>
        obtain ⟨rfl, htail⟩ := List.cons.inj h
        obtain ⟨cl, cr, rfl, rfl, rfl⟩ := ih htail
        exact ⟨c :: cl, cr, rfl, byteChars_cons hc cl, rfl⟩
    · have hhigh : ∀ d ∈ byteChars [c], d ≠ a := fun d hd heq =>
        absurd (heq ▸ high_of_mem_byteChars (Nat.not_lt.1 hc) hd) (Nat.not_le.2 ha)
      -- The bytes of the first character all stand before the ASCII character.
      obtain ⟨m, hl, hr⟩ | ⟨m, hl, hr⟩ := List.append_eq_append_iff.1 h
      · obtain ⟨cl, cr, rfl, rfl, rfl⟩ := ih hr
        exact ⟨c :: cl, cr, rfl, by rw [← List.singleton_append, byteChars_append, hl], rfl⟩
      · cases m with
        | nil =>
          obtain ⟨cl, cr, rfl, hcl, rfl⟩ := ih (l := []) hr.symm
          refine ⟨c :: cl, cr, rfl, ?_, rfl⟩
          rw [← List.singleton_append, byteChars_append, hcl, hl, List.append_assoc]
          simp
        | cons d m =>
          obtain ⟨rfl, -⟩ := List.cons.inj hr
          exact absurd rfl (hhigh a (by simp [hl]))

theorem byteChars_eq_nil {cs : List Char} (h : byteChars cs = []) : cs = [] := by
  rw [byteChars, List.map_eq_nil_iff, bytesOf, List.flatMap_eq_nil_iff] at h
  exact List.eq_nil_iff_forall_not_mem.2 fun c hc => String.utf8EncodeChar_ne_nil (h c hc)

theorem byteChars_eq_cons {a : Char} (ha : a.toNat < 0x80) {cs r : List Char}
    (h : byteChars cs = a :: r) : ∃ cr, cs = a :: cr ∧ byteChars cr = r := by
  obtain ⟨cl, cr, rfl, hcl, hcr⟩ := byteChars_eq_append_cons (l := []) ha h
  rw [byteChars_eq_nil hcl]
  exact ⟨cr, rfl, hcr⟩

/-! ## Pieces of a byte string -/

/-- The bytes that a piece stands for. -/
def Piece.bytes : Piece → List UInt8
  | char c => String.utf8EncodeChar c
  | stray b => [b]

theorem isContinuation_iff {b : UInt8} : isContinuation b = true ↔ 0x80 ≤ b.toNat ∧ b.toNat ≤ 0xBF := by
  simp [isContinuation, UInt8.le_iff_toNat_le]

theorem ofNat_eq_of_toNat {n : Nat} {b : UInt8} (h : n = b.toNat) : UInt8.ofNat n = b := by
  rw [h, UInt8.ofNat_toNat]

/-- The bytes of the character with a given code. -/
theorem encode_ofNat {n : Nat} (h : n.isValidChar) :
    String.utf8EncodeChar (Char.ofNat n) =
      if n ≤ 0x7F then [UInt8.ofNat n]
      else if n ≤ 0x7FF then [UInt8.ofNat (n / 64 % 32 + 192), UInt8.ofNat (n % 64 + 128)]
      else if n ≤ 0xFFFF then
        [UInt8.ofNat (n / 4096 % 16 + 224), UInt8.ofNat (n / 64 % 64 + 128),
          UInt8.ofNat (n % 64 + 128)]
      else
        [UInt8.ofNat (n / 262144 % 8 + 240), UInt8.ofNat (n / 4096 % 64 + 128),
          UInt8.ofNat (n / 64 % 64 + 128), UInt8.ofNat (n % 64 + 128)] := by
  have hcode : (Char.ofNat n).val.toNat = n := toNat_ofNat h
  rw [String.utf8EncodeChar, hcode]

section Encodings
variable {b c d e : UInt8}

theorem encode_one (hb : b.toNat < 0x80) : String.utf8EncodeChar (Char.ofNat b.toNat) = [b] := by
  rw [encode_ofNat (Or.inl (by omega)), if_pos (by omega), UInt8.ofNat_toNat]

theorem encode_two (hb : 0xC2 ≤ b.toNat ∧ b.toNat ≤ 0xDF) (hc : isContinuation c = true) :
    String.utf8EncodeChar (Char.ofNat (b.toNat % 0x20 * 0x40 + payload c)) = [b, c] := by
  rw [isContinuation_iff] at hc
  unfold payload
  rw [encode_ofNat (Or.inl (by omega)), if_neg (by omega), if_pos (by omega),
    ofNat_eq_of_toNat (b := b) (by omega), ofNat_eq_of_toNat (b := c) (by omega)]

theorem encode_three {n : Nat} (hb : 0xE0 ≤ b.toNat ∧ b.toNat ≤ 0xEF) (hc : isContinuation c = true)
    (hd : isContinuation d = true)
    (hn : n = b.toNat % 0x10 * 0x1000 + payload c * 0x40 + payload d) (hlow : 0x800 ≤ n)
    (hsurrogate : n < 0xD800 ∨ 0xDFFF < n) :
    String.utf8EncodeChar (Char.ofNat n) = [b, c, d] := by
  rw [isContinuation_iff] at hc hd
  unfold payload at hn
  have hvalid : n.isValidChar := hsurrogate.imp id fun h => ⟨h, by omega⟩
  rw [encode_ofNat hvalid, if_neg (by omega), if_neg (by omega), if_pos (by omega),
    ofNat_eq_of_toNat (b := b) (by omega), ofNat_eq_of_toNat (b := c) (by omega),
    ofNat_eq_of_toNat (b := d) (by omega)]

theorem encode_four {n : Nat} (hb : 0xF0 ≤ b.toNat ∧ b.toNat ≤ 0xF4) (hc : isContinuation c = true)
    (hd : isContinuation d = true) (he : isContinuation e = true)
    (hn : n = b.toNat % 0x08 * 0x40000 + payload c * 0x1000 + payload d * 0x40 + payload e)
    (hlow : 0x10000 ≤ n) (hhigh : n ≤ 0x10FFFF) :
    String.utf8EncodeChar (Char.ofNat n) = [b, c, d, e] := by
  rw [isContinuation_iff] at hc hd he
  unfold payload at hn
  rw [encode_ofNat (Or.inr ⟨by omega, by omega⟩), if_neg (by omega), if_neg (by omega),
    if_neg (by omega), ofNat_eq_of_toNat (b := b) (by omega), ofNat_eq_of_toNat (b := c) (by omega),
    ofNat_eq_of_toNat (b := d) (by omega), ofNat_eq_of_toNat (b := e) (by omega)]

end Encodings

/-- The bytes that are read as one character are those of the character. -/
theorem encode_of_decodeHead? {bs : List UInt8} {c : Char} {n : Nat}
    (h : decodeHead? bs = some (c, n)) : 0 < n ∧ String.utf8EncodeChar c = bs.take n := by
  revert h
  -- The cases that give a character are the four lengths of its bytes.
  fun_cases decodeHead? bs with
  | case2 b rest hb =>
    rintro ⟨⟩
    exact ⟨Nat.one_pos, encode_one (UInt8.lt_iff_toNat_lt.1 hb)⟩
  | case3 b hb c' rest' hc =>
    rintro ⟨⟩
    simp only [Bool.and_eq_true, decide_eq_true_eq, UInt8.le_iff_toNat_le] at hc
    exact ⟨Nat.two_pos, encode_two hc.1 hc.2⟩
  | case4 b hb c' hc d rest' n' hd =>
    rintro ⟨⟩
    simp only [Bool.and_eq_true, Bool.not_eq_true', Bool.and_eq_false_iff, decide_eq_true_eq,
      decide_eq_false_iff_not, UInt8.le_iff_toNat_le, Nat.not_le] at hd
    obtain ⟨⟨⟨⟨hb, hc⟩, hd⟩, hlow⟩, hsurrogate⟩ := hd
    exact ⟨by decide, encode_three hb hc hd rfl hlow hsurrogate⟩
  | case5 b hb c' hc d hd e rest' n' n he =>
    rintro ⟨⟩
    simp only [Bool.and_eq_true, decide_eq_true_eq, UInt8.le_iff_toNat_le] at he
    obtain ⟨⟨⟨⟨⟨hb, hc⟩, hd⟩, he⟩, hlow⟩, hhigh⟩ := he
    exact ⟨by decide, encode_four hb hc hd he rfl hlow hhigh⟩
  | _ => exact nofun

theorem bytes_piecesFrom (skip : Nat) (bs : List UInt8) :
    (piecesFrom skip bs).flatMap Piece.bytes = bs.drop skip := by
  fun_induction piecesFrom skip bs with
  | case1 => simp
  | case2 skip b bs ih => simpa using ih
  | case3 b bs c n hread ih =>
    obtain ⟨hpos, hbytes⟩ := encode_of_decodeHead? hread
    rw [List.flatMap_cons, ih, Piece.bytes, hbytes]
    obtain ⟨m, rfl⟩ := Nat.exists_eq_add_of_lt hpos
    simp
  | case4 b bs _ ih => simp [Piece.bytes, ih]

/-- The pieces of a byte string are all of it. -/
theorem bytes_pieces (bs : List UInt8) : (pieces bs).flatMap Piece.bytes = bs :=
  bytes_piecesFrom 0 bs

end InlinePlan.Text
