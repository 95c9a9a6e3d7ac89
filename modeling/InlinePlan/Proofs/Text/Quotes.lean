import InlinePlan.Proofs.Text.Utf8
import InlinePlan.Text.Quoted

set_option autoImplicit false

/-! # Quoted byte strings are read back

Each piece of a byte string is written as one character or one escape, which is read as the bytes of
the piece (`unquoteBody?_escapePiece`), so that every byte string, valid or not, comes back from its
quoted form (`unquote?_quoteBytes`). -/

namespace InlinePlan.Text

/-! ## Digits -/

theorem hexValue?_digitChar : ∀ d < 16, hexValue? (Nat.digitChar d) = some d := by decide

theorem readDigits?_add (base : Nat) (value? : Char → Option Nat) (k l acc : Nat) (cs : List Char) :
    readDigits? base value? (k + l) acc cs =
      (readDigits? base value? k acc cs).bind fun (n, rest) => readDigits? base value? l n rest := by
  induction k generalizing acc cs with
  | zero => simp [readDigits?]
  | succ k ih =>
    rw [Nat.succ_add]
    cases cs with
    | nil => rfl
    | cons c cs =>
      rw [readDigits?, readDigits?, Option.bind_assoc]
      exact congrArg _ (funext fun d => ih _ _)

theorem hexDigits_succ (w n : Nat) :
    hexDigits (w + 2) n = hexDigits (w + 1) (n / 16) ++ [Nat.digitChar (n % 16)] := by
  unfold hexDigits
  dsimp only
  by_cases h : n < 16
  · rw [Nat.toDigits_of_lt_base h, Nat.div_eq_of_lt h, Nat.mod_eq_of_lt h,
      Nat.toDigits_of_lt_base (by decide)]
    simp [List.replicate_succ', List.append_assoc]
  · rw [Nat.toDigits_eq_if (by decide), if_neg h]
    simp

theorem readDigits?_hexDigits (w : Nat) {n : Nat} (h : n < Nat.pow 16 (w + 1)) (rest : List Char) :
    readDigits? 16 hexValue? (w + 1) 0 (hexDigits (w + 1) n ++ rest) = some (n, rest) := by
  induction w generalizing n rest with
  | zero =>
    have hlt : n < 16 := by simpa using h
    simp [hexDigits, Nat.toDigits_of_lt_base hlt, readDigits?, hexValue?_digitChar n hlt]
  | succ w ih =>
    have hdiv : n / 16 < Nat.pow 16 (w + 1) := Nat.div_lt_of_lt_mul (Nat.mul_comm _ 16 ▸ h)
    have hmod : n % 16 < 16 := Nat.mod_lt n (by decide)
    rw [hexDigits_succ, readDigits?_add, List.append_assoc, ih hdiv]
    simp [readDigits?, hexValue?_digitChar _ hmod, Nat.div_add_mod']

/-! ## Escapes -/

theorem scalarBytes?_toNat (c : Char) : scalarBytes? c.toNat = some (String.utf8EncodeChar c) := by
  rw [scalarBytes?, if_pos (show c.toNat.isValidChar from c.valid), Char.ofNat_toNat]

theorem unescape?_byte {b : UInt8} (rest : List Char) :
    unescape? ('x' :: hexDigits 2 b.toNat ++ rest) = some ([b], rest) := by
  have hdigits := readDigits?_hexDigits 1 (n := b.toNat) b.toNat_lt rest
  simp [unescape?, hdigits]

theorem unescape?_control {c : Char} (h : c.toNat < 0x80) (rest : List Char) :
    unescape? ('x' :: hexDigits 2 c.toNat ++ rest) = some (String.utf8EncodeChar c, rest) := by
  have hdigits := readDigits?_hexDigits 1 (Nat.lt_trans h (by decide)) rest
  simp [unescape?, hdigits, encode_of_lt h]

theorem unescape?_letter {c l : Char} (h : escapeLetter? c = some l) (rest : List Char) :
    unescape? (l :: rest) = some (String.utf8EncodeChar c, rest) := by
  have hc := Char.ofNat_toNat c
  unfold escapeLetter? at h
  split at h <;> cases h
  all_goals
    rename_i hcode
    rw [hcode] at hc
    rw [← hc]
    rfl

theorem unescape?_hex (c : Char) (rest : List Char) :
    (c.toNat < 0x10000 → unescape? ('u' :: hexDigits 4 c.toNat ++ rest)
        = some (String.utf8EncodeChar c, rest))
      ∧ unescape? ('U' :: hexDigits 8 c.toNat ++ rest) = some (String.utf8EncodeChar c, rest) := by
  have hlt : c.toNat < Nat.pow 16 8 := by
    change c.toNat < 0x100000000
    rcases c.valid with h | h <;> simp only [UInt32.toNat, Char.toNat] at h ⊢ <;> omega
  refine ⟨fun h => ?_, ?_⟩
  · have hdigits := readDigits?_hexDigits 3 h rest
    simp [unescape?, hdigits, scalarBytes?_toNat]
  · have hdigits := readDigits?_hexDigits 7 hlt rest
    simp [unescape?, hdigits, scalarBytes?_toNat]

theorem unquoteBody?_escape {cs rest : List Char} {bs : List UInt8} (fuel : Nat)
    (h : unescape? (cs ++ rest) = some (bs, rest)) :
    unquoteBody? (fuel + 1) ('\\' :: cs ++ rest) = (unquoteBody? fuel rest).map (bs ++ ·) := by
  simp [unquoteBody?, h]

theorem unquoteBody?_escapeChar (fuel : Nat) (c : Char) (rest : List Char) :
    unquoteBody? (fuel + 1) (escapeChar '\x22' c ++ rest)
      = (unquoteBody? fuel rest).map (String.utf8EncodeChar c ++ ·) := by
  -- One case for each way in which a character is written.
  fun_cases escapeChar '\x22' c with
  | case1 hc => exact unquoteBody?_escape fuel (by rcases hc with rfl | rfl <;> rfl)
  | case2 hc hprintable =>
    obtain ⟨hquote, hbackslash⟩ := not_or.1 hc
    have hline : c ≠ '\n' := fun h => by simp [h, isPrintable] at hprintable
    simp [unquoteBody?, hquote, hbackslash, hline]
  | case3 _ _ l hletter => exact unquoteBody?_escape fuel (unescape?_letter hletter rest)
  | case4 _ _ _ n hcontrol =>
    have hlt : c.toNat < 0x80 := by omega
    exact unquoteBody?_escape fuel (unescape?_control hlt rest)
  | case5 _ _ _ n _ hshort => exact unquoteBody?_escape fuel ((unescape?_hex c rest).1 hshort)
  | case6 => exact unquoteBody?_escape fuel (unescape?_hex c rest).2

/-- What is written for a piece is read as its bytes. -/
theorem unquoteBody?_escapePiece (fuel : Nat) (p : Piece) (rest : List Char) :
    unquoteBody? (fuel + 1) (escapePiece p ++ rest)
      = (unquoteBody? fuel rest).map (p.bytes ++ ·) := by
  cases p with
  | char c => exact unquoteBody?_escapeChar fuel c rest
  | stray b => exact unquoteBody?_escape fuel (unescape?_byte rest)

theorem unquoteBody?_escapePieces {fuel : Nat} {ps : List Piece} (h : ps.length < fuel) :
    unquoteBody? fuel (ps.flatMap escapePiece ++ ['\x22']) = some (ps.flatMap Piece.bytes) := by
  induction ps generalizing fuel with
  | nil =>
    obtain ⟨k, rfl⟩ := Nat.exists_eq_add_of_lt h
    simp [unquoteBody?]
  | cons p ps ih =>
    obtain ⟨k, rfl⟩ := Nat.exists_eq_add_of_lt h
    rw [List.flatMap_cons, List.append_assoc, unquoteBody?_escapePiece,
      ih (by rw [List.length_cons]; omega)]
    simp

theorem escapeChar_ne_nil (quote c : Char) : escapeChar quote c ≠ [] := by
  fun_cases escapeChar quote c <;> exact nofun

theorem length_le_escapePieces (ps : List Piece) : ps.length ≤ (ps.flatMap escapePiece).length := by
  induction ps with
  | nil => exact Nat.le_refl 0
  | cons p ps ih =>
    have hpos : 0 < (escapePiece p).length := by
      cases p with
      | char c => exact List.length_pos_iff.2 (escapeChar_ne_nil _ c)
      | stray b => exact Nat.succ_pos _
    rw [List.flatMap_cons, List.length_append, List.length_cons]
    omega

/-- A byte string is read back from its quoted form. -/
theorem unquote?_quoteBytes (bs : List UInt8) : unquote? (quoteBytes bs) = some bs := by
  have hlength := length_le_escapePieces (pieces bs)
  rw [quoteBytes, List.cons_append, unquote?, unquoteBody?_escapePieces, bytes_pieces]
  rw [List.length_append]
  omega

end InlinePlan.Text
