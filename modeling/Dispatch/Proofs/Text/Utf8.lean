import Dispatch.Text.Utf8
import Mathlib.Tactic.Common

/-!
# Decoding what was encoded

The reader of bytes never fails, so its only promise is about bytes that are an
encoding: those are read as the text that was encoded.  The proof follows one
character through the states of the reader.
-/

namespace Dispatch.Utf8

/-- A byte that a pending encoding accepts ends it or leaves one byte less to come. -/
theorem decodeFrom_pending {pending : Pending} {byte : UInt8} (rest : List UInt8)
    (hlowest : pending.lowest.toNat ≤ byte.toNat) (hhighest : byte.toNat ≤ pending.highest.toNat) :
    decodeFrom (some pending) (byte :: rest) =
      if pending.remaining ≤ 1 then
        Char.ofNat (pending.bits * 64 + (byte.toNat - 0x80)) :: decodeFrom none rest
      else decodeFrom (some ⟨pending.remaining - 1, 0x80, 0xBF,
        pending.bits * 64 + (byte.toNat - 0x80)⟩) rest := by
  have haccepted : pending.lowest ≤ byte ∧ byte ≤ pending.highest :=
    ⟨UInt8.le_iff_toNat_le.mpr hlowest, UInt8.le_iff_toNat_le.mpr hhighest⟩
  rw [decodeFrom, step]
  dsimp only
  rw [if_pos haccepted]
  split
  · rfl
  · rfl

theorem toNat_byte {n : Nat} (h : n < 256) : (UInt8.ofNat n).toNat = n :=
  UInt8.toNat_ofNat_of_lt' h

/-- A continuation byte with six bits of a character. -/
theorem toNat_continuation (n : Nat) : (UInt8.ofNat (n % 64 + 0x80)).toNat = n % 64 + 0x80 :=
  toNat_byte (by omega)

/-- The last continuation byte of a character. -/
theorem decodeFrom_last {lowest highest : UInt8} {bits n : Nat} (rest : List UInt8)
    (hlowest : lowest.toNat ≤ n % 64 + 0x80) (hhighest : n % 64 + 0x80 ≤ highest.toNat)
    (hbits : bits = n / 64) :
    decodeFrom (some ⟨1, lowest, highest, bits⟩) (UInt8.ofNat (n % 64 + 0x80) :: rest) =
      Char.ofNat n :: decodeFrom none rest := by
  have hbyte := toNat_continuation n
  have hn : bits * 64 + (n % 64 + 0x80 - 0x80) = n := by omega
  rw [decodeFrom_pending rest (by rwa [hbyte]) (by rwa [hbyte]), if_pos (Nat.le_refl 1), hbyte]
  dsimp only
  rw [hn]

/-- A continuation byte before the last. -/
theorem decodeFrom_next (remaining : Nat) {lowest highest : UInt8} {bits n : Nat}
    (rest : List UInt8)
    (hlowest : lowest.toNat ≤ n % 64 + 0x80) (hhighest : n % 64 + 0x80 ≤ highest.toNat)
    (hbits : bits = n / 64) :
    decodeFrom (some ⟨remaining + 2, lowest, highest, bits⟩)
        (UInt8.ofNat (n % 64 + 0x80) :: rest) =
      decodeFrom (some ⟨remaining + 1, 0x80, 0xBF, n⟩) rest := by
  have hbyte := toNat_continuation n
  have hn : bits * 64 + (n % 64 + 0x80 - 0x80) = n := by omega
  rw [decodeFrom_pending rest (by rwa [hbyte]) (by rwa [hbyte]), if_neg (by dsimp only; omega),
    hbyte]
  dsimp only
  rw [hn]
  rfl

/-! ## First bytes -/

/-- A byte that begins an encoding makes no character known yet. -/
theorem decodeFrom_first {byte : UInt8} {pending : Pending}
    (h : start byte = (some pending, [])) (rest : List UInt8) :
    decodeFrom none (byte :: rest) = decodeFrom (some pending) rest := by
  rw [decodeFrom, step, h]
  rfl

theorem start_one {n : Nat} (h : n < 0x80) : start (UInt8.ofNat n) = (none, [Char.ofNat n]) := by
  have hbyte : (UInt8.ofNat n).toNat = n := toNat_byte (by omega)
  simp only [start, hbyte]
  rw [if_pos h]

theorem start_two {n : Nat} (hlow : 0x80 ≤ n) (hhigh : n < 0x800) :
    start (UInt8.ofNat (n / 64 % 32 + 0xC0)) = (some ⟨1, 0x80, 0xBF, n / 64⟩, []) := by
  have hbyte : (UInt8.ofNat (n / 64 % 32 + 0xC0)).toNat = n / 64 + 0xC0 := by
    rw [toNat_byte (by omega)]
    omega
  simp only [start, hbyte]
  rw [if_neg (by omega), if_neg (by omega), if_pos (by omega), Nat.add_sub_cancel]

/-- The bounds on the second byte of three keep out short encodings and surrogates. -/
theorem exists_start_three {n : Nat} (hlow : 0x800 ≤ n) (hhigh : n < 0x10000)
    (hvalid : n < 0xD800 ∨ 0xDFFF < n) :
    ∃ lowest highest : UInt8,
      start (UInt8.ofNat (n / 4096 % 16 + 0xE0)) = (some ⟨2, lowest, highest, n / 4096⟩, []) ∧
      lowest.toNat ≤ n / 64 % 64 + 0x80 ∧ n / 64 % 64 + 0x80 ≤ highest.toNat := by
  have hbyte : (UInt8.ofNat (n / 4096 % 16 + 0xE0)).toNat = n / 4096 + 0xE0 := by
    rw [toNat_byte (by omega)]
    omega
  simp only [start, hbyte]
  rw [if_neg (by omega), if_neg (by omega), if_neg (by omega), if_pos (by omega),
    Nat.add_sub_cancel]
  refine ⟨_, _, rfl, ?_, ?_⟩
  · split
    · simp; omega
    · simp
  · split
    · simp; omega
    · simp; omega

/-- The bounds on the second byte of four keep out short encodings and what is no character. -/
theorem exists_start_four {n : Nat} (hlow : 0x10000 ≤ n) (hhigh : n < 0x110000) :
    ∃ lowest highest : UInt8,
      start (UInt8.ofNat (n / 262144 % 8 + 0xF0)) =
        (some ⟨3, lowest, highest, n / 262144⟩, []) ∧
      lowest.toNat ≤ n / 4096 % 64 + 0x80 ∧ n / 4096 % 64 + 0x80 ≤ highest.toNat := by
  have hbyte : (UInt8.ofNat (n / 262144 % 8 + 0xF0)).toNat = n / 262144 + 0xF0 := by
    rw [toNat_byte (by omega)]
    omega
  simp only [start, hbyte]
  rw [if_neg (by omega), if_neg (by omega), if_neg (by omega), if_neg (by omega),
    if_pos (by omega), Nat.add_sub_cancel]
  refine ⟨_, _, rfl, ?_, ?_⟩
  · split
    · simp; omega
    · simp
  · split
    · simp; omega
    · simp; omega

/-! ## Characters -/

theorem decodeFrom_char (c : Char) (rest : List UInt8) :
    decodeFrom none (String.utf8EncodeChar c ++ rest) = c :: decodeFrom none rest := by
  have hvalid : c.val.toNat < 0xD800 ∨ 0xDFFF < c.val.toNat ∧ c.val.toNat < 0x110000 := c.valid
  have hc : Char.ofNat c.val.toNat = c := Char.ofNat_toNat c
  generalize hn : c.val.toNat = n at hvalid hc
  simp only [String.utf8EncodeChar, hn]
  split
  next hone =>
    rw [List.singleton_append, decodeFrom, step, start_one (by omega), hc]
    rfl
  next hone =>
    split
    next htwo =>
      rw [List.cons_append, List.singleton_append,
        decodeFrom_first (start_two (by omega) (by omega)),
        decodeFrom_last rest (by simp) (by simp; omega) rfl, hc]
    next htwo =>
      split
      next hthree =>
        obtain ⟨lowest, highest, hstart, hlowest, hhighest⟩ :=
          exists_start_three (n := n) (by omega) (by omega) (by omega)
        rw [List.cons_append, List.cons_append, List.singleton_append, decodeFrom_first hstart,
          decodeFrom_next 0 _ hlowest hhighest (by omega),
          decodeFrom_last rest (by simp) (by simp; omega) rfl, hc]
      next hthree =>
        obtain ⟨lowest, highest, hstart, hlowest, hhighest⟩ :=
          exists_start_four (n := n) (by omega) (by omega)
        rw [List.cons_append, List.cons_append, List.cons_append, List.singleton_append,
          decodeFrom_first hstart, decodeFrom_next 1 _ hlowest hhighest (by omega),
          decodeFrom_next 0 _ (by simp) (by simp; omega) (by omega),
          decodeFrom_last rest (by simp) (by simp; omega) rfl, hc]

/-- An encoded text is read as itself. -/
theorem decode_encode (s : String) : decode (encode s) = s := by
  have hchars : ∀ cs : List Char, decodeFrom none (cs.flatMap String.utf8EncodeChar) = cs := by
    intro cs
    induction cs with
    | nil => rfl
    | cons c cs ih => rw [List.flatMap_cons, decodeFrom_char, ih]
  rw [decode, encode, hchars, String.ofList_toList]

end Dispatch.Utf8
