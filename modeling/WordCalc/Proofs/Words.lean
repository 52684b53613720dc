import Mathlib.Algebra.Group.Nat.Defs
import Mathlib.Data.List.Induction
import WordCalc.Word

/-!
# Words and bytes

Reading and writing bytes recurse on the last byte, the comparison on the first: it
counts more than all that follow it together.
-/

namespace WordCalc.Word

theorem largest_add_one : largest + 1 = 256 ^ size := by decide

theorem fits_natCast_iff {n : Nat} : Fits n ↔ n < 256 ^ size := by
  rw [← largest_add_one, Nat.lt_succ_iff, ← Int.ofNat_le]
  exact and_iff_right (Int.natCast_nonneg n)

theorem toNat_lt_of_fits {n : Int} (h : Fits n) : n.toNat < 256 ^ size := by
  rw [← fits_natCast_iff, Int.toNat_of_nonneg h.1]
  exact h

/-- Bytes that are enough for a number give it back. -/
theorem ofBytes_bigEndian {k n : Nat} (h : n < 256 ^ k) : ofBytes (bigEndian k n) = n := by
  induction k generalizing n with
  | zero =>
    rw [Nat.pow_zero] at h
    rw [Nat.lt_one_iff.mp h]
    rfl
  | succ k ih =>
    have hq : n / 256 < 256 ^ k := by
      rw [Nat.div_lt_iff_lt_mul (by decide), ← Nat.pow_succ]
      exact h
    rw [bigEndian, ofBytes_append_singleton, ih hq, UInt8.toNat_ofNat']
    omega

theorem encode_of_fits {n : Int} (h : Fits n) : encode n = .ok (bigEndian size n.toNat) := by
  have hnonneg : ¬ n < 0 := Int.not_lt.mpr h.1
  have hsmall : ¬ Nat.pow 256 size ≤ n.toNat := Nat.not_le.mpr (toNat_lt_of_fits h)
  rw [encode, if_neg hnonneg, if_neg hsmall]

theorem encode_of_neg {n : Int} (h : n < 0) : encode n = .error .negative := by
  rw [encode, if_pos h]

theorem encode_of_largest_lt {n : Int} (h : largest < n) : encode n = .error .tooBig := by
  have hnonneg : ¬ n < 0 := by omega
  have hlarge : Nat.pow 256 size ≤ n.toNat := by
    show 256 ^ size ≤ n.toNat
    rw [← largest_add_one]
    omega
  rw [encode, if_neg hnonneg, if_pos hlarge]

theorem ofBytes_of_fits {n : Int} (h : Fits n) :
    (ofBytes (bigEndian size n.toNat) : Int) = n := by
  rw [ofBytes_bigEndian (toNat_lt_of_fits h), Int.toNat_of_nonneg h.1]

theorem ofBytes_lt (bytes : List UInt8) : ofBytes bytes < 256 ^ bytes.length := by
  induction bytes using List.reverseRecOn with
  | nil => exact Nat.one_pos
  | append_singleton bytes b ih =>
    have hb : b.toNat < 256 := b.toNat_lt
    rw [ofBytes_append_singleton, List.length_append, List.length_singleton, Nat.pow_succ]
    omega

theorem bigEndian_ofBytes (bytes : List UInt8) :
    bigEndian bytes.length (ofBytes bytes) = bytes := by
  induction bytes using List.reverseRecOn with
  | nil => rfl
  | append_singleton bytes b ih =>
    have hb : b.toNat < 256 := b.toNat_lt
    have hquot : (256 * ofBytes bytes + b.toNat) / 256 = ofBytes bytes := by omega
    have hrem : (256 * ofBytes bytes + b.toNat) % 256 = b.toNat := by omega
    rw [ofBytes_append_singleton, List.length_append, List.length_singleton, bigEndian, hquot,
      hrem, ih, UInt8.ofNat_toNat]

theorem fits_ofBytes {bytes : List UInt8} (h : bytes.length = size) : Fits (ofBytes bytes) := by
  rw [fits_natCast_iff, ← h]
  exact ofBytes_lt bytes

theorem encode_ofBytes {bytes : List UInt8} (h : bytes.length = size) :
    encode (ofBytes bytes) = .ok bytes := by
  rw [encode_of_fits (fits_ofBytes h), Int.toNat_natCast, ← h, bigEndian_ofBytes]

theorem exists_encode_iff {n : Int} : (∃ bytes, encode n = .ok bytes) ↔ Fits n := by
  constructor
  · rintro ⟨bytes, hbytes⟩
    refine ⟨Int.not_lt.mp fun hneg => ?_, Int.not_lt.mp fun hlarge => ?_⟩
    · cases (encode_of_neg hneg).symm.trans hbytes
    · cases (encode_of_largest_lt hlarge).symm.trans hbytes
  · exact fun h => ⟨_, encode_of_fits h⟩

theorem of_encode {n : Int} {bytes : List UInt8} (h : encode n = .ok bytes) :
    bytes.length = size ∧ (ofBytes bytes : Int) = n := by
  have hfits : Fits n := exists_encode_iff.mp ⟨bytes, h⟩
  have hbytes : bigEndian size n.toNat = bytes :=
    Except.ok.inj ((encode_of_fits hfits).symm.trans h)
  rw [← hbytes]
  exact ⟨length_bigEndian size n.toNat, ofBytes_of_fits hfits⟩

/-! ## The order of bytes -/

theorem ofBytes_cons (b : UInt8) (rest : List UInt8) :
    ofBytes (b :: rest) = 256 ^ rest.length * b.toNat + ofBytes rest := by
  induction rest using List.reverseRecOn with
  | nil =>
    rw [List.length_nil, Nat.pow_zero, Nat.one_mul]
    exact Nat.zero_add b.toNat
  | append_singleton rest c ih =>
    rw [← List.cons_append, ofBytes_append_singleton, ih, ofBytes_append_singleton,
      List.length_append, List.length_singleton, Nat.pow_succ', Nat.mul_add, Nat.mul_assoc,
      Nat.add_assoc]

/-- Quotients by `m` decide before the remainders. -/
theorem mul_add_lt_mul_add_iff {m p q r s : Nat} (hr : r < m) (hs : s < m) :
    m * p + r < m * q + s ↔ p < q ∨ p = q ∧ r < s := by
  rcases Nat.lt_trichotomy p q with hlt | rfl | hgt
  · have hle : m * p + m ≤ m * q := Nat.mul_le_mul_left m hlt
    omega
  · omega
  · have hle : m * q + m ≤ m * p := Nat.mul_le_mul_left m hgt
    omega

/-- `<` on lists is lexicographic. -/
theorem ofBytes_lt_iff {a b : List UInt8} (h : a.length = b.length) :
    ofBytes a < ofBytes b ↔ a < b := by
  -- On the first byte and not the last, because lists are compared from the front.
  induction a generalizing b with
  | nil =>
    cases List.length_eq_zero_iff.mp h.symm
    exact iff_of_false (Nat.lt_irrefl 0) (List.lt_irrefl [])
  | cons x a ih =>
    cases b with
    | nil => cases h
    | cons y b =>
      have hlen : a.length = b.length := Nat.succ.inj h
      have ha : ofBytes a < 256 ^ b.length := hlen ▸ ofBytes_lt a
      rw [ofBytes_cons, ofBytes_cons, hlen, mul_add_lt_mul_add_iff ha (ofBytes_lt b), ih hlen,
        UInt8.toNat_inj, ← UInt8.lt_iff_toNat_lt, List.cons_lt_cons_iff]

theorem ofBytes_le_iff {a b : List UInt8} (h : a.length = b.length) :
    ofBytes a ≤ ofBytes b ↔ a ≤ b := by
  rw [← Nat.not_lt, ← List.not_lt, ofBytes_lt_iff h.symm]

theorem le_iff_of_encode {n m : Int} {a b : List UInt8} (ha : encode n = .ok a)
    (hb : encode m = .ok b) : n ≤ m ↔ a ≤ b := by
  obtain ⟨hlena, rfl⟩ := of_encode ha
  obtain ⟨hlenb, rfl⟩ := of_encode hb
  rw [Int.ofNat_le, ofBytes_le_iff (hlena.trans hlenb.symm)]

/-- The integers that have bytes are the words.  Writing and reading are inverse
to each other between the words and all lists of 32 bytes, and keep the order,
which is lexicographic on the side of the bytes. -/
theorem encode_bijective_monotone :
    (∀ n, (∃ bytes, encode n = .ok bytes) ↔ Fits n) ∧
    (∀ n bytes, encode n = .ok bytes → bytes.length = 32 ∧ (ofBytes bytes : Int) = n) ∧
    (∀ bytes, ofBytes bytes < 256 ^ bytes.length) ∧
    (∀ bytes : List UInt8, bytes.length = 32 → encode (ofBytes bytes) = .ok bytes) ∧
    ∀ n m, Fits n → Fits m →
      ∃ a b, encode n = .ok a ∧ encode m = .ok b ∧ (n ≤ m ↔ a ≤ b) := by
  refine ⟨fun _ => exists_encode_iff, fun _ _ => of_encode, ofBytes_lt, fun _ => encode_ofBytes,
    fun n m hn hm => ?_⟩
  obtain ⟨a, ha⟩ := exists_encode_iff.mpr hn
  obtain ⟨b, hb⟩ := exists_encode_iff.mpr hm
  exact ⟨a, b, ha, hb, le_iff_of_encode ha hb⟩

/-- Two words that the least significant byte alone would order the other way. -/
theorem encode_bijective_monotone_carry :
    let low : List UInt8 := List.replicate 31 0x00 ++ [0xFF]
    let high : List UInt8 := List.replicate 30 0x00 ++ [0x01, 0x00]
    low.length = 32 ∧ high.length = 32 ∧ Fits 255 ∧ Fits 256 ∧
      encode 255 = .ok low ∧ encode 256 = .ok high ∧ (ofBytes high : Int) = 256 ∧ low ≤ high := by
  intro low high
  have hlow : encode 255 = .ok low := encode_bijective_monotone.2.2.2.1 low rfl
  have hhigh : encode 256 = .ok high := encode_bijective_monotone.2.2.2.1 high rfl
  obtain ⟨hlength, hvalue⟩ := encode_bijective_monotone.2.1 256 high hhigh
  have hfits255 : Fits 255 := by decide
  have hfits256 : Fits 256 := by decide
  obtain ⟨a, b, ha, hb, hle⟩ := encode_bijective_monotone.2.2.2.2 255 256 hfits255 hfits256
  cases hlow.symm.trans ha
  cases hhigh.symm.trans hb
  exact ⟨rfl, hlength, hfits255, hfits256, hlow, hhigh, hvalue, hle.mp (by decide)⟩

end WordCalc.Word
