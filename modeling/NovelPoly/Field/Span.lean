import Mathlib.Data.Nat.Bitwise
import NovelPoly.Basic

/-!
GF(2)-linear maps on symbols, written as bitmasks. `xorSpan M v n` is the XOR of the columns
`M i`, `i < n`, that the bits of `v` select: the image of `v` under the linear map whose columns
are `M`. `init` builds `LOG_TABLE` from `Base` this way (the Cantor-basis map), and a product by a
fixed field element acts on the bits of the other factor this way.

The lemmas say that the span is linear (`xorSpan_xor`), picks out one column on a power of two
(`xorSpan_two_pow`), is the identity on the unit columns (`xorSpan_pow_eq_mod`), and commutes with
every map that is linear on `w`-bit values (`xorSpan_map`).
-/

namespace NovelPoly

/-- `⊕_{i < n, bit i of v set} M i`. -/
def xorSpan (M : Nat → Nat) (v : Nat) : Nat → Nat
  | 0 => 0
  | n + 1 => xorSpan M v n ^^^ (if v.testBit n then M n else 0)

theorem ite_xor_distrib (p q : Bool) (m : Nat) :
    (if (p ^^ q) = true then m else 0) = (if p then m else 0) ^^^ (if q then m else 0) := by
  cases p <;> cases q <;> simp

@[simp] theorem xorSpan_zero_left (M : Nat → Nat) (n : Nat) : xorSpan M 0 n = 0 := by
  induction n with
  | zero => rfl
  | succ n ih => simp [xorSpan, ih]

/-- The span is linear in the selecting bits. -/
theorem xorSpan_xor (M : Nat → Nat) (a b n : Nat) :
    xorSpan M (a ^^^ b) n = xorSpan M a n ^^^ xorSpan M b n := by
  induction n with
  | zero => simp [xorSpan]
  | succ n ih =>
    simp only [xorSpan, ih, Nat.testBit_xor, ite_xor_distrib]
    ac_rfl

theorem xorSpan_congr {M M' : Nat → Nat} {n : Nat} (h : ∀ i < n, M i = M' i) (v : Nat) :
    xorSpan M v n = xorSpan M' v n := by
  induction n with
  | zero => rfl
  | succ n ih => rw [xorSpan, xorSpan, ih fun i hi => h i (by omega), h n (by omega)]

/-- Bits of `v` at or above `n` select nothing. -/
theorem xorSpan_congr_bits (M : Nat → Nat) {v v' n : Nat} (h : ∀ i < n, v.testBit i = v'.testBit i) :
    xorSpan M v n = xorSpan M v' n := by
  induction n with
  | zero => rfl
  | succ n ih => rw [xorSpan, xorSpan, ih fun i hi => h i (by omega), h n (by omega)]

theorem xorSpan_lt {M : Nat → Nat} {n w : Nat} (hM : ∀ i < n, M i < 2 ^ w) (v : Nat) :
    xorSpan M v n < 2 ^ w := by
  induction n with
  | zero => exact Nat.two_pow_pos w
  | succ n ih =>
    refine Nat.xor_lt_two_pow (ih fun i hi => hM i (by omega)) ?_
    split
    · exact hM n (by omega)
    · exact Nat.two_pow_pos w

/-- On a power of two the span is the selected column. -/
theorem xorSpan_two_pow (M : Nat → Nat) {i n : Nat} (hi : i < n) : xorSpan M (2 ^ i) n = M i := by
  induction n with
  | zero => omega
  | succ n ih =>
    rw [xorSpan, Nat.testBit_two_pow]
    rcases Nat.lt_or_ge i n with h | h
    · rw [ih h, decide_eq_false (by omega)]; simp
    · rw [show i = n by omega, @xorSpan_congr_bits M _ 0 _ fun j hj => by
        rw [Nat.testBit_two_pow, Nat.zero_testBit, decide_eq_false (by omega)]]
      simp

theorem testBit_xorSpan_pow (v n j : Nat) :
    (xorSpan (2 ^ ·) v n).testBit j = (decide (j < n) && v.testBit j) := by
  induction n with
  | zero => simp [xorSpan]
  | succ n ih =>
    rw [xorSpan, Nat.testBit_xor, ih]
    by_cases hv : v.testBit n <;> by_cases hj : j = n <;>
      simp [hv, hj, Nat.testBit_two_pow, show j < n + 1 ↔ j < n ∨ j = n by omega, eq_comm]

/-- On the unit columns the span keeps the low `n` bits. -/
theorem xorSpan_pow_eq_mod (v n : Nat) : xorSpan (2 ^ ·) v n = v % 2 ^ n :=
  Nat.eq_of_testBit_eq fun j => by rw [testBit_xorSpan_pow, Nat.testBit_mod_two_pow]

/-- Adding a value below `2^r` to a multiple of `2^r` sets disjoint bits. -/
theorem add_eq_xor_of_dvd {a j r : Nat} (ha : 2 ^ r ∣ a) (hj : j < 2 ^ r) : a + j = a ^^^ j := by
  obtain ⟨c, rfl⟩ := ha
  refine Nat.eq_of_testBit_eq fun k => ?_
  rw [Nat.testBit_mul_pow_two_add c hj, Nat.testBit_xor, Nat.testBit_mul_pow_two]
  by_cases hk : k < r
  · simp [hk, Nat.not_le_of_lt hk]
  · rw [if_neg hk, Nat.testBit_lt_two_pow (lt_of_lt_of_le hj (Nat.pow_le_pow_right (by decide) (by omega)))]
    simp [Nat.le_of_not_lt hk]

/-- Adding a power of two above the bits of `j` sets one more bit. -/
theorem add_two_pow_eq_xor {i j : Nat} (hj : j < 2 ^ i) : j + 2 ^ i = j ^^^ 2 ^ i := by
  rw [Nat.add_comm, add_eq_xor_of_dvd (Nat.dvd_refl _) hj, Nat.xor_comm]

/-- Bit `s` of `t` is clear exactly when `t mod 2^(s+1)` is below `2^s`. -/
theorem testBit_eq_false_iff_mod_lt {t s : Nat} : t.testBit s = false ↔ t % 2 ^ (s + 1) < 2 ^ s := by
  have hbit : (t % 2 ^ (s + 1)).testBit s = t.testBit s := by simp [Nat.testBit_mod_two_pow]
  have hlt : t % 2 ^ (s + 1) < 2 * 2 ^ s := by rw [← Nat.pow_succ']; exact Nat.mod_lt _ (Nat.two_pow_pos _)
  rw [← hbit]
  refine ⟨fun h => Nat.lt_of_not_le fun hle => ?_, Nat.testBit_lt_two_pow⟩
  obtain ⟨e, he⟩ := Nat.exists_eq_add_of_le hle
  rw [he, Nat.testBit_two_pow_add_eq, Nat.testBit_lt_two_pow (by omega)] at h
  exact absurd h (by decide)

/-- Setting a clear bit adds its power. -/
theorem add_two_pow_eq_xor_of_testBit {j s : Nat} (h : j.testBit s = false) : j + 2 ^ s = j ^^^ 2 ^ s := by
  have hb := testBit_eq_false_iff_mod_lt.1 h
  have hd := Nat.div_add_mod j (2 ^ (s + 1))
  have hP : 2 ^ (s + 1) = 2 * 2 ^ s := by rw [Nat.pow_succ, Nat.mul_comm]
  have hs : j % 2 ^ (s + 1) + 2 ^ s < 2 ^ (s + 1) := by omega
  calc j + 2 ^ s = 2 ^ (s + 1) * (j / 2 ^ (s + 1)) + (j % 2 ^ (s + 1) + 2 ^ s) := by omega
    _ = 2 ^ (s + 1) * (j / 2 ^ (s + 1)) ^^^ (j % 2 ^ (s + 1) ^^^ 2 ^ s) := by
      rw [add_eq_xor_of_dvd (Nat.dvd_mul_right _ _) hs, add_two_pow_eq_xor hb]
    _ = j ^^^ 2 ^ s := by
      rw [← Nat.xor_assoc, ← add_eq_xor_of_dvd (Nat.dvd_mul_right _ _) (Nat.mod_lt _ (Nat.two_pow_pos _)), hd]

/-- Clearing a set bit subtracts its power. -/
theorem sub_two_pow_eq_xor_of_testBit {i s : Nat} (h : i.testBit s = true) : i - 2 ^ s = i ^^^ 2 ^ s := by
  have h' : (i ^^^ 2 ^ s).testBit s = false := by simp [Nat.testBit_xor, h]
  have := add_two_pow_eq_xor_of_testBit h'
  rw [Nat.xor_assoc, Nat.xor_self, Nat.xor_zero] at this
  omega

/-- A map that is linear on `w`-bit values commutes with a span of `w`-bit columns. -/
theorem xorSpan_map {f : Nat → Nat} {w : Nat} (hf0 : f 0 = 0)
    (hf : ∀ a b, a < 2 ^ w → b < 2 ^ w → f (a ^^^ b) = f a ^^^ f b) {M : Nat → Nat} {n : Nat}
    (hM : ∀ i < n, M i < 2 ^ w) (v : Nat) : f (xorSpan M v n) = xorSpan (fun i => f (M i)) v n := by
  induction n with
  | zero => exact hf0
  | succ n ih =>
    have hM' : ∀ i < n, M i < 2 ^ w := fun i hi => hM i (by omega)
    rw [xorSpan, xorSpan, hf _ _ (xorSpan_lt hM' v) (by split <;> simp [hM n (by omega), Nat.two_pow_pos]), ih hM']
    split <;> simp [hf0]

end NovelPoly
