import Mathlib.Algebra.Polynomial.Derivative
import NovelPoly.Interpolate

/-!
The formal derivative in the novel basis.

`Ŵ_r` is a `2`-polynomial up to scaling, so its derivative is a constant, `Ŵ_r' = ∏_{s < r} renorm s⁻¹`
(`exists_What_poly_deriv`: `(Ŵ_r (Ŵ_r + 1))' = Ŵ_r'` in characteristic `2`). By the product rule
`X̂_i' = ∑_{bits s of i} Ŵ_s' X̂_{i - 2^s}` (`exists_Xhat_poly_deriv`), and collecting the terms by
`j = i - 2^s` gives the coefficients of `P'` from those of `P` (`derivative_eval`): the coefficient
of `X̂_j` is `∑ Ŵ_s' c_{j + 2^s}` over the clear bits `s` of `j`, the shape of `formal_derivative`.
-/

namespace NovelPoly

open Finset Polynomial

/-- `Ŵ_r' = ∏_{s < r} (renorm s)⁻¹`: the derivative of `Ŵ_r`, a constant. -/
def derivConst (r : Nat) : GFSymbol := ∏ s ∈ range r, (renorm s)⁻¹

theorem derivConst_succ (r : Nat) : derivConst (r + 1) = derivConst r * (renorm r)⁻¹ :=
  prod_range_succ _ _

theorem poly_two_eq_zero : (2 : GFSymbol[X]) = 0 := by
  rw [← map_ofNat C 2, GFSymbol.two_eq_zero, C_0]

/-- `Ŵ_r` is a polynomial of degree at most `2^r` whose derivative is the constant `Ŵ_r'`:
`Ŵ_{r+1} = Ŵ_r (Ŵ_r + 1) / renorm r`, and `(Ŵ_r (Ŵ_r + 1))' = Ŵ_r'` in characteristic `2`. -/
theorem exists_What_poly_deriv : ∀ r < 16, ∃ p : GFSymbol[X],
    p.natDegree ≤ 2 ^ r ∧ (∀ x, p.eval x = What r x) ∧ derivative p = C (derivConst r)
  | 0, _ => ⟨X, by simp, fun x => by rw [eval_X, What_zero_left], by simp [derivConst]⟩
  | r + 1, hr => by
    obtain ⟨p, hp, hpe, hpd⟩ := exists_What_poly_deriv r (by omega)
    refine ⟨C (renorm r)⁻¹ * (p * (p + 1)), ?_, fun x => ?_, ?_⟩
    · refine (natDegree_C_mul_le _ _).trans (natDegree_mul_le.trans ?_)
      have := (natDegree_add_le p 1).trans (max_le hp (by simp))
      rw [pow_succ]; omega
    · rw [eval_mul, eval_C, eval_mul, eval_add, eval_one, hpe, What_succ_renorm (by omega), div_eq_inv_mul]
    · rw [derivative_mul, derivative_C, zero_mul, zero_add, derivative_mul, derivative_add, derivative_one,
        add_zero, hpd, derivConst_succ, C_mul]
      linear_combination (C (renorm r)⁻¹ * (C (derivConst r) * p)) * poly_two_eq_zero

/-- `X̂_i` is a polynomial of degree at most `i`, and `X̂_i' = ∑_{bits s of i} Ŵ_s' X̂_{i - 2^s}`. -/
theorem exists_Xhat_poly_deriv : ∀ r ≤ 16, ∀ i < 2 ^ r, ∃ p : GFSymbol[X], p.natDegree ≤ i ∧
    (∀ x, p.eval x = Xhat i x) ∧ ∀ x, (derivative p).eval x =
      ∑ s ∈ (range 16).filter (fun s => i.testBit s), derivConst s * Xhat (i - 2 ^ s) x
  | 0, _, i, hi => ⟨1, by simp, fun x => by rw [show i = 0 by simpa using hi, Xhat_zero, eval_one],
      fun x => by simp [show i = 0 by simpa using hi]⟩
  | r + 1, hr, i, hi => by
    rw [pow_succ] at hi
    by_cases h : i < 2 ^ r
    · exact exists_Xhat_poly_deriv r (by omega) i h
    · obtain ⟨j, rfl⟩ := Nat.exists_eq_add_of_le (Nat.le_of_not_lt h)
      have hj : j < 2 ^ r := by omega
      obtain ⟨q, hq, hqe, hqd⟩ := exists_Xhat_poly_deriv r (by omega) j hj
      obtain ⟨w, hw, hwe, hwd⟩ := exists_What_poly_deriv r (by omega)
      refine ⟨w * q, natDegree_mul_le.trans (by omega), fun x => by
        rw [eval_mul, hwe, hqe, Xhat_two_pow_add (by omega) hj], fun x => ?_⟩
      rw [bits_two_pow_add (by omega) hj, sum_insert (by simp [Nat.testBit_lt_two_pow hj]),
        derivative_mul, hwd, eval_add, eval_mul, eval_mul, eval_C, hqe, hwe, hqd, mul_sum,
        Nat.add_sub_cancel_left]
      congr 1
      refine sum_congr rfl fun s hs => ?_
      have hsj : 2 ^ s ≤ j := Nat.le_of_not_lt fun h => by simp [Nat.testBit_lt_two_pow h] at hs
      have := Nat.two_pow_pos s
      rw [Nat.add_sub_assoc hsj, Xhat_two_pow_add (by omega) (by omega)]; ring

/-- The novel-basis coefficients of the derivative of `∑_{i < 2^m} c_i X̂_i`:
`X̂_i' = ∑_{bits s of i} Ŵ_s' X̂_{i - 2^s}`, collected by `j = i - 2^s`. -/
def derivCoeff (m : Nat) (c : Nat → GFSymbol) (j : Nat) : GFSymbol :=
  ∑ s ∈ (range m).filter (fun s => !j.testBit s), derivConst s * c (j + 2 ^ s)

/-- Below `2^m` the set bits are below `m`. -/
theorem bits_filter_of_lt {m i : Nat} (hm : m ≤ 16) (hi : i < 2 ^ m) :
    (range 16).filter (fun s => i.testBit s) = (range m).filter (fun s => i.testBit s) := by
  ext s
  simp only [mem_filter, mem_range]
  constructor
  · rintro ⟨hs, hb⟩
    refine ⟨Nat.lt_of_not_le fun h => ?_, hb⟩
    rw [Nat.testBit_lt_two_pow (lt_of_lt_of_le hi (Nat.pow_le_pow_right (by decide) h))] at hb
    exact absurd hb (by decide)
  · rintro ⟨hs, hb⟩; exact ⟨by omega, hb⟩

/-- Moving the derivative terms from `X̂_i` to `X̂_{i - 2^s}`: for each `s < m`, the map
`i ↦ i - 2^s` matches the `i < 2^m` with bit `s` set to the `j < 2^m` with bit `s` clear. -/
theorem sum_bit_shift {m s : Nat} (hs : s < m) (f : Nat → Nat → GFSymbol) :
    ∑ i ∈ (range (2 ^ m)).filter (fun i => i.testBit s), f i (i - 2 ^ s) =
      ∑ j ∈ (range (2 ^ m)).filter (fun j => !j.testBit s), f (j + 2 ^ s) j := by
  have hsm : 2 ^ s < 2 ^ m := Nat.pow_lt_pow_right (by decide) hs
  refine sum_nbij' (· ^^^ 2 ^ s) (· ^^^ 2 ^ s) (fun i hi => ?_) (fun j hj => ?_) (fun i _ => ?_)
    (fun j _ => ?_) (fun i hi => ?_)
  · simp only [mem_filter, mem_range] at hi ⊢
    exact ⟨Nat.xor_lt_two_pow hi.1 hsm, by simp [Nat.testBit_xor, hi.2]⟩
  · simp only [mem_filter, mem_range, Bool.not_eq_true'] at hj ⊢
    exact ⟨Nat.xor_lt_two_pow hj.1 hsm, by simp [Nat.testBit_xor, hj.2]⟩
  · simp only [Nat.xor_assoc, Nat.xor_self, Nat.xor_zero]
  · simp only [Nat.xor_assoc, Nat.xor_self, Nat.xor_zero]
  · have hb := (mem_filter.1 hi).2
    have hb' : (i ^^^ 2 ^ s).testBit s = false := by simp [Nat.testBit_xor, hb]
    rw [sub_two_pow_eq_xor_of_testBit hb, add_two_pow_eq_xor_of_testBit hb', Nat.xor_assoc, Nat.xor_self,
      Nat.xor_zero]

/-- If `c` holds the novel-basis coefficients of `P`, of degree below `2^m`, then `derivCoeff m c`
holds those of `P'`. -/
theorem derivative_eval {m : Nat} (hm : m ≤ 16) {P : GFSymbol[X]} (hP : P.degree < ↑(2 ^ m))
    {c : Nat → GFSymbol} (hPc : ∀ x, P.eval x = ∑ i ∈ range (2 ^ m), c i * Xhat i x) (x : GFSymbol) :
    (derivative P).eval x = ∑ j ∈ range (2 ^ m), derivCoeff m c j * Xhat j x := by
  have hk : 2 ^ m ≤ 65536 := Nat.pow_le_pow_right (by decide) hm
  have : ∀ i ∈ range (2 ^ m), ∃ p : GFSymbol[X], p.natDegree ≤ i ∧ (∀ x, p.eval x = Xhat i x) ∧
      ∀ x, (derivative p).eval x =
        ∑ s ∈ (range 16).filter (fun s => i.testBit s), derivConst s * Xhat (i - 2 ^ s) x :=
    fun i hi => exists_Xhat_poly_deriv 16 le_rfl i (by have := mem_range.1 hi; omega)
  choose! q hq hqe hqd using this
  have hPq : P = ∑ i ∈ range (2 ^ m), C (c i) * q i := by
    refine poly_eq_of_eval_eq hk hP (degree_sum_lt hq c) fun i _ => ?_
    rw [hPc, eval_finset_sum]
    exact sum_congr rfl fun i hi => by rw [eval_mul, eval_C, hqe i hi]
  calc (derivative P).eval x
      = ∑ i ∈ range (2 ^ m), ∑ s ∈ range m, if i.testBit s then c i * (derivConst s * Xhat (i - 2 ^ s) x) else 0 := by
        rw [hPq, derivative_sum, eval_finset_sum]
        refine sum_congr rfl fun i hi => ?_
        rw [derivative_mul, derivative_C, zero_mul, zero_add, eval_mul, eval_C, hqd i hi,
          bits_filter_of_lt hm (mem_range.1 hi), sum_filter, mul_sum]
        exact sum_congr rfl fun s _ => by split_ifs <;> simp
    _ = ∑ s ∈ range m, ∑ j ∈ (range (2 ^ m)).filter (fun j => !j.testBit s), derivConst s * c (j + 2 ^ s) * Xhat j x := by
        rw [sum_comm]
        refine sum_congr rfl fun s hs => ?_
        rw [← sum_filter, sum_bit_shift (mem_range.1 hs) fun i j => c i * (derivConst s * Xhat j x)]
        exact sum_congr rfl fun j _ => by ring
    _ = ∑ j ∈ range (2 ^ m), derivCoeff m c j * Xhat j x := by
        simp only [sum_filter, derivCoeff, sum_mul]
        rw [sum_comm]
        exact sum_congr rfl fun j _ => sum_congr rfl fun s _ => by split_ifs <;> simp

end NovelPoly
