import Mathlib.LinearAlgebra.Lagrange
import NovelPoly.Basis

/-!
The novel basis as polynomials over the symbol field.

`Ŵ_r` is `W_r(2^r)⁻¹ ∏_{u < 2^r} (X + u)`, of degree `2^r`, and `X̂_i`, the product of `Ŵ_r` over
the bits of `i`, has degree `i` at most (`exists_Xhat_poly`, by the top bit:
`X̂_{2^r + j} = Ŵ_r X̂_j`). So a coefficient block `c_0, …, c_{k-1}` in the novel basis is a
polynomial of degree below `k` (`exists_poly_of_coeffs`), and such a polynomial is fixed by its
values at the `k` symbols `0, …, k-1` (`poly_eq_of_eval_eq`).
-/

namespace NovelPoly

open Finset Polynomial

/-- `Ŵ_r` is a polynomial of degree at most `2^r`. -/
theorem exists_What_poly (r : Nat) : ∃ p : GFSymbol[X], p.natDegree ≤ 2 ^ r ∧ ∀ x, p.eval x = What r x := by
  refine ⟨C (subspacePoly r (sym (2 ^ r)))⁻¹ * ∏ u ∈ range (2 ^ r), (X + C (sym u)), ?_, fun x => ?_⟩
  · refine (natDegree_C_mul_le _ _).trans ((natDegree_prod_le _ _).trans ?_)
    simp [natDegree_X_add_C]
  · simp [What, subspacePoly, eval_prod, div_eq_inv_mul]

/-- `X̂_i` is a polynomial of degree at most `i`: peel off the top bit, `X̂_{2^r + j} = Ŵ_r · X̂_j`. -/
theorem exists_Xhat_poly : ∀ r ≤ 16, ∀ i < 2 ^ r,
    ∃ p : GFSymbol[X], p.natDegree ≤ i ∧ ∀ x, p.eval x = Xhat i x
  | 0, _, i, hi => ⟨1, by simp, fun x => by rw [show i = 0 by simpa using hi, Xhat_zero, eval_one]⟩
  | r + 1, hr, i, hi => by
    rw [pow_succ] at hi
    by_cases h : i < 2 ^ r
    · exact exists_Xhat_poly r (by omega) i h
    · obtain ⟨j, rfl⟩ := Nat.exists_eq_add_of_le (Nat.le_of_not_lt h)
      obtain ⟨p, hp, hpe⟩ := exists_Xhat_poly r (by omega) j (by omega)
      obtain ⟨q, hq, hqe⟩ := exists_What_poly r
      exact ⟨q * p, natDegree_mul_le.trans (by omega), fun x => by
        rw [eval_mul, hqe, hpe, Xhat_two_pow_add (by omega) (by omega)]⟩

/-- A combination `∑_{i < k} c_i q_i` of polynomials of degrees `≤ i` has degree below `k`. -/
theorem degree_sum_lt {k : Nat} {q : Nat → GFSymbol[X]} (hq : ∀ i ∈ range k, (q i).natDegree ≤ i)
    (c : Nat → GFSymbol) : (∑ i ∈ range k, C (c i) * q i).degree < k :=
  lt_of_le_of_lt (degree_sum_le _ _) ((Finset.sup_lt_iff (WithBot.bot_lt_coe k)).2 fun i hi =>
    degree_le_natDegree.trans_lt (WithBot.coe_lt_coe.2
      (lt_of_le_of_lt ((natDegree_C_mul_le _ _).trans (hq i hi)) (mem_range.1 hi))))

/-- A combination `∑_{i < k} c_i X̂_i`, `k ≤ 2^16`, is a polynomial of degree below `k`. -/
theorem exists_poly_of_coeffs {k : Nat} (hk : k ≤ 65536) (c : Nat → GFSymbol) :
    ∃ p : GFSymbol[X], p.degree < k ∧ ∀ x, p.eval x = ∑ i ∈ range k, c i * Xhat i x := by
  have : ∀ i ∈ range k, ∃ p : GFSymbol[X], p.natDegree ≤ i ∧ ∀ x, p.eval x = Xhat i x :=
    fun i hi => exists_Xhat_poly 16 le_rfl i (by have := mem_range.1 hi; omega)
  choose! q hq hqe using this
  refine ⟨∑ i ∈ range k, C (c i) * q i, degree_sum_lt hq c, fun x => ?_⟩
  rw [eval_finset_sum]
  exact sum_congr rfl fun i hi => by rw [eval_mul, eval_C, hqe i hi]

theorem sym_injOn : Set.InjOn sym (Set.Iio 65536) := fun a ha b hb h => by
  rw [← val_sym ha, ← val_sym hb, h]

/-- Two polynomials of degree below `k ≤ 2^16` that agree on the symbols `0, …, k-1` are equal. -/
theorem poly_eq_of_eval_eq {k : Nat} (hk : k ≤ 65536) {p q : GFSymbol[X]} (hp : p.degree < k)
    (hq : q.degree < k) (h : ∀ i < k, p.eval (sym i) = q.eval (sym i)) : p = q := by
  have hcard : ((range k).image sym).card = k := by
    rw [card_image_of_injOn (sym_injOn.mono fun i hi => by
      simp only [coe_range, Set.mem_Iio] at hi ⊢; omega), card_range]
  refine eq_of_degrees_lt_of_eval_finset_eq ((range k).image sym) (by rwa [hcard]) (by rwa [hcard]) ?_
  simp only [mem_image, mem_range]
  rintro _ ⟨i, hi, rfl⟩
  exact h i hi

end NovelPoly
