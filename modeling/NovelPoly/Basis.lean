import Mathlib.Algebra.BigOperators.Group.Finset
import Mathlib.Algebra.CharP.Two
import Mathlib.Algebra.EuclideanDomain.Field
import Mathlib.Tactic.FieldSimp
import Mathlib.Tactic.LinearCombination
import NovelPoly.Field.Symbol

/-!
The novel polynomial basis of Lin, Chung and Han ("Novel Polynomial Basis and Its Application to
Reed-Solomon Erasure Codes", the paper `RSErasureCode.c` implements), over the symbol field.

The subspace polynomial `W_r(x) = ∏_{u < 2^r} (x + u)` vanishes exactly on the symbols below `2^r`
(`subspacePoly_eq_zero_iff`), and it is additive (`subspacePoly_add`): its recursion
`W_{r+1}(x) = W_r(x) · W_r(x + 2^r)` makes `W_{r+1}` the square of `W_r` plus a multiple of it, and
squaring is additive in characteristic `2`. `Ŵ_r = W_r / W_r(2^r)` takes the value `1` at `2^r`,
so on a block `[β, β + 2^{r+1})` with `2^{r+1} ∣ β` it is `Ŵ_r(β)` on the low half and `Ŵ_r(β) + 1`
on the high half (`What_low`, `What_high`). The basis is `X̂_i = ∏_{bits r of i} Ŵ_r`, so
`X̂_{2^r + i} = Ŵ_r · X̂_i` for `i < 2^r` (`Xhat_two_pow_add`): these two facts are the butterfly of
`FLT`. Last, `Ŵ_{r+1} = (Ŵ_r^2 + Ŵ_r) / (a^2 + a)` with `a = Ŵ_r(2^{r+1})` (`What_succ`), the
recursion by which `init_dec` computes the factors level by level.
-/

namespace NovelPoly

open Finset

namespace GFSymbol

theorem two_eq_zero : (2 : GFSymbol) = 0 := by
  rw [← one_add_one_eq_two]; exact GFSymbol.ext rfl

instance : CharP GFSymbol 2 :=
  CharTwo.of_one_ne_zero_of_two_eq_zero (fun h => absurd (congrArg GFSymbol.val h) (by decide)) two_eq_zero

end GFSymbol

/-! ### Symbols of natural numbers -/

/-- The symbol a `GFSymbol` store keeps of the value `n`: its low 16 bits. -/
def sym (n : Nat) : GFSymbol := ⟨n % 65536, Nat.mod_lt _ (by decide)⟩

@[simp] theorem sym_val (a : GFSymbol) : sym a.val = a := GFSymbol.ext (Nat.mod_eq_of_lt a.isLt)

theorem val_sym {n : Nat} (hn : n < 65536) : (sym n).val = n := Nat.mod_eq_of_lt hn

@[simp] theorem sym_zero : sym 0 = 0 := rfl

theorem sym_xor (a b : Nat) : sym (a ^^^ b) = sym a + sym b :=
  GFSymbol.ext <| Nat.eq_of_testBit_eq fun i => by
    show ((a ^^^ b) % 2 ^ 16).testBit i = ((a % 2 ^ 16) ^^^ (b % 2 ^ 16)).testBit i
    simp only [Nat.testBit_mod_two_pow, Nat.testBit_xor]
    cases decide (i < 16) <;> rfl

theorem sym_add_of_dvd {a j r : Nat} (ha : 2 ^ r ∣ a) (hj : j < 2 ^ r) :
    sym (a + j) = sym a + sym j := by
  rw [add_eq_xor_of_dvd ha hj, sym_xor]

/-! ### The subspace polynomials -/

/-- The subspace polynomial `W_r(x) = ∏_{u < 2^r} (x + u)`. -/
def subspacePoly (r : Nat) (x : GFSymbol) : GFSymbol := ∏ u ∈ range (2 ^ r), (x + sym u)

theorem subspacePoly_zero (x : GFSymbol) : subspacePoly 0 x = x := by
  simp [subspacePoly]

theorem subspacePoly_succ (r : Nat) (x : GFSymbol) :
    subspacePoly (r + 1) x = subspacePoly r x * subspacePoly r (x + sym (2 ^ r)) := by
  rw [subspacePoly, pow_succ, mul_two, prod_range_add]
  refine congrArg _ (prod_congr rfl fun u hu => ?_)
  rw [sym_add_of_dvd (Nat.dvd_refl _) (mem_range.1 hu), add_assoc]

/-- `W_r` is additive: `W_{r+1}(x) = W_r(x)^2 + W_r(2^r) W_r(x)`, and squaring is additive. -/
theorem subspacePoly_add (r : Nat) (x y : GFSymbol) :
    subspacePoly r (x + y) = subspacePoly r x + subspacePoly r y := by
  induction r generalizing x y with
  | zero => simp only [subspacePoly_zero]
  | succ r ih =>
    simp only [subspacePoly_succ, ih]
    linear_combination (subspacePoly r x * subspacePoly r y) * GFSymbol.two_eq_zero

theorem subspacePoly_eq_zero_iff (r : Nat) (x : GFSymbol) :
    subspacePoly r x = 0 ↔ x.val < 2 ^ r := by
  rw [subspacePoly, prod_eq_zero_iff]
  constructor
  · rintro ⟨u, hu, h⟩
    rw [add_eq_zero_iff_eq_neg, CharTwo.neg_eq] at h
    rw [h]; exact lt_of_le_of_lt (Nat.mod_le _ _) (mem_range.1 hu)
  · intro h; exact ⟨x.val, mem_range.2 h, by rw [sym_val, CharTwo.add_self_eq_zero]⟩

theorem subspacePoly_two_pow_ne_zero {r : Nat} (hr : r < 16) : subspacePoly r (sym (2 ^ r)) ≠ 0 := by
  rw [Ne, subspacePoly_eq_zero_iff, val_sym (Nat.pow_lt_pow_right (by decide) hr)]
  exact lt_irrefl _

/-! ### The normalised subspace polynomials -/

/-- `Ŵ_r = W_r / W_r(2^r)`. -/
def What (r : Nat) (x : GFSymbol) : GFSymbol := subspacePoly r x / subspacePoly r (sym (2 ^ r))

theorem What_add (r : Nat) (x y : GFSymbol) : What r (x + y) = What r x + What r y := by
  rw [What, What, What, subspacePoly_add, add_div]

theorem What_eq_zero_iff {r : Nat} (hr : r < 16) (x : GFSymbol) : What r x = 0 ↔ x.val < 2 ^ r := by
  rw [What, div_eq_zero_iff, subspacePoly_eq_zero_iff, or_iff_left (subspacePoly_two_pow_ne_zero hr)]

theorem What_two_pow {r : Nat} (hr : r < 16) : What r (sym (2 ^ r)) = 1 :=
  div_self (subspacePoly_two_pow_ne_zero hr)

theorem What_zero_left (x : GFSymbol) : What 0 x = x := by
  rw [What, subspacePoly_zero, subspacePoly_zero, show sym (2 ^ 0) = 1 from rfl, div_one]

theorem What_of_lt {r t : Nat} (hr : r < 16) (ht : t < 2 ^ r) : What r (sym t) = 0 :=
  (What_eq_zero_iff hr _).2 (lt_of_le_of_lt (Nat.mod_le _ _) ht)

/-- On the low half of a block `[β, β + 2^{r+1})`, `Ŵ_r` is its value at the block start. -/
theorem What_low {r β t : Nat} (hr : r < 16) (hβ : 2 ^ (r + 1) ∣ β) (ht : t < 2 ^ r) :
    What r (sym (β + t)) = What r (sym β) := by
  rw [sym_add_of_dvd hβ (lt_of_lt_of_le ht (Nat.pow_le_pow_right (by decide) (by omega))), What_add,
    What_of_lt hr ht, add_zero]

/-- On the high half of a block `[β, β + 2^{r+1})`, `Ŵ_r` is its value at the block start plus `1`. -/
theorem What_high {r β t : Nat} (hr : r < 16) (hβ : 2 ^ (r + 1) ∣ β) (ht : t < 2 ^ r) :
    What r (sym (β + (2 ^ r + t))) = What r (sym β) + 1 := by
  rw [sym_add_of_dvd hβ (by rw [Nat.pow_succ]; omega), What_add,
    sym_add_of_dvd (Nat.dvd_refl _) ht, What_add, What_two_pow hr, What_of_lt hr ht, add_zero]

/-- `Ŵ_{r+1} = (Ŵ_r^2 + Ŵ_r) / (a^2 + a)` with `a = Ŵ_r(2^{r+1})`. -/
theorem What_succ {r : Nat} (hr : r < 16) (x : GFSymbol) :
    What (r + 1) x = (What r x ^ 2 + What r x) /
      (What r (sym (2 ^ (r + 1))) ^ 2 + What r (sym (2 ^ (r + 1)))) := by
  have hc := subspacePoly_two_pow_ne_zero hr
  have key : ∀ y, subspacePoly (r + 1) y =
      subspacePoly r (sym (2 ^ r)) ^ 2 * (What r y ^ 2 + What r y) := fun y => by
    rw [subspacePoly_succ, subspacePoly_add, What]; field_simp; ring
  rw [What, key, key, mul_div_mul_left _ _ (pow_ne_zero 2 hc)]

/-! ### The basis -/

/-- The basis polynomial `X̂_i = ∏_{bits r of i} Ŵ_r`. -/
def Xhat (i : Nat) (x : GFSymbol) : GFSymbol :=
  ∏ r ∈ (range 16).filter (fun r => i.testBit r), What r x

theorem Xhat_zero (x : GFSymbol) : Xhat 0 x = 1 := by
  simp [Xhat]

/-- The set bits of `2^r + i`, `i < 2^r`, are those of `i` and `r`. -/
theorem bits_add_two_pow {a r : Nat} (hr : r < 16) (hra : a.testBit r = false) :
    (range 16).filter (fun k => (a + 2 ^ r).testBit k) = insert r ((range 16).filter (fun k => a.testBit k)) := by
  ext k
  simp only [mem_filter, mem_insert, mem_range, add_two_pow_eq_xor_of_testBit hra, Nat.testBit_xor,
    Nat.testBit_two_pow]
  by_cases hk : r = k
  · subst hk; simp [hr, hra]
  · simp [hk, Ne.symm hk]

theorem bits_two_pow_add {r i : Nat} (hr : r < 16) (hi : i < 2 ^ r) :
    (range 16).filter (fun k => (2 ^ r + i).testBit k) = insert r ((range 16).filter (fun k => i.testBit k)) := by
  rw [Nat.add_comm]; exact bits_add_two_pow hr (Nat.testBit_lt_two_pow hi)

theorem Xhat_two_pow_add {r i : Nat} (hr : r < 16) (hi : i < 2 ^ r) (x : GFSymbol) :
    Xhat (2 ^ r + i) x = What r x * Xhat i x := by
  rw [Xhat, bits_two_pow_add hr hi, prod_insert (by simp [Nat.testBit_lt_two_pow hi]), Xhat]

theorem Xhat_one (x : GFSymbol) : Xhat 1 x = x := by
  simpa only [What_zero_left, Xhat_zero, mul_one] using @Xhat_two_pow_add 0 0 (by decide) (by decide) x

/-- Splitting a block at `2^r`: `∑_{i < 2^(r+1)} c_i X̂_i = ∑_{i < 2^r} (c_i + Ŵ_r · c_{2^r+i}) X̂_i`. -/
theorem sum_Xhat_split {r : Nat} (hr : r < 16) (f : Nat → GFSymbol) (x : GFSymbol) :
    ∑ i ∈ range (2 ^ (r + 1)), f i * Xhat i x =
      ∑ i ∈ range (2 ^ r), (f i + What r x * f (2 ^ r + i)) * Xhat i x := by
  rw [pow_succ, mul_two, sum_range_add, ← sum_add_distrib]
  exact sum_congr rfl fun i hi => by rw [Xhat_two_pow_add hr (mem_range.1 hi)]; ring

/-! ### The renormalisation -/

/-- The factor `a (a + 1)`, `a = Ŵ_m(2^(m+1))`, that divides `Ŵ_m (Ŵ_m + 1)` into `Ŵ_{m+1}`. -/
def renorm (m : Nat) : GFSymbol := What m (sym (2 ^ (m + 1))) * (What m (sym (2 ^ (m + 1))) + 1)

theorem What_succ_renorm {m : Nat} (hm : m < 16) (x : GFSymbol) :
    What (m + 1) x = What m x * (What m x + 1) / renorm m := by
  rw [What_succ hm, renorm]; ring

theorem What_two_pow_ne_zero {m i : Nat} (hmi : m ≤ i) (hi : i < 15) : What m (sym (2 ^ (i + 1))) ≠ 0 := by
  have : 2 ^ m < 2 ^ (i + 1) := Nat.pow_lt_pow_right (by decide) (by omega)
  rw [Ne, What_eq_zero_iff (by omega), val_sym (Nat.pow_lt_pow_right (by decide) (show i + 1 < 16 by omega))]
  omega

theorem What_two_pow_add_one_ne_zero {m i : Nat} (hmi : m ≤ i) (hi : i < 15) :
    What m (sym (2 ^ (i + 1))) + 1 ≠ 0 := by
  have hlt : 2 ^ m < 2 ^ (i + 1) := Nat.pow_lt_pow_right (by decide) (by omega)
  have hle : 2 ^ (i + 1) ≤ 2 ^ 15 := Nat.pow_le_pow_right (by decide) (by omega)
  rw [← What_two_pow (show m < 16 by omega), ← What_add, ← sym_add_of_dvd (Nat.dvd_refl _) hlt, Ne,
    What_eq_zero_iff (by omega), val_sym (show 2 ^ (i + 1) + 2 ^ m < 65536 by omega)]
  exact Nat.not_lt.2 (Nat.le_add_left _ _)

theorem renorm_ne_zero {m : Nat} (hm : m < 15) : renorm m ≠ 0 :=
  mul_ne_zero (What_two_pow_ne_zero le_rfl hm) (What_two_pow_add_one_ne_zero le_rfl hm)

end NovelPoly
