import Mathlib.Data.Finset.Card
import Mathlib.Tactic.NormNum.Prime
import NovelPoly.Field.Span
import NovelPoly.Setup

/-!
The field `GF(2)[x] / (x^16 + x^5 + x^3 + x^2 + 1)` on 16-bit coefficient vectors, as `init`
walks it.

One step of the walk, `nextState`, is multiplication by `x`: it is linear (`nextState_xor`) and
has trivial kernel. `xpow e` is the state after `e` steps, and `gfMul a b` multiplies by the
columns `x^i · a`. The order of `x` is `MODULO = 3 · 5 · 17 · 257` (`xpow_eq_one_iff`): the walk
returns to `1` after `65535` steps and after no proper divisor of it, which four fast-power
evaluations check. So the powers `x^0, …, x^65534` are the `65535` nonzero vectors
(`exists_xpow`), and `gfMul` is commutative, associative, distributive and has inverses.
-/

namespace NovelPoly

open Function

/-! ### Linear maps of 16-bit values -/

/-- A GF(2)-linear map of 16-bit values. -/
structure Linear16 (f : Nat → Nat) : Prop where
  lt : ∀ a < 65536, f a < 65536
  zero : f 0 = 0
  xor : ∀ a b, a < 65536 → b < 65536 → f (a ^^^ b) = f a ^^^ f b

namespace Linear16

variable {f g : Nat → Nat}

theorem comp (hf : Linear16 f) (hg : Linear16 g) : Linear16 (f ∘ g) :=
  ⟨fun a ha => hf.lt _ (hg.lt a ha), by simp [hg.zero, hf.zero],
    fun a b ha hb => by simp only [comp_apply, hg.xor a b ha hb, hf.xor _ _ (hg.lt a ha) (hg.lt b hb)]⟩

theorem iterate (hf : Linear16 f) : ∀ k, Linear16 f^[k]
  | 0 => ⟨fun _ h => h, rfl, fun _ _ _ _ => rfl⟩
  | k + 1 => by rw [iterate_succ]; exact (iterate hf k).comp hf

/-- A linear map commutes with a span of 16-bit columns. -/
theorem span (hf : Linear16 f) {M : Nat → Nat} (hM : ∀ i < 16, M i < 65536) (v : Nat) :
    f (xorSpan M v 16) = xorSpan (fun i => f (M i)) v 16 :=
  xorSpan_map (w := 16) hf.zero hf.xor hM v

/-- A linear map is the span of its values on the unit vectors. -/
theorem eq_span (hf : Linear16 f) {v : Nat} (hv : v < 65536) :
    f v = xorSpan (fun i => f (2 ^ i)) v 16 := by
  conv_lhs => rw [← Nat.mod_eq_of_lt (show v < 2 ^ 16 from hv), ← xorSpan_pow_eq_mod]
  exact hf.span (fun i hi => Nat.pow_lt_pow_right (by decide) hi) v

/-- Linear maps that agree on the unit vectors agree on every 16-bit value. -/
theorem ext (hf : Linear16 f) (hg : Linear16 g) (h : ∀ i < 16, f (2 ^ i) = g (2 ^ i)) {v : Nat}
    (hv : v < 65536) : f v = g v := by
  rw [hf.eq_span hv, hg.eq_span hv, xorSpan_congr h]

/-- A linear map with trivial kernel is injective. -/
theorem inj (hf : Linear16 f) (hker : ∀ a < 65536, f a = 0 → a = 0) {a b : Nat} (ha : a < 65536)
    (hb : b < 65536) (h : f a = f b) : a = b := by
  have hab : a ^^^ b < 65536 := Nat.xor_lt_two_pow (n := 16) ha hb
  have := hker _ hab (by rw [hf.xor a b ha hb, h, Nat.xor_self])
  rwa [Nat.xor_eq_zero] at this

end Linear16

theorem xorSpan_linear {M : Nat → Nat} (hM : ∀ i < 16, M i < 65536) :
    Linear16 (xorSpan M · 16) :=
  ⟨fun _ _ => xorSpan_lt (w := 16) hM _, xorSpan_zero_left M 16, fun a b _ _ => xorSpan_xor M a b 16⟩

/-! ### One step of the walk is multiplication by `x` -/

theorem nextState_eq {s : Nat} (hs : s < 65536) :
    nextState s = (s <<< 1) % 2 ^ 16 ^^^ (if s.testBit 15 then mask else 0) := by
  have hbit : s.testBit 15 = decide (s / 32768 % 2 = 1) := Nat.testBit_to_div_mod
  rw [nextState, Nat.shiftRight_eq_div_pow, hbit, Nat.shiftLeft_eq]
  by_cases h : s / 32768 % 2 = 1
  · rw [if_pos (by simp only [Nat.reducePow]; omega), if_pos (decide_eq_true h),
      show (32767 : Nat) = 2 ^ 15 - 1 from rfl, Nat.and_pow_two_sub_one_eq_mod, Nat.shiftLeft_eq]
    congr 1; omega
  · rw [if_neg (by simp only [Nat.reducePow]; omega), if_neg (by simpa using h), Nat.xor_zero]
    omega

theorem nextState_lt {s : Nat} (hs : s < 65536) : nextState s < 65536 := by
  rw [nextState_eq hs]
  exact Nat.xor_lt_two_pow (Nat.mod_lt _ (by decide)) (by split <;> decide)

theorem shiftLeft_mod_xor (a b : Nat) :
    ((a ^^^ b) <<< 1) % 2 ^ 16 = (a <<< 1) % 2 ^ 16 ^^^ (b <<< 1) % 2 ^ 16 :=
  Nat.eq_of_testBit_eq fun j => by
    simp only [Nat.testBit_mod_two_pow, Nat.testBit_shiftLeft, Nat.testBit_xor]
    cases decide (j < 16) <;> cases decide (j ≥ 1) <;> simp

/-- `nextState` is multiplication by `x`: linear on 16-bit values. -/
theorem nextState_linear : Linear16 nextState where
  lt _ := nextState_lt
  zero := rfl
  xor a b ha hb := by
    rw [nextState_eq (Nat.xor_lt_two_pow (n := 16) ha hb), nextState_eq ha, nextState_eq hb,
      shiftLeft_mod_xor, Nat.testBit_xor, ite_xor_distrib]
    ac_rfl

/-- Multiplication by `x` has trivial kernel: `x^16 + x^5 + x^3 + x^2 + 1` has a constant term. -/
theorem nextState_eq_zero {s : Nat} (hs : s < 65536) (h : nextState s = 0) : s = 0 := by
  have hbit : s.testBit 15 = decide (s / 32768 % 2 = 1) := Nat.testBit_to_div_mod
  rw [nextState_eq hs, Nat.xor_eq_zero, Nat.shiftLeft_eq, hbit] at h
  split at h
  · rename_i h'; simp only [decide_eq_true_eq] at h'; simp only [mask] at h; omega
  · rename_i h'; simp only [decide_eq_true_eq] at h'; omega

theorem iterate_inj (k : Nat) {a b : Nat} (ha : a < 65536) (hb : b < 65536)
    (h : nextState^[k] a = nextState^[k] b) : a = b := by
  induction k generalizing a b with
  | zero => exact h
  | succ k ih =>
    rw [iterate_succ_apply, iterate_succ_apply] at h
    exact nextState_linear.inj (fun _ => nextState_eq_zero) ha hb
      (ih (nextState_lt ha) (nextState_lt hb) h)

/-! ### Powers of `x` and the product -/

/-- `x^e`: the state of `init`'s walk after `e` steps from `1`. -/
def xpow (e : Nat) : Nat := nextState^[e] 1

/-- The product of `GF(2)[x]/(x^16 + x^5 + x^3 + x^2 + 1)`: `a · b = ⊕_{bits i of b} x^i · a`. -/
def gfMul (a b : Nat) : Nat := xorSpan (fun i => nextState^[i] a) b 16

theorem xpow_lt (e : Nat) : xpow e < 65536 := (nextState_linear.iterate e).lt 1 (by decide)

theorem xpow_add (a b : Nat) : xpow (a + b) = nextState^[a] (xpow b) := iterate_add_apply _ _ _ _

theorem xpow_succ (e : Nat) : xpow (e + 1) = nextState (xpow e) := iterate_succ_apply' _ _ _

theorem xpow_eq_two_pow {i : Nat} (hi : i < 16) : xpow i = 2 ^ i := by
  have : ∀ i < 16, xpow i = 2 ^ i := by decide
  exact this i hi

theorem gfMul_lt {a : Nat} (ha : a < 65536) (b : Nat) : gfMul a b < 65536 :=
  xorSpan_lt (w := 16) (fun i _ => (nextState_linear.iterate i).lt a ha) b

theorem gfMul_linear {a : Nat} (ha : a < 65536) : Linear16 (gfMul a) :=
  xorSpan_linear fun i _ => (nextState_linear.iterate i).lt a ha

/-- Multiplying by `x^k` is `k` steps of the walk. -/
theorem gfMul_xpow_left (k : Nat) {b : Nat} (hb : b < 65536) : gfMul (xpow k) b = nextState^[k] b := by
  rw [(nextState_linear.iterate k).eq_span hb, gfMul]
  refine xorSpan_congr (fun i hi => ?_) b
  rw [xpow, ← iterate_add_apply, Nat.add_comm, iterate_add_apply, ← xpow, xpow_eq_two_pow hi]

theorem gfMul_xpow (a b : Nat) : gfMul (xpow a) (xpow b) = xpow (a + b) := by
  rw [gfMul_xpow_left a (xpow_lt b), xpow_add]

@[simp] theorem gfMul_zero_left (b : Nat) : gfMul 0 b = 0 := by
  rw [gfMul, @xorSpan_congr _ (fun _ => 0) _ (fun i _ => (nextState_linear.iterate i).zero)]
  induction 16 with
  | zero => rfl
  | succ n ih => simp [xorSpan, ih]

@[simp] theorem gfMul_zero_right (a : Nat) : gfMul a 0 = 0 := xorSpan_zero_left _ _

/-! ### The order of `x` -/

/-- `x^e` by squaring: `fuel` bits of `e`, most significant first. -/
def xpowFast : Nat → Nat → Nat
  | 0, _ => 1
  | fuel + 1, e =>
    let h := xpowFast fuel (e / 2)
    if e % 2 = 1 then nextState (gfMul h h) else gfMul h h

theorem xpowFast_eq : ∀ fuel e, e < 2 ^ fuel → xpowFast fuel e = xpow e
  | 0, e, he => by rw [show e = 0 by simpa using he]; rfl
  | fuel + 1, e, he => by
    have ih := xpowFast_eq fuel (e / 2) (by rw [Nat.pow_succ] at he; omega)
    have hsq : gfMul (xpow (e / 2)) (xpow (e / 2)) = xpow (2 * (e / 2)) := by
      rw [gfMul_xpow, Nat.two_mul]
    simp only [xpowFast, ih, hsq]
    split <;> [rw [← xpow_succ]; skip] <;> congr 1 <;> omega

theorem xpow_mul_add {e : Nat} (he : xpow e = 1) (q r : Nat) : xpow (e * q + r) = xpow r := by
  induction q with
  | zero => simp
  | succ q ih => rw [Nat.mul_succ, Nat.add_right_comm, xpow, iterate_add_apply, ← xpow, he, ← xpow, ih]

theorem xpow_mod {e : Nat} (he : xpow e = 1) (f : Nat) : xpow f = xpow (f % e) := by
  conv_lhs => rw [← Nat.div_add_mod f e, Nat.mul_comm]
  rw [Nat.mul_comm, xpow_mul_add he]

theorem xpow_gcd {e f : Nat} (he : xpow e = 1) (hf : xpow f = 1) : xpow (Nat.gcd e f) = 1 := by
  induction e, f using Nat.gcd.induction with
  | H0 n => rwa [Nat.gcd_zero_left]
  | H1 m n _ ih => rw [Nat.gcd_rec]; exact ih (by rwa [← xpow_mod he]) he

/-- A proper divisor of `65535 = 3 · 5 · 17 · 257` divides `65535 / p` for one of its primes `p`. -/
theorem dvd_of_dvd_modulo {g : Nat} (hg : g ∣ 65535) (hne : g ≠ 65535) :
    g ∣ 21845 ∨ g ∣ 13107 ∨ g ∣ 3855 ∨ g ∣ 255 := by
  obtain ⟨c, hc⟩ := hg
  obtain ⟨p, hp, hpc⟩ := Nat.exists_prime_and_dvd (show c ≠ 1 by rintro rfl; omega)
  have hq : ∀ q, q ∣ c → g ∣ 65535 / q := fun q hqc =>
    ⟨c / q, by rw [hc, Nat.mul_div_assoc g hqc]⟩
  have hp' : p ∣ 3 * 5 * 17 * 257 := Nat.dvd_trans hpc (Dvd.intro_left g hc.symm)
  have hprime : ∀ q, Nat.Prime q → p ∣ q → p = q := fun q hq h => (Nat.prime_dvd_prime_iff_eq hp hq).1 h
  rcases (Nat.Prime.dvd_mul hp).1 hp' with h | h
  · rcases (Nat.Prime.dvd_mul hp).1 h with h | h
    · rcases (Nat.Prime.dvd_mul hp).1 h with h | h
      · obtain rfl := hprime 3 Nat.prime_three h; exact .inl (hq _ hpc)
      · obtain rfl := hprime 5 (by norm_num) h; exact .inr (.inl (hq _ hpc))
    · obtain rfl := hprime 17 (by norm_num) h; exact .inr (.inr (.inl (hq _ hpc)))
  · obtain rfl := hprime 257 (by norm_num) h; exact .inr (.inr (.inr (hq _ hpc)))

set_option maxRecDepth 20000 in
/-- The four fast-power evaluations: `x^65535 = 1` and `x^(65535/p) ≠ 1` for `p = 3, 5, 17, 257`. -/
theorem xpowFast_checks : xpowFast 16 65535 = 1 ∧ xpowFast 16 21845 ≠ 1 ∧ xpowFast 16 13107 ≠ 1 ∧
    xpowFast 16 3855 ≠ 1 ∧ xpowFast 16 255 ≠ 1 := by
  decide

theorem xpow_modulo : xpow 65535 = 1 := by
  rw [← xpowFast_eq 16 65535 (by decide)]; exact xpowFast_checks.1

/-- `x` has order `MODULO`: `x^e = 1` exactly for the multiples of `65535`. -/
theorem xpow_eq_one_iff (e : Nat) : xpow e = 1 ↔ 65535 ∣ e := by
  have hdvd_one : ∀ {g d}, xpow g = 1 → g ∣ d → xpow d = 1 := fun hg ⟨q, hq⟩ => by
    rw [hq, ← Nat.add_zero (_ * q), xpow_mul_add hg]; rfl
  refine ⟨fun he => ?_, hdvd_one xpow_modulo⟩
  by_contra hdvd
  have hg := xpow_gcd he xpow_modulo
  have hne : Nat.gcd e 65535 ≠ 65535 := fun h => hdvd (h ▸ Nat.gcd_dvd_left e 65535)
  obtain ⟨-, h3, h5, h17, h257⟩ := xpowFast_checks
  rw [xpowFast_eq 16 _ (by decide)] at h3 h5 h17 h257
  rcases dvd_of_dvd_modulo (Nat.gcd_dvd_right e 65535) hne with h | h | h | h
  exacts [h3 (hdvd_one hg h), h5 (hdvd_one hg h), h17 (hdvd_one hg h), h257 (hdvd_one hg h)]

/-! ### The powers of `x` are the nonzero vectors -/

theorem xpow_ne_zero (e : Nat) : xpow e ≠ 0 := by
  intro h
  have h1 := (xpow_eq_one_iff (65535 * (e + 1))).2 ⟨_, rfl⟩
  rw [show 65535 * (e + 1) = (65535 * (e + 1) - e) + e by omega, xpow_add, h,
    (nextState_linear.iterate _).zero] at h1
  exact absurd h1 (by decide)

/-- The powers `x^0, …, x^65534` are distinct. -/
theorem xpow_inj {i j : Nat} (hi : i < 65535) (hj : j < 65535) (h : xpow i = xpow j) : i = j := by
  wlog hij : i ≤ j generalizing i j
  · exact (this hj hi h.symm (by omega)).symm
  have h' : nextState^[i] 1 = nextState^[i] (xpow (j - i)) := by
    rw [← xpow_add, Nat.add_sub_cancel' hij]; exact h
  have := (xpow_eq_one_iff (j - i)).1 (iterate_inj i (by decide) (xpow_lt _) h').symm
  omega

/-- Every nonzero 16-bit value is one of the powers `x^0, …, x^65534`. -/
theorem exists_xpow {s : Nat} (hs0 : s ≠ 0) (hs : s < 65536) : ∃ e < 65535, xpow e = s := by
  have hsub : (Finset.range 65535).image xpow ⊆ (Finset.range 65536).erase 0 := fun v hv => by
    obtain ⟨e, -, rfl⟩ := Finset.mem_image.1 hv
    exact Finset.mem_erase.2 ⟨xpow_ne_zero e, Finset.mem_range.2 (xpow_lt e)⟩
  have hcard : ((Finset.range 65536).erase 0).card ≤ ((Finset.range 65535).image xpow).card := by
    rw [Finset.card_image_of_injOn fun i hi j hj h => xpow_inj (by simpa using hi) (by simpa using hj) h,
      Finset.card_erase_of_mem (by simp), Finset.card_range, Finset.card_range]
  have hmem := (Finset.eq_of_subset_of_card_le hsub hcard).symm ▸
    Finset.mem_erase.2 ⟨hs0, Finset.mem_range.2 hs⟩
  simpa using hmem

theorem zero_or_xpow {s : Nat} (hs : s < 65536) : s = 0 ∨ ∃ e, xpow e = s := by
  by_cases h : s = 0
  · exact .inl h
  · obtain ⟨e, -, he⟩ := exists_xpow h hs; exact .inr ⟨e, he⟩

/-! ### Field laws of the product -/

section Laws

variable {a b c : Nat}

theorem gfMul_comm (ha : a < 65536) (hb : b < 65536) : gfMul a b = gfMul b a := by
  rcases zero_or_xpow ha with rfl | ⟨i, rfl⟩; · simp
  rcases zero_or_xpow hb with rfl | ⟨j, rfl⟩; · simp
  rw [gfMul_xpow, gfMul_xpow, Nat.add_comm]

theorem gfMul_assoc (ha : a < 65536) (hb : b < 65536) (hc : c < 65536) :
    gfMul (gfMul a b) c = gfMul a (gfMul b c) := by
  rcases zero_or_xpow ha with rfl | ⟨i, rfl⟩; · simp
  rcases zero_or_xpow hb with rfl | ⟨j, rfl⟩; · simp
  rcases zero_or_xpow hc with rfl | ⟨k, rfl⟩; · simp
  simp only [gfMul_xpow, Nat.add_assoc]

theorem gfMul_xor (a b c : Nat) : gfMul a (b ^^^ c) = gfMul a b ^^^ gfMul a c := xorSpan_xor _ _ _ _

theorem gfMul_one_left (hb : b < 65536) : gfMul 1 b = b := gfMul_xpow_left 0 hb

theorem gfMul_one_right (ha : a < 65536) : gfMul a 1 = a := by
  rw [gfMul_comm ha (by decide), gfMul_one_left ha]

end Laws

/-- `a^n` by repeated multiplication. -/
def gfPow (a n : Nat) : Nat := (gfMul a)^[n] 1

/-- The inverse `a^65534` (`0` for `a = 0`). -/
def gfInv (a : Nat) : Nat := gfPow a 65534

theorem gfPow_xpow (i n : Nat) : gfPow (xpow i) n = xpow (i * n) := by
  induction n with
  | zero => rfl
  | succ n ih => rw [gfPow, iterate_succ_apply', ← gfPow, ih, gfMul_xpow, Nat.mul_succ, Nat.add_comm]

theorem gfInv_lt {a : Nat} (ha : a < 65536) : gfInv a < 65536 := by
  rcases zero_or_xpow ha with rfl | ⟨i, rfl⟩
  · rw [gfInv, gfPow, iterate_succ_apply', gfMul_zero_left]; decide
  · rw [gfInv, gfPow_xpow]; exact xpow_lt _

theorem gfInv_zero : gfInv 0 = 0 := by rw [gfInv, gfPow, iterate_succ_apply', gfMul_zero_left]

theorem gfMul_gfInv {a : Nat} (ha0 : a ≠ 0) (ha : a < 65536) : gfMul a (gfInv a) = 1 := by
  obtain ⟨i, -, rfl⟩ := exists_xpow ha0 ha
  rw [gfInv, gfPow_xpow, gfMul_xpow, show i + i * 65534 = 65535 * i by omega]
  exact (xpow_eq_one_iff _).2 ⟨i, rfl⟩

end NovelPoly
