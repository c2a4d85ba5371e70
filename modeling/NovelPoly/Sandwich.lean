import NovelPoly.Derivative
import NovelPoly.Evaluate

/-!
The derivative step of `decode_main`, and why it computes `P + P'`.

`formal_derivative` updates `cos` in place, but iteration `i` writes only the cells `[i - leng, i)`
and reads cells at or above `i`, which no earlier iteration wrote, so every read is of an input value
(`derivInv_step`). The iterations that write a cell `t < 2^m` are one per clear bit `s < m` of `t`,
the one with `leng = 2^s` (`sum_derivWriters`); cell `t` ends as `cos[t] ^ XOR_s cos[t + 2^s]`
(`formalDerivative_apply`). That is the derivative in the novel basis up to the factors `Ŵ_s'`, which
the two rescalings supply: `init_dec` leaves `gen^B[t] = ∏_{bits i of t} ∏_{u ≤ i} renorm u`
(`setup_B`), so the term `c[j + 2^s]` that reaches cell `j` is scaled by `Ŵ_s'` in all
(`setup_B_ratio`). With `derivative_eval`, the coefficients handed to `FLT` are those of `P + P'`,
and at a root of `P` the transform yields `P'` (`derivative_sandwich`).
-/

namespace NovelPoly

open Function Finset

/-! ### `formal_derivative` -/

/-- `leng = ((i ^ (i-1)) + 1) >> 1` of iteration `i` of `formal_derivative`: the lowest set bit. -/
def lowbit (i : Nat) : Nat := ((i ^^^ (i - 1)) + 1) >>> 1

theorem lowbit_two_pow_mul_odd (v q : Nat) : lowbit (2 ^ v * (2 * q + 1)) = 2 ^ v := lowbit_eq v q

theorem lowbit_pos_le {i : Nat} (hi : 0 < i) : 0 < lowbit i ∧ lowbit i ≤ i := by
  obtain ⟨v, q, rfl⟩ := exists_two_pow_mul_odd i (by omega)
  rw [lowbit_two_pow_mul_odd]
  exact ⟨Nat.two_pow_pos v, Nat.le_mul_of_pos_right _ (by omega)⟩

/-- The outer iterations `i < I` of `formal_derivative` whose pass writes cell `t`. -/
def derivWriters (I t : Nat) : Finset Nat :=
  (range I).filter fun i => 0 < i ∧ i - lowbit i ≤ t ∧ t < i

/-- After the outer iterations `i < I`, cell `t` holds its input plus the inputs `cos[t + leng_i]`
of the iterations `i` that wrote it. -/
def DerivInv (o : Buf) (I : Nat) (x : Buf) : Prop :=
  ∀ t, x t = (sym (o t) + ∑ i ∈ derivWriters I t, sym (o (t + lowbit i))).val

/-- Iteration `I` adds `cos[t + leng]` into the cells `t ∈ [I - leng, I)`; the cells it reads lie at
or above `I`, which no earlier iteration wrote, so they still hold their inputs. -/
theorem derivInv_step {o x : Buf} {I : Nat} (hI : 0 < I) (h : DerivInv o I x) :
    DerivInv o (I + 1) ((forRange (I - lowbit I) I).foldl
      (fun cos j => update cos j (cos j ^^^ cos (j + lowbit I))) x) := by
  obtain ⟨hL, hLI⟩ := lowbit_pos_le hI
  intro t
  rw [lowPass_apply (fun v => v) hLI, derivWriters, range_succ, filter_insert]
  by_cases ht : I - lowbit I ≤ t ∧ t < I
  · have hread : derivWriters I (t + lowbit I) = ∅ :=
      filter_eq_empty_iff.2 fun i hi h => by rw [mem_range] at hi; omega
    rw [if_pos ht, if_pos ⟨hI, ht⟩, sum_insert (by simp), h t, h (t + lowbit I), hread, sum_empty,
      add_zero, ← GFSymbol.val_add, derivWriters, add_comm (sym (o (t + lowbit I))), add_assoc]
  · rw [if_neg ht, if_neg fun h' => ht h'.2]
    exact h t

theorem derivInv_run {o : Buf} (ho : ∀ t, o t < 65536) : ∀ n, DerivInv o (n + 1)
    ((List.range' 1 n).foldl (fun cos i => (forRange (i - lowbit i) i).foldl
      (fun cos j => update cos j (cos j ^^^ cos (j + lowbit i))) cos) o)
  | 0 => fun t => by
    rw [show derivWriters 1 t = ∅ from filter_eq_empty_iff.2 fun i hi h => by rw [mem_range] at hi; omega,
      sum_empty, add_zero, val_sym (ho t)]
    rfl
  | n + 1 => by
    rw [List.range'_concat, List.foldl_append, List.foldl_cons, List.foldl_nil, Nat.one_mul, Nat.add_comm 1 n]
    exact derivInv_step (Nat.succ_pos n) (derivInv_run ho n)

/-- `formal_derivative(cos, size)` leaves each cell `t` as its input plus the inputs `cos[t + leng_i]`
of the iterations `i` that wrote it: no iteration reads a cell an earlier one wrote. -/
theorem formalDerivative_writers {o : Buf} (ho : ∀ t, o t < 65536) {size : Nat} (hs : 0 < size) :
    DerivInv o size (formalDerivative o size) := by
  obtain ⟨n, rfl⟩ : ∃ n, size = n + 1 := ⟨size - 1, by omega⟩
  exact derivInv_run ho n

/-- Iteration `2^v (2q+1)` writes the cells `[2^(v+1) q, 2^(v+1) q + 2^v)`: those `t` with
`⌊t / 2^(v+1)⌋ = q` and bit `v` clear. -/
theorem writes_iff {v q t : Nat} :
    (2 ^ v * (2 * q + 1) - 2 ^ v ≤ t ∧ t < 2 ^ v * (2 * q + 1)) ↔
      t / 2 ^ (v + 1) = q ∧ t.testBit v = false := by
  have hP : 2 ^ (v + 1) = 2 * 2 ^ v := Nat.pow_succ'
  have hi : 2 ^ v * (2 * q + 1) = 2 ^ (v + 1) * q + 2 ^ v := by rw [hP]; ring
  have hd := Nat.div_add_mod t (2 ^ (v + 1))
  rw [testBit_eq_false_iff_mod_lt, hi]
  constructor
  · rintro ⟨h1, h2⟩
    have hq : t / 2 ^ (v + 1) = q :=
      Nat.div_eq_of_lt_le (by rw [mul_comm]; omega) (by rw [add_mul, one_mul, mul_comm]; omega)
    rw [hq] at hd
    exact ⟨hq, by omega⟩
  · rintro ⟨rfl, h⟩
    omega

/-- Setting a clear bit `s < m` of a value below `2^m` stays below `2^m`. -/
theorem add_two_pow_lt {t s m : Nat} (ht : t < 2 ^ m) (hs : s < m) (hbit : t.testBit s = false) :
    t + 2 ^ s < 2 ^ m := by
  rw [add_two_pow_eq_xor_of_testBit hbit]
  exact Nat.xor_lt_two_pow ht (Nat.pow_lt_pow_right (by decide) hs)

/-- The writers of a cell `t < 2^m` are one iteration per clear bit `s < m` of `t`, the one with
`leng = 2^s`. -/
theorem sum_derivWriters {m t : Nat} (ht : t < 2 ^ m) (f : Nat → GFSymbol) :
    ∑ i ∈ derivWriters (2 ^ m) t, f (t + lowbit i) =
      ∑ s ∈ (range m).filter (fun s => !t.testBit s), f (t + 2 ^ s) := by
  symm
  refine sum_nbij (fun s => 2 ^ s * (2 * (t / 2 ^ (s + 1)) + 1)) (fun s hs => ?_)
    (fun s _ s' _ h => (two_pow_mul_odd_inj h).1) (fun i hi => ?_)
    (fun s _ => by rw [lowbit_two_pow_mul_odd])
  · simp only [mem_filter, mem_range, Bool.not_eq_true'] at hs
    have hw := writes_iff.2 ⟨rfl, hs.2⟩
    have := add_two_pow_lt ht hs.1 hs.2
    simp only [derivWriters, mem_filter, mem_range, lowbit_two_pow_mul_odd]
    exact ⟨by omega, by positivity, hw⟩
  · simp only [derivWriters, coe_filter, Set.mem_setOf_eq, mem_range] at hi
    obtain ⟨hi, hpos, hw⟩ := hi
    obtain ⟨v, q, rfl⟩ := exists_two_pow_mul_odd i (by omega)
    rw [lowbit_two_pow_mul_odd] at hw
    obtain ⟨hq, hbit⟩ := writes_iff.1 hw
    have hv : v < m := Nat.lt_of_not_le fun h =>
      absurd (Nat.pow_le_pow_right two_pos h) (by have := Nat.le_mul_of_pos_right (2 ^ v) (by omega : 0 < 2 * q + 1); omega)
    exact ⟨v, by simp [hv, hbit], by simp only [hq]⟩

/-- `formal_derivative(cos, 2^m)`: cell `t` ends as `cos[t]` plus `cos[t + 2^s]` for every clear bit
`s < m` of `t`, all input values. -/
theorem formalDerivative_apply {o : Buf} (ho : ∀ t, o t < 65536) {m t : Nat} (ht : t < 2 ^ m) :
    formalDerivative o (2 ^ m) t =
      (sym (o t) + ∑ s ∈ (range m).filter (fun s => !t.testBit s), sym (o (t + 2 ^ s))).val := by
  rw [formalDerivative_writers ho (Nat.two_pow_pos m) t, sum_derivWriters ht fun u => sym (o u)]

/-! ### The rescaling loops -/

/-- `decode_main`'s pairwise scaling multiplies each `c[t]`, `t < n`, by `EXP[w[t/2]]` through
`mulE`; `n` is even, so the pairs `(i, i+1)` tile `[0, n)`. -/
theorem scalePairs_apply (T : Tables) (x : Buf) {n : Nat} (hn : 2 ∣ n) (w : Nat → Nat) (t : Nat) :
    scalePairs T x n w t = if t < n then mulE T (x t) (w (t / 2)) else x t := by
  have hloc : ∀ i ∈ forStep 0 n 2, LocalOn (fun c =>
      let c := update c i (mulE T (c i) (w (i / 2)))
      update c (i + 1) (mulE T (c (i + 1)) (w (i / 2)))) (pairRegion 1 i) := fun i _ =>
    (LocalOn.update (F := fun c => mulE T (c i) (w (i / 2))) (Or.inl rfl) fun x y h => by
      simp only [h i (Or.inl rfl)]).comp
      (LocalOn.update (F := fun c => mulE T (c (i + 1)) (w (i / 2))) (Or.inr rfl) fun x y h => by
        simp only [h (i + 1) (Or.inr rfl)])
  have hdisj := pairwise_disjoint_of_nodup (pairRegion 1) (@forStep_nodup 0 n 2 two_pos) fun a ha b hb hab t => by
    have := forStep_apart two_pos ha hb hab; simp only [pairRegion]; omega
  split_ifs with ht
  · have hi : 2 * (t / 2) ∈ forStep 0 n 2 := (mem_forStep two_pos).2 ⟨Nat.zero_le _, by omega, by omega⟩
    rw [scalePairs, foldl_apply _ _ _ hloc hdisj x hi (show t = 2 * (t / 2) ∨ t = 2 * (t / 2) + 1 by omega)]
    rcases Nat.even_or_odd' t with ⟨k, rfl | rfl⟩
    · simp only [update_noteq (Nat.succ_ne_self _).symm, update_same, Nat.mul_div_cancel_left k two_pos]
    · simp only [show (2 * k + 1) / 2 = k by omega, update_same, update_noteq (Nat.succ_ne_self _),
        Nat.mul_div_cancel_left k two_pos]
  · refine foldl_frame _ _ _ hloc x t fun i hi h => ?_
    obtain ⟨-, hin, hdvd⟩ := (mem_forStep two_pos).1 hi
    simp only [pairRegion] at h; omega

/-! ### The weights `B` -/

section Weights

variable (T : Tables)

/-- The final `base` pass of `init_dec` up to index `n`: `gen^base[i] = ∏_{u ≤ i} renorm u` for
`i ≤ n`; the cells above still hold `MODULO - LOG[renorm i]`. -/
structure BasePassInv (n : Nat) (x : Buf) : Prop where
  done : ∀ i ≤ n, gen ^ x i = ∏ u ∈ range (i + 1), renorm u
  rest : ∀ i, n < i → i < 15 → x i = 65535 - (init T).logTable (renorm i).val

theorem gen_pow_logTable_renorm {i : Nat} (hi : i < 15) : gen ^ (init T).logTable (renorm i).val = renorm i := by
  rw [init_logTable_gen T (fun h => renorm_ne_zero hi (GFSymbol.ext h)) (GFSymbol.isLt _), sym_val]

theorem basePassInv_run {b : Buf} (hb : ∀ i < 15, b i = 65535 - (init T).logTable (renorm i).val) :
    ∀ n < 15, BasePassInv T n ((List.range' 1 n).foldl
      (fun base i => update base i ((65535 - base i + base (i - 1)) % 65535)) (update b 0 (65535 - b 0)))
  | 0, _ => by
    refine ⟨fun i hi => ?_, fun i hi hi15 => by rw [List.range'_zero, List.foldl_nil, update_noteq (by omega), hb i hi15]⟩
    rw [Nat.le_zero.1 hi, List.range'_zero, List.foldl_nil, update_same, hb 0 (by decide),
      Nat.sub_sub_self (init_logTable_lt T (GFSymbol.isLt _)), gen_pow_logTable_renorm T (by decide),
      prod_range_one]
  | n + 1, hn => by
    have ih := basePassInv_run hb n (by omega)
    rw [List.range'_concat, List.foldl_append, List.foldl_cons, List.foldl_nil, Nat.one_mul, Nat.add_comm 1 n]
    refine ⟨fun i hi => ?_, fun i hi hi15 => by rw [update_noteq (by omega), ih.rest i (by omega) hi15]⟩
    rcases Nat.lt_or_eq_of_le hi with hi | rfl
    · rw [update_noteq (by omega), ih.done i (by omega)]
    · rw [update_same, gen_pow_mod, pow_add, ih.rest _ (by omega) hn, Nat.add_sub_cancel,
        Nat.sub_sub_self (init_logTable_lt T (GFSymbol.isLt _)), gen_pow_logTable_renorm T hn,
        ih.done n le_rfl, prod_range_succ _ (n + 1), mul_comm]

/-- The `B` levels `i < I` of `init_dec`: for `t < 2^I`, `B[t] < MODULO` and `gen^B[t]` is the product
of `gen^base[i]` over the set bits `i` of `t`. -/
structure WeightInv (base : Buf) (I : Nat) (B : Buf) : Prop where
  lt : ∀ t < 2 ^ I, B t < 65535
  pow : ∀ t < 2 ^ I, gen ^ B t = ∏ i ∈ (range 16).filter (fun i => t.testBit i), gen ^ base i

theorem weightInv_run (base B₀ : Buf) : ∀ I ≤ 16, WeightInv base I ((List.range' 0 I).foldl (fun B i =>
    (forRange 0 (2 ^ i)).foldl (fun B j => update B (j + 2 ^ i) ((B j + base i) % 65535)) B) (update B₀ 0 0))
  | 0, _ => by
    refine ⟨fun t ht => ?_, fun t ht => ?_⟩ <;> rw [Nat.lt_one_iff.1 ht, List.range'_zero, List.foldl_nil, update_same]
    · decide
    · simp
  | I + 1, hI => by
    have ih := weightInv_run base B₀ I (by omega)
    have hP : 2 ^ (I + 1) = 2 * 2 ^ I := Nat.pow_succ'
    rw [List.range'_concat, List.foldl_append, List.foldl_cons, List.foldl_nil, Nat.one_mul, Nat.zero_add]
    have hstep := fun t => foldl_shift_copy (forRange_nodup 0 (2 ^ I)) (fun j hj => (mem_forRange.1 hj).2)
      (fun v => (v + base I) % 65535) ((List.range' 0 I).foldl (fun B i =>
        (forRange 0 (2 ^ i)).foldl (fun B j => update B (j + 2 ^ i) ((B j + base i) % 65535)) B) (update B₀ 0 0)) t
    refine ⟨fun t ht => ?_, fun t ht => ?_⟩ <;> rw [hstep t] <;> by_cases h : 2 ^ I ≤ t
    · rw [if_pos ⟨h, mem_forRange.2 ⟨Nat.zero_le _, by omega⟩⟩]; exact Nat.mod_lt _ (by decide)
    · rw [if_neg fun h' => h h'.1]; exact ih.lt t (by omega)
    · obtain ⟨u, rfl⟩ := Nat.exists_eq_add_of_le h
      have hu : u < 2 ^ I := by omega
      rw [if_pos ⟨h, mem_forRange.2 ⟨Nat.zero_le _, by omega⟩⟩, Nat.add_sub_cancel_left, gen_pow_mod,
        pow_add, ih.pow u hu, bits_two_pow_add (by omega) hu,
        prod_insert (by simp [Nat.testBit_lt_two_pow hu]), mul_comm]
    · rw [if_neg fun h' => h h'.1]; exact ih.pow t (by omega)

theorem setup_B_eq : ∃ b : Buf, (∀ i < 15, b i = 65535 - (init T).logTable (renorm i).val) ∧
    (setup T).B = fillB (init T).B (baseSums b) := by
  refine ⟨_, (loopInv_run T (init T).skewVec 15 le_rfl).base_lo, ?_⟩
  dsimp only [setup, initDec]
  rw [show forRange 0 15 = List.range' 0 15 from rfl]

/-- After `setup`, `B[t] < MODULO` and `gen^B[t]` is the product of `∏_{u ≤ i} renorm u` over the
set bits `i` of `t`, for every `t < 2^15`. -/
theorem setup_B {t : Nat} (ht : t < 2 ^ 15) :
    (setup T).B t < 65535 ∧
      gen ^ (setup T).B t = ∏ i ∈ (range 16).filter (fun i => t.testBit i), ∏ u ∈ range (i + 1), renorm u := by
  obtain ⟨b, hb, hB⟩ := setup_B_eq T
  have hW := weightInv_run (baseSums b) (init T).B 15 (by decide)
  rw [hB]
  refine ⟨hW.lt t ht, (hW.pow t ht).trans (prod_congr rfl fun i hi => (basePassInv_run T hb 14 (by decide)).done i ?_)⟩
  have := (mem_filter.1 hi).2
  by_contra h
  rw [Nat.testBit_lt_two_pow (lt_of_lt_of_le ht (Nat.pow_le_pow_right two_pos (by omega)))] at this
  exact absurd this (by decide)

/-- Around `formal_derivative`, the term `c[j + 2^s]` that lands in cell `j` is scaled by
`EXP[MODULO - B[(j+2^s)/2]]` before and by `EXP[B[j/2]]` after: by `Ŵ_s'` in all. -/
theorem setup_B_ratio {j s : Nat} (hj : j < 2 ^ 16) (hs : s < 16) (hbit : j.testBit s = false) :
    gen ^ (65535 - (setup T).B ((j + 2 ^ s) / 2)) * gen ^ (setup T).B (j / 2) = derivConst s := by
  have hne : gen ^ (setup T).B (j / 2) ≠ 0 := pow_ne_zero _ gen_ne_zero
  cases s with
  | zero =>
    rw [Nat.testBit_zero, decide_eq_false_iff_not] at hbit
    rw [show (j + 2 ^ 0) / 2 = j / 2 by omega, gen_pow_sub (setup_B T (by omega)).1.le, inv_mul_cancel₀ hne,
      derivConst, prod_range_zero]
  | succ r =>
    have ha : (j / 2).testBit r = false := by rwa [← Nat.testBit_succ]
    have hlt := add_two_pow_lt (show j / 2 < 2 ^ 15 by omega) (by omega) ha
    have hstep : gen ^ (setup T).B (j / 2 + 2 ^ r) = (∏ u ∈ range (r + 1), renorm u) * gen ^ (setup T).B (j / 2) := by
      rw [(setup_B T hlt).2, (setup_B T (by omega)).2, bits_add_two_pow (by omega) ha,
        prod_insert (by simp [ha])]
    rw [show (j + 2 ^ (r + 1)) / 2 = j / 2 + 2 ^ r by rw [Nat.pow_succ]; omega, gen_pow_sub (setup_B T hlt).1.le,
      hstep, mul_inv, mul_assoc, inv_mul_cancel₀ hne, mul_one, derivConst, prod_inv_distrib]

end Weights

/-! ### The derivative sandwich -/

section Sandwich

variable (T : Tables)

/-- The three steps of `decode_main` between the erasure scaling and `FLT` (scale the pairs by
`EXP[MODULO - B[t]]`, `formal_derivative`, scale them back by `EXP[B[t]]`) turn the coefficients
`c` into `c + derivCoeff c`: cell `j` gets `c[j + 2^s]` times `Ŵ_s'` for each clear bit `s` of `j`. -/
theorem derivSandwich_apply {m : Nat} (hm : m ≤ 16) (h2 : 2 ∣ 2 ^ m) (c : Nat → GFSymbol) {t : Nat}
    (ht : t < 2 ^ m) : derivSandwich (setup T) (fun i => (c i).val) (2 ^ m) t = (c t + derivCoeff m c t).val := by
  have hM : 2 ^ m ≤ 2 ^ 16 := Nat.pow_le_pow_right two_pos hm
  obtain ⟨c₁, hc₁⟩ : ∃ c₁ : Nat → GFSymbol,
      ∀ u, c₁ u = if u < 2 ^ m then c u * gen ^ (65535 - (setup T).B (u / 2)) else c u := ⟨_, fun _ => rfl⟩
  have hx₁ : scalePairs (setup T) (fun i => (c i).val) (2 ^ m) (fun t => 65535 - (setup T).B t) =
      fun u => (c₁ u).val := by
    funext u
    rw [scalePairs_apply _ _ h2]
    split_ifs with hu
    · rw [setup_mulE, init_mulE_gen T (c u).isLt (Nat.sub_le _ _), sym_val, hc₁, if_pos hu]
    · rw [hc₁, if_neg hu]
  have hdiag : c₁ t * gen ^ (setup T).B (t / 2) = c t := by
    rw [hc₁, if_pos ht, mul_assoc, gen_pow_sub (setup_B T (by omega)).1.le,
      inv_mul_cancel₀ (pow_ne_zero _ gen_ne_zero), mul_one]
  have hoff : ∀ s ∈ (range m).filter (fun s => !t.testBit s),
      c₁ (t + 2 ^ s) * gen ^ (setup T).B (t / 2) = derivConst s * c (t + 2 ^ s) := fun s hs => by
    simp only [mem_filter, mem_range, Bool.not_eq_true'] at hs
    rw [hc₁, if_pos (add_two_pow_lt ht hs.1 hs.2), mul_assoc, setup_B_ratio T (by omega) (by omega) hs.2,
      mul_comm]
  rw [derivSandwich, hx₁, scalePairs_apply _ _ h2, if_pos ht, formalDerivative_apply (fun u => (c₁ u).isLt) ht,
    setup_mulE, init_mulE_gen T (GFSymbol.isLt _) (setup_B T (by omega)).1.le, sym_val]
  simp only [sym_val]
  rw [add_mul, sum_mul, hdiag, sum_congr rfl hoff, derivCoeff]

end Sandwich

open Polynomial in
/-- The `FLT` after the derivative step evaluates `P + P'` at the points `x < n`. -/
theorem FLT_derivSandwich {m : Nat} (hm1 : 1 ≤ m) (hm : m ≤ 16) (c : Nat → GFSymbol) {P : GFSymbol[X]}
    (hP : P.degree < ↑(2 ^ m)) (hPc : ∀ x, P.eval x = ∑ i ∈ range (2 ^ m), c i * Xhat i x) {x : Nat}
    (hx : x < 2 ^ m) :
    FLT (setup Tables.zero) (derivSandwich (setup Tables.zero) (fun i => (c i).val) (2 ^ m)) (2 ^ m) 0 x =
      ((P + derivative P).eval (sym x)).val := by
  rw [(FLT_localOn _ m 0).reads _ (fun i => (c i + derivCoeff m c i).val)
      (fun t ht => derivSandwich_apply Tables.zero hm (dvd_pow_self 2 (by omega)) c ht) x hx,
    FLT_eval (setup_skewSpec Tables.zero rfl) hm (dvd_zero _) (by simpa using Nat.pow_le_pow_right two_pos hm) _ hx]
  simp only [Nat.zero_add, add_mul, sum_add_distrib, ← hPc, ← derivative_eval hm hP hPc, eval_add]

open Polynomial in
/-- The derivative step of `decode_main` after `setup`: on the novel-basis coefficients `c` of a
polynomial `P` of degree below `n = 2^m`, it leaves the coefficients of `P + P'`, so the `FLT` that
follows yields `P'(x)` at every root `x < n` of `P`. -/
theorem derivative_sandwich {m : Nat} (hm1 : 1 ≤ m) (hm : m ≤ 16) (c : Nat → GFSymbol) (P : GFSymbol[X])
    (hP : P.degree < ↑(2 ^ m)) (hPc : ∀ x, P.eval x = ∑ i ∈ range (2 ^ m), c i * Xhat i x) :
    (∀ x, ∑ j ∈ range (2 ^ m), sym (derivSandwich (setup Tables.zero) (fun i => (c i).val) (2 ^ m) j) * Xhat j x =
        (P + derivative P).eval x) ∧
      ∀ x < 2 ^ m, P.eval (sym x) = 0 →
        FLT (setup Tables.zero) (derivSandwich (setup Tables.zero) (fun i => (c i).val) (2 ^ m)) (2 ^ m) 0 x =
          ((derivative P).eval (sym x)).val := by
  refine ⟨fun x => ?_, fun x hx hPx => ?_⟩
  · rw [eval_add, hPc, derivative_eval hm hP hPc, ← sum_add_distrib]
    exact sum_congr rfl fun j hj => by
      rw [derivSandwich_apply Tables.zero hm (dvd_pow_self 2 (by omega)) c (mem_range.1 hj), sym_val, add_mul]
  · rw [FLT_derivSandwich hm1 hm c hP hPc hx, eval_add, hPx, zero_add]

open Polynomial in
theorem derivative_sandwich_linear : 1 ≤ 1 ∧ 1 ≤ 16 ∧ (X : GFSymbol[X]).degree < ↑(2 ^ 1) ∧
    (∀ x, (X : GFSymbol[X]).eval x =
      ∑ i ∈ range (2 ^ 1), (fun i => if i = 1 then (1 : GFSymbol) else 0) i * Xhat i x) ∧
    ((∀ x, ∑ j ∈ range (2 ^ 1), sym (derivSandwich (setup Tables.zero)
        (fun i => ((fun i => if i = 1 then (1 : GFSymbol) else 0) i).val) (2 ^ 1) j) * Xhat j x =
          ((X : GFSymbol[X]) + derivative X).eval x) ∧
      ∀ x < 2 ^ 1, (X : GFSymbol[X]).eval (sym x) = 0 →
        FLT (setup Tables.zero) (derivSandwich (setup Tables.zero)
          (fun i => ((fun i => if i = 1 then (1 : GFSymbol) else 0) i).val) (2 ^ 1)) (2 ^ 1) 0 x =
            ((derivative (X : GFSymbol[X])).eval (sym x)).val) :=
  have hdeg : (X : GFSymbol[X]).degree < ↑(2 ^ 1) := by rw [degree_X]; decide
  have hc : ∀ x, (X : GFSymbol[X]).eval x =
      ∑ i ∈ range (2 ^ 1), (fun i => if i = 1 then (1 : GFSymbol) else 0) i * Xhat i x := fun x => by
    simp [sum_range_succ, Xhat_one]
  ⟨le_rfl, by decide, hdeg, hc, derivative_sandwich le_rfl (by decide) _ X hdeg hc⟩

end NovelPoly
