import Mathlib.Algebra.BigOperators.Ring
import Mathlib.Data.Nat.Bitwise
import NovelPoly.Walsh

/-!
What `walsh` computes: the Walsh–Hadamard transform modulo `MODULO`.

`hadamard r x` multiplies each aligned block of `2^r` cells by the `2^r × 2^r` Hadamard matrix
`(hsign r t s) = ((-1)^{popcount(t & s)})`. One more stage of butterflies is one more bit
(`hadamard_succ`), so `walsh` on a 16-bit buffer of length `2^m` is `hadamard m` read in
`ZMod 65535` (`walsh_cast`). The characters are orthogonal (`sum_hsign`), which gives the dyadic
convolution theorem that `decode_init` relies on: transforming the pointwise product of two
transforms yields `2^m` times the XOR-convolution (`hadamard_mul_hadamard`).
-/

namespace NovelPoly

open Finset

/-- The Walsh–Hadamard sign `(-1)^{popcount(a & s)}`, over the low `r` bits. -/
def hsign (r a s : Nat) : ZMod 65535 :=
  ∏ b ∈ range r, if a.testBit b && s.testBit b then -1 else 1

/-- The blockwise Walsh–Hadamard transform over the low `r` bits. -/
def hadamard (r : Nat) (x : Nat → ZMod 65535) (t : Nat) : ZMod 65535 :=
  ∑ s ∈ range (2 ^ r), hsign r t s * x (t - t % 2 ^ r + s)

/-! ### Signs -/

theorem sum_range_two_pow_succ {M : Type} [AddCommMonoid M] (m : Nat) (f : Nat → M) :
    ∑ i ∈ range (2 ^ (m + 1)), f i = ∑ i ∈ range (2 ^ m), f i + ∑ i ∈ range (2 ^ m), f (2 ^ m + i) := by
  rw [pow_succ, mul_two, sum_range_add]

theorem mod_two_pow_succ' (t r : Nat) :
    t % 2 ^ (r + 1) = t % 2 ^ r + if t.testBit r then 2 ^ r else 0 := by
  rw [Nat.pow_succ, Nat.mod_mul, Nat.testBit_to_div_mod]
  rcases Nat.mod_two_eq_zero_or_one (t / 2 ^ r) with h | h <;> simp [h]

/-- The sign is `(-1)^popcount(a & s)`, counted over the low `r` bits. -/
theorem hsign_eq_neg_one_pow (r a s : Nat) :
    hsign r a s = (-1) ^ ((range r).filter fun b => (a &&& s).testBit b).card := by
  rw [hsign, prod_ite, prod_const_one, mul_one, prod_const]
  simp only [Nat.testBit_land]

theorem hsign_succ (r a s : Nat) :
    hsign (r + 1) a s = hsign r a s * if a.testBit r && s.testBit r then -1 else 1 :=
  prod_range_succ _ _

theorem hsign_congr {r a a' s s' : Nat} (ha : ∀ b < r, a.testBit b = a'.testBit b)
    (hs : ∀ b < r, s.testBit b = s'.testBit b) : hsign r a s = hsign r a' s' :=
  prod_congr rfl fun b hb => by rw [ha b (mem_range.1 hb), hs b (mem_range.1 hb)]

theorem hsign_mod (r a s : Nat) : hsign r a s = hsign r (a % 2 ^ r) s :=
  hsign_congr (fun b hb => by simp [Nat.testBit_mod_two_pow, hb]) (fun _ _ => rfl)

theorem hsign_comm (r a s : Nat) : hsign r a s = hsign r s a :=
  prod_congr rfl fun b _ => by rw [Bool.and_comm]

theorem hsign_lt (r a : Nat) {s : Nat} (hs : s < 2 ^ r) : hsign (r + 1) a s = hsign r a s := by
  rw [hsign_succ, Nat.testBit_lt_two_pow hs, Bool.and_false, if_neg Bool.false_ne_true, mul_one]

theorem hsign_two_pow_add (r a : Nat) {s : Nat} (hs : s < 2 ^ r) :
    hsign (r + 1) a (2 ^ r + s) = hsign r a s * if a.testBit r then -1 else 1 := by
  rw [hsign_succ, Nat.testBit_two_pow_add_eq, Nat.testBit_lt_two_pow hs, Bool.not_false,
    Bool.and_true, hsign_congr (fun _ _ => rfl) (fun b hb => Nat.testBit_two_pow_add_gt hb s)]

/-- Signs multiply as characters: `χ_a(s) χ_a(s') = χ_a(s ⊕ s')`. -/
theorem hsign_mul (r a s s' : Nat) : hsign r a s * hsign r a s' = hsign r a (s ^^^ s') := by
  rw [hsign, hsign, hsign, ← prod_mul_distrib]
  refine prod_congr rfl fun b _ => ?_
  rw [Nat.testBit_xor]
  cases a.testBit b <;> cases s.testBit b <;> cases s'.testBit b <;> simp

/-- Character orthogonality: the signs of a nonzero pattern sum to zero. -/
theorem sum_hsign (m v : Nat) :
    ∑ i ∈ range (2 ^ m), hsign m i v = if v % 2 ^ m = 0 then (2 ^ m : ZMod 65535) else 0 := by
  induction m with
  | zero => simp [hsign, Nat.mod_one]
  | succ m ih =>
    rw [sum_range_two_pow_succ]
    have h1 : ∀ i ∈ range (2 ^ m), hsign (m + 1) i v = hsign m i v := fun i hi => by
      rw [hsign_comm, hsign_lt _ _ (mem_range.1 hi), hsign_comm]
    have h2 : ∀ i ∈ range (2 ^ m), hsign (m + 1) (2 ^ m + i) v =
        hsign m i v * if v.testBit m then -1 else 1 := fun i hi => by
      rw [hsign_comm, hsign_succ, Nat.testBit_two_pow_add_eq, Nat.testBit_lt_two_pow (mem_range.1 hi),
        Bool.not_false, Bool.and_true, hsign_comm,
        hsign_congr (fun b hb => Nat.testBit_two_pow_add_gt hb i) (fun _ _ => rfl)]
    rw [sum_congr rfl h1, sum_congr rfl h2, ← sum_mul, ih, mod_two_pow_succ' v m]
    cases v.testBit m
    · simp only [Bool.false_eq_true, if_false, add_zero, mul_one]; split_ifs <;> ring
    · simp only [if_true, mul_neg, mul_one, add_neg_cancel]
      rw [if_neg (by have := Nat.two_pow_pos m; omega)]

/-! ### Stages -/

/-- One more stage of butterflies is one more bit of the transform. -/
theorem hadamard_succ (r : Nat) (x : Nat → ZMod 65535) (t : Nat) :
    hadamard (r + 1) x t =
      if t.testBit r then hadamard r x (t - 2 ^ r) - hadamard r x t
      else hadamard r x t + hadamard r x (t + 2 ^ r) := by
  have hK := mod_two_pow_succ' t r
  have hle := Nat.mod_le t (2 ^ r)
  have hle2 := Nat.mod_le t (2 ^ (r + 1))
  have hsplit : hadamard (r + 1) x t =
      ∑ s ∈ range (2 ^ r), hsign r t s * x (t - t % 2 ^ (r + 1) + s) +
        ∑ s ∈ range (2 ^ r), (hsign r t s * if t.testBit r then -1 else 1) *
          x (t - t % 2 ^ (r + 1) + (2 ^ r + s)) := by
    rw [hadamard, sum_range_two_pow_succ]
    refine congrArg₂ (· + ·) (sum_congr rfl fun s hs => ?_) (sum_congr rfl fun s hs => ?_)
    · rw [hsign_lt _ _ (mem_range.1 hs)]
    · rw [hsign_two_pow_add _ _ (mem_range.1 hs)]
  rw [hsplit]
  cases hb : t.testBit r
  · have hmod : (t + 2 ^ r) % 2 ^ r = t % 2 ^ r := Nat.add_mod_right _ _
    simp only [hb, if_false, Bool.false_eq_true, mul_one, add_zero] at hK ⊢
    rw [hadamard, hadamard]
    refine congrArg₂ (· + ·) (sum_congr rfl fun s _ => ?_) (sum_congr rfl fun s _ => ?_)
    · rw [hK]
    · rw [hsign_mod r (t + 2 ^ r), hmod, ← hsign_mod, hK]; congr 2; omega
  · have hge : 2 ^ r ≤ t := by simp only [hb, if_true] at hK; omega
    have hmod : (t - 2 ^ r) % 2 ^ r = t % 2 ^ r := by
      conv_rhs => rw [← Nat.sub_add_cancel hge]
      rw [Nat.add_mod_right]
    simp only [hb, if_true] at hK ⊢
    rw [hadamard, hadamard, sub_eq_add_neg, ← sum_neg_distrib]
    refine congrArg₂ (· + ·) (sum_congr rfl fun s _ => ?_) (sum_congr rfl fun s _ => ?_)
    · rw [hsign_mod r (t - 2 ^ r), hmod, ← hsign_mod, hK]; congr 2; omega
    · rw [hK, mul_neg, mul_one, neg_mul]; congr 3; omega

/-- On a block of full length the transform is the plain matrix product. -/
theorem hadamard_full (m : Nat) (x : Nat → ZMod 65535) {t : Nat} (ht : t < 2 ^ m) :
    hadamard m x t = ∑ s ∈ range (2 ^ m), hsign m t s * x s := by
  rw [hadamard, Nat.mod_eq_of_lt ht, Nat.sub_self]; simp only [Nat.zero_add]

theorem hadamard_zero (x : Nat → ZMod 65535) (t : Nat) : hadamard 0 x t = x t := by
  simp [hadamard, hsign, Nat.mod_one]

/-- `walsh` on a 16-bit buffer of length `2^m` keeps every cell 16-bit and computes the
Walsh–Hadamard transform modulo `MODULO`. -/
theorem walsh_cast (m : Nat) {x : Buf} (hx : ∀ t < 2 ^ m, x t ≤ 65535) {t : Nat} (ht : t < 2 ^ m) :
    walsh x (2 ^ m) t ≤ 65535 ∧ (walsh x (2 ^ m) t : ZMod 65535) = hadamard m (fun u => x u) t := by
  rw [walsh, doublings_two_pow]
  suffices h : ∀ r ≤ m, ∀ t < 2 ^ m, ((List.range r).map (2 ^ ·)).foldl (walshStage (2 ^ m)) x t ≤ 65535 ∧
      ((((List.range r).map (2 ^ ·)).foldl (walshStage (2 ^ m)) x t : Nat) : ZMod 65535) =
        hadamard r (fun u => x u) t from h m le_rfl t ht
  intro r
  induction r with
  | zero =>
    intro _ t ht
    simp only [List.range_zero, List.map_nil, List.foldl_nil, hadamard_zero, and_true]
    exact hx t ht
  | succ r ih =>
    intro hr t ht
    have h2 : 2 * 2 ^ r = 2 ^ (r + 1) := (pow_succ' 2 r).symm
    have hsize : 2 * 2 ^ r ∣ 2 ^ m := by rw [h2]; exact Nat.pow_dvd_pow 2 hr
    rw [List.range_succ, List.map_append, List.foldl_append, List.map_singleton, List.foldl_cons,
      List.foldl_nil]
    obtain ⟨hle, hcast⟩ := walshStage_cast (Nat.two_pow_pos r) hsize (fun u hu => (ih (by omega) u hu).1) ht
    refine ⟨hle, hcast.trans ?_⟩
    have hK := mod_two_pow_succ' t r
    have hlt := Nat.mod_lt t (Nat.two_pow_pos r)
    have hroom := add_le_of_dvd (Nat.dvd_sub_mod t) (by rwa [h2] at hsize)
      (show t - t % 2 ^ (r + 1) < 2 ^ m by omega)
    have hle2 := Nat.mod_le t (2 ^ (r + 1))
    rw [hadamard_succ, h2]
    cases hb : t.testBit r <;> simp only [hb, if_true, if_false, Bool.false_eq_true, add_zero] at hK ⊢
    · rw [if_pos (by omega), (ih (by omega) t ht).2, (ih (by omega) (t + 2 ^ r) (by omega)).2]
    · rw [if_neg (by omega), (ih (by omega) t ht).2, (ih (by omega) (t - 2 ^ r) (by omega)).2]

/-- The dyadic convolution theorem: transforming the pointwise product of two transforms gives
`2^m` times the XOR-convolution. -/
theorem hadamard_mul_hadamard (m : Nat) (e L : Nat → ZMod 65535) {t : Nat} (ht : t < 2 ^ m) :
    hadamard m (fun i => hadamard m e i * hadamard m L i) t =
      2 ^ m * ∑ j ∈ range (2 ^ m), e j * L (t ^^^ j) := by
  have key : ∀ i j k, hsign m t i * ((hsign m i j * e j) * (hsign m i k * L k)) =
      e j * L k * hsign m i (t ^^^ j ^^^ k) := fun i j k => by
    rw [← hsign_mul, ← hsign_mul, hsign_comm m t i]; ring
  calc hadamard m (fun i => hadamard m e i * hadamard m L i) t
      = ∑ i ∈ range (2 ^ m), ∑ j ∈ range (2 ^ m), ∑ k ∈ range (2 ^ m),
          e j * L k * hsign m i (t ^^^ j ^^^ k) := by
        rw [hadamard_full m _ ht]
        refine sum_congr rfl fun i hi => ?_
        rw [hadamard_full m _ (mem_range.1 hi), hadamard_full m _ (mem_range.1 hi), sum_mul_sum,
          mul_sum]
        exact sum_congr rfl fun j _ => by rw [mul_sum]; exact sum_congr rfl fun k _ => key i j k
    _ = ∑ j ∈ range (2 ^ m), ∑ k ∈ range (2 ^ m), e j * L k * ∑ i ∈ range (2 ^ m),
          hsign m i (t ^^^ j ^^^ k) := by
        rw [sum_comm]; refine sum_congr rfl fun j _ => ?_
        rw [sum_comm]; exact sum_congr rfl fun k _ => (mul_sum _ _ _).symm
    _ = ∑ j ∈ range (2 ^ m), e j * L (t ^^^ j) * 2 ^ m := by
        refine sum_congr rfl fun j hj => ?_
        have htj : t ^^^ j < 2 ^ m := Nat.xor_lt_two_pow ht (mem_range.1 hj)
        rw [show e j * L (t ^^^ j) * 2 ^ m = ∑ k ∈ range (2 ^ m),
            if t ^^^ j = k then e j * L k * 2 ^ m else 0 by rw [sum_ite_eq, if_pos (mem_range.2 htj)]]
        refine sum_congr rfl fun k hk => ?_
        rw [sum_hsign, Nat.mod_eq_of_lt (Nat.xor_lt_two_pow htj (mem_range.1 hk))]
        simp only [Nat.xor_eq_zero, mul_ite, mul_zero]
    _ = 2 ^ m * ∑ j ∈ range (2 ^ m), e j * L (t ^^^ j) := by rw [mul_sum]; simp only [mul_comm]

/-- The transform is its own inverse up to the factor `2^m`. -/
theorem hadamard_hadamard (m : Nat) (x : Nat → ZMod 65535) {t : Nat} (ht : t < 2 ^ m) :
    hadamard m (hadamard m x) t = 2 ^ m * x t := by
  calc hadamard m (hadamard m x) t
      = ∑ s ∈ range (2 ^ m), ∑ u ∈ range (2 ^ m), hsign m s (t ^^^ u) * x u := by
        rw [hadamard_full m _ ht]
        refine sum_congr rfl fun s hs => ?_
        rw [hadamard_full m _ (mem_range.1 hs), mul_sum]
        exact sum_congr rfl fun u _ => by rw [← mul_assoc, hsign_comm m t s, hsign_mul]
    _ = ∑ u ∈ range (2 ^ m), (∑ s ∈ range (2 ^ m), hsign m s (t ^^^ u)) * x u := by
        rw [sum_comm]; simp only [sum_mul]
    _ = 2 ^ m * x t := by
        simp only [sum_hsign]
        rw [sum_eq_single_of_mem t (mem_range.2 ht) fun u hu hne => ?_, Nat.xor_self, Nat.zero_mod, if_pos rfl]
        rw [Nat.mod_eq_of_lt (Nat.xor_lt_two_pow ht (mem_range.1 hu)), if_neg, zero_mul]
        rwa [Nat.xor_eq_zero, eq_comm]

/-- `walsh` applied twice to `2^m` symbols multiplies them by `2^m` modulo `MODULO`. -/
theorem walsh_walsh (m : Nat) {x : Buf} (hx : ∀ t < 2 ^ m, x t ≤ 65535) {t : Nat} (ht : t < 2 ^ m) :
    (walsh (walsh x (2 ^ m)) (2 ^ m) t : ZMod 65535) = 2 ^ m * x t := by
  rw [(walsh_cast m (fun u hu => (walsh_cast m hx hu).1) ht).2, hadamard_full m _ ht,
    ← hadamard_hadamard m (fun u => (x u : ZMod 65535)) ht, hadamard_full m _ ht]
  exact sum_congr rfl fun s hs => by rw [(walsh_cast m hx (mem_range.1 hs)).2]

/-- `walsh(data, 2^m)` on `2^m` symbols: every entry stays in `[0, MODULO]` and is congruent modulo
`MODULO` to `∑_j (-1)^popcount(i & j) data[j]`; the fold of a sum, or of a difference
`a + MODULO - b`, of two symbols never exceeds `MODULO`, so no store truncates; and on `2^16`
symbols, since `2^16 ≡ 1`, the transform applied twice gives its input back modulo `MODULO`. -/
theorem walsh_hadamard_transform (m : Nat) (x : Buf) (hx : ∀ t < 2 ^ m, x t ≤ 65535) :
    (∀ i < 2 ^ m, walsh x (2 ^ m) i ≤ 65535 ∧
      (walsh x (2 ^ m) i : ZMod 65535) =
        ∑ j ∈ range (2 ^ m), (-1) ^ ((range m).filter fun b => (i &&& j).testBit b).card * (x j : ZMod 65535)) ∧
    (∀ a b, a ≤ 65535 → b ≤ 65535 → foldMod (a + b) ≤ 65535 ∧ foldMod (a + 65535 - b) ≤ 65535) ∧
    (m = 16 → ∀ i < 2 ^ m, (walsh (walsh x (2 ^ m)) (2 ^ m) i : ZMod 65535) = x i) := by
  refine ⟨fun i hi => ⟨(walsh_cast m hx hi).1, ?_⟩, fun a b ha hb => ⟨foldMod_le (by omega), foldMod_le (by omega)⟩,
    fun hm i hi => ?_⟩
  · rw [(walsh_cast m hx hi).2, hadamard_full m _ hi]
    exact sum_congr rfl fun j _ => by rw [hsign_eq_neg_one_pow]
  · subst hm
    rw [walsh_walsh 16 hx hi, show (2 ^ 16 : ZMod 65535) = 1 from rfl, one_mul]

theorem walsh_hadamard_transform_field : (∀ t < 2 ^ 16, (fun t => t) t ≤ 65535) ∧
    ((∀ i < 2 ^ 16, walsh (fun t => t) (2 ^ 16) i ≤ 65535 ∧
      (walsh (fun t => t) (2 ^ 16) i : ZMod 65535) =
        ∑ j ∈ range (2 ^ 16), (-1) ^ ((range 16).filter fun b => (i &&& j).testBit b).card * ((fun t => t) j : ZMod 65535)) ∧
    (∀ a b, a ≤ 65535 → b ≤ 65535 → foldMod (a + b) ≤ 65535 ∧ foldMod (a + 65535 - b) ≤ 65535) ∧
    (16 = 16 → ∀ i < 2 ^ 16, (walsh (walsh (fun t => t) (2 ^ 16)) (2 ^ 16) i : ZMod 65535) = (fun t => t) i)) :=
  ⟨fun _ ht => Nat.le_of_lt_succ ht, walsh_hadamard_transform 16 (fun t => t) fun _ ht => Nat.le_of_lt_succ ht⟩

end NovelPoly
