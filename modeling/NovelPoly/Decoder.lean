import NovelPoly.Encode
import NovelPoly.Locator
import NovelPoly.Sandwich

/-!
What `decode_main` computes after `decode_init(e, log_walsh2, FIELD_SIZE)`, for every erasure mask.

Let `E` be the set of erased positions of a `{0,1}` mask `e`. `decode_init` leaves the locator
`L(x) = ∏_{j ∈ E} (x + x_j)` in the log domain: `EXP[log_walsh2[i]] = L(x_i)` at a kept position
(`decodeInit_gen_kept`), and at an erased one the inverse of `∏_{j ∈ E, j ≠ i} (x_i + x_j)`
(`decodeInit_gen_erased`). The first loop of `decode_main` multiplies the received symbols by it, so
when some `G` of degree below `n` has `G(x_t) = V_t · L(x_t)` on the received word `V`, the loop
leaves the values of `G` at `x_0, …, x_{n-1}` (`locatorScale_apply`); `IFLT` turns them into its
novel-basis coefficients (`IFLT_coeffs`), the derivative step and `FLT` give `(G + G')(x_i)`, which is `G'(x_i)` at an
erased `i` since `L(x_i) = 0`, and the last loop divides by the other factors of the locator
(`decodeMain_erased`). Every step touches only the cells below `n` (`decodeMain_localOn`), so what
the buffers hold beyond `n` does not matter.

On its own, `formal_derivative` is the map `c ↦ c + Dc` for an XOR map `D` with `D∘D = 0` (the
second derivative vanishes in characteristic `2`), so it undoes itself (`formalDerivative_involutive`).
-/

namespace NovelPoly

open Function Finset Polynomial

/-! ### `decode_main` works below `n` -/

/-- `formal_derivative(cos, 2^m)` reads and writes only the cells below `2^m`. -/
theorem formalDerivative_localOn (m : Nat) : LocalOn (fun x => formalDerivative x (2 ^ m)) (· < 2 ^ m) :=
  foldl_localOn_same _ _ fun i hi => by
    obtain ⟨hi1, him⟩ := mem_forRange.1 hi
    have : i + lowbit i ≤ 2 ^ m := add_leng_le (by omega) him
    exact (lowPass_local (d := lowbit i) (j := i) fun v => v).mono fun t ht => by
      simp only [blockRegion] at ht; omega

theorem scalePairs_localOn (T : Tables) {n : Nat} (hn : 2 ∣ n) (w : Nat → Nat) :
    LocalOn (fun x => scalePairs T x n w) (· < n) :=
  ⟨fun x t ht => by rw [scalePairs_apply _ _ hn, if_neg ht],
    fun x y h t ht => by rw [scalePairs_apply _ _ hn, scalePairs_apply _ _ hn, if_pos ht, if_pos ht, h t ht]⟩

theorem derivSandwich_localOn (T : Tables) {m : Nat} (hm : 1 ≤ m) :
    LocalOn (fun x => derivSandwich T x (2 ^ m)) (· < 2 ^ m) :=
  have h2 : 2 ∣ 2 ^ m := dvd_pow_self 2 (by omega)
  ((scalePairs_localOn T h2 _).comp (formalDerivative_localOn m)).comp (scalePairs_localOn T h2 _)

/-- A loop over `i < k` that stores into cell `i` a function of `c[i]`. -/
theorem pointwise_localOn {k n : Nat} (hk : k ≤ n) (F : Nat → Nat → Nat) :
    LocalOn (fun x => (forRange 0 k).foldl (fun x i => update x i (F i (x i))) x) (· < n) :=
  foldl_localOn_same _ _ fun i hi =>
    have hin : i < n := by have := (mem_forRange.1 hi).2; omega
    LocalOn.update hin fun x y h => by rw [h i hin]

/-- `decode_main(codeword, k, e, log_walsh2, 2^m)` reads and writes only `codeword[0 .. 2^m)`. -/
theorem decodeMain_localOn (T : Tables) {m k : Nat} (hm : 1 ≤ m) (hk : k ≤ 2 ^ m) (erasure : Nat → Int)
    (log_walsh2 : Buf) : LocalOn (fun c => decodeMain T c k erasure log_walsh2 (2 ^ m)) (· < 2 ^ m) :=
  ((((pointwise_localOn le_rfl fun i v => if erasure i ≠ 0 then 0 else mulE T v (log_walsh2 i)).comp
    (IFLT_localOn T m 0)).comp (derivSandwich_localOn T hm)).comp (FLT_localOn T m 0)).comp
    (pointwise_localOn hk fun i v => if erasure i ≠ 0 then mulE T v (log_walsh2 i) else 0)

/-! ### `formal_derivative` undoes itself -/

/-- Setting a clear bit `s` of `t` takes `s` out of the clear bits below `m`. -/
theorem clearBits_add_two_pow {t s : Nat} (m : Nat) (hbit : t.testBit s = false) :
    (range m).filter (fun r => !(t + 2 ^ s).testBit r) = ((range m).filter (fun r => !t.testBit r)).erase s := by
  ext r
  simp only [mem_filter, mem_erase, mem_range, add_two_pow_eq_xor_of_testBit hbit, Nat.testBit_xor,
    Nat.testBit_two_pow]
  by_cases hr : r = s
  · subst hr; simp [hbit]
  · simp [hr, Ne.symm hr, and_comm]

/-- In characteristic `2` a symmetric term summed over the ordered pairs of distinct elements of `A`
vanishes: the pairs `(s, r)` and `(r, s)` cancel. -/
theorem sum_sum_erase_symm {A : Finset Nat} {g : Nat → Nat → GFSymbol} (hg : ∀ s r, g s r = g r s) :
    ∑ s ∈ A, ∑ r ∈ A.erase s, g s r = 0 := by
  rw [sum_sigma']
  refine sum_involution (fun x _ => ⟨x.2, x.1⟩) (fun x _ => by rw [hg]; exact CharTwo.add_self_eq_zero _)
    (fun x hx _ h => (mem_erase.1 (mem_sigma.1 hx).2).1 (congrArg Sigma.fst h)) (fun x hx => ?_) fun x _ => rfl
  obtain ⟨h1, hne, h2⟩ : x.1 ∈ A ∧ x.2 ≠ x.1 ∧ x.2 ∈ A := by simpa only [mem_sigma, mem_erase] using hx
  exact mem_sigma.2 ⟨h2, mem_erase.2 ⟨hne.symm, h1⟩⟩

/-- `formal_derivative(cos, 2^m)` is an involution on 16-bit buffers: cell `t` of the second pass
adds `cos[t + 2^s + 2^r]` once for each order of two distinct clear bits `s, r` of `t`, and the two
orders cancel. -/
theorem formalDerivative_involutive {o : Buf} (ho : ∀ t, o t < 65536) (m : Nat) :
    formalDerivative (formalDerivative o (2 ^ m)) (2 ^ m) = o := by
  have hfr := (formalDerivative_localOn m).frame
  have hlt : ∀ t, formalDerivative o (2 ^ m) t < 65536 := fun t => by
    by_cases ht : t < 2 ^ m
    · rw [formalDerivative_apply ho ht]; exact GFSymbol.isLt _
    · rw [hfr o t ht]; exact ho t
  have hsym : ∀ u < 2 ^ m, sym (formalDerivative o (2 ^ m) u) =
      sym (o u) + ∑ s ∈ (range m).filter (fun s => !u.testBit s), sym (o (u + 2 ^ s)) := fun u hu => by
    rw [formalDerivative_apply ho hu, sym_val]
  funext t
  by_cases ht : t < 2 ^ m
  · have hinner : ∑ s ∈ (range m).filter (fun s => !t.testBit s), sym (formalDerivative o (2 ^ m) (t + 2 ^ s)) =
        ∑ s ∈ (range m).filter (fun s => !t.testBit s), sym (o (t + 2 ^ s)) +
          ∑ s ∈ (range m).filter (fun s => !t.testBit s),
            ∑ r ∈ ((range m).filter (fun s => !t.testBit s)).erase s, sym (o (t + 2 ^ s + 2 ^ r)) := by
      rw [← sum_add_distrib]
      refine sum_congr rfl fun s hs => ?_
      simp only [mem_filter, mem_range, Bool.not_eq_true'] at hs
      rw [hsym _ (add_two_pow_lt ht hs.1 hs.2), clearBits_add_two_pow m hs.2]
    rw [formalDerivative_apply hlt ht, hsym t ht, hinner, sum_sum_erase_symm fun s r => by rw [add_right_comm],
      add_zero, add_assoc, CharTwo.add_self_eq_zero, add_zero, val_sym (ho t)]
  · rw [hfr _ t ht, hfr o t ht]

theorem formalDerivative_involutive_four :
    (∀ t, (fun u => u % 4 : Buf) t < 65536) ∧
      formalDerivative (formalDerivative (fun u => u % 4) (2 ^ 2)) (2 ^ 2) = fun u => u % 4 :=
  have ho : ∀ t, (fun u => u % 4 : Buf) t < 65536 := fun t => by dsimp only; omega
  ⟨ho, formalDerivative_involutive ho 2⟩

/-! ### The locator in field terms -/

/-- `decode_init` leaves residues: every `log_walsh2[i]` is at most `MODULO`. -/
theorem decodeInit_le (T : Tables) (erasure : Nat → Int) (log_walsh2 : Buf) {i : Nat} (hi : i < 65536) :
    decodeInit T erasure log_walsh2 65536 i ≤ 65535 := by
  rw [decodeInit_apply]
  dsimp only
  split_ifs
  · omega
  · exact (walsh_field (fun u hu => by simp only [if_pos hu]; omega) hi).1

/-- Exponents congruent modulo `MODULO` give the same power of `gen`. -/
theorem gen_pow_eq_of_cast {a b : Nat} (h : (a : ZMod 65535) = b) : gen ^ a = gen ^ b := by
  rw [← gen_pow_mod a, ← gen_pow_mod b, (ZMod.natCast_eq_natCast_iff' a b 65535).1 h]

/-- `EXP[Σ_{j ∈ E, j ≠ i} LOG[i ⊕ j]] = ∏_{j ∈ E, j ≠ i} (x_i + x_j)`. -/
theorem gen_pow_sum_logTable (T : Tables) (erasure : Nat → Int) {i : Nat} (hi : i < 65536) :
    gen ^ (∑ j ∈ (range 65536).filter (fun j => j ≠ i ∧ erasure j = 1), (setup T).logTable (i ^^^ j)) =
      ∏ j ∈ (range 65536).filter (fun j => j ≠ i ∧ erasure j = 1), (sym i + sym j) := by
  rw [← prod_pow_eq_pow_sum]
  refine prod_congr rfl fun j hj => ?_
  obtain ⟨hj, hji, -⟩ := mem_filter.1 hj
  rw [setup, initDec_logTable, ← sym_xor, init_logTable_gen T
    (by rw [Ne, Nat.xor_eq_zero]; exact hji.symm) (Nat.xor_lt_two_pow (n := 16) hi (mem_range.1 hj))]

section Mask

variable (T : Tables) {erasure : Nat → Int} (he : ∀ j < 65536, erasure j = 0 ∨ erasure j = 1)
  (log_walsh2 : Buf)

theorem mem_erased {i : Nat} : i ∈ (range 65536).filter (fun j => erasure j = 1) ↔ i < 65536 ∧ erasure i = 1 := by
  rw [mem_filter, mem_range]

/-- The locator vanishes at the erased points. -/
theorem locator_erased_eq_zero {t : Nat} (ht : t < 65536) (ht1 : erasure t = 1) :
    ∏ j ∈ (range 65536).filter (fun j => erasure j = 1), (sym t + sym j) = 0 :=
  prod_eq_zero ((mem_erased).2 ⟨ht, ht1⟩) (CharTwo.add_self_eq_zero _)

include he

/-- At a kept position `EXP[log_walsh2[i]]` is the locator `∏_{j ∈ E} (x_i + x_j)`. -/
theorem decodeInit_gen_kept {i : Nat} (hi : i < 65536) (hi0 : erasure i = 0) :
    gen ^ decodeInit (setup T) erasure log_walsh2 65536 i =
      ∏ j ∈ (range 65536).filter (fun j => erasure j = 1), (sym i + sym j) := by
  have hS : (range 65536).filter (fun j => j ≠ i ∧ erasure j = 1) = (range 65536).filter (fun j => erasure j = 1) :=
    filter_congr fun j _ => ⟨And.right, fun h => ⟨fun hji => by rw [hji, hi0] at h; exact absurd h (by decide), h⟩⟩
  have hcast : ((decodeInit (setup T) erasure log_walsh2 65536 i : Nat) : ZMod 65535) =
      ((∑ j ∈ (range 65536).filter (fun j => j ≠ i ∧ erasure j = 1), (setup T).logTable (i ^^^ j) : Nat) :
        ZMod 65535) := by
    rw [decodeInit_locator_of_mask T erasure log_walsh2 he hi, if_pos hi0, Nat.cast_sum]
  rw [gen_pow_eq_of_cast hcast, gen_pow_sum_logTable T erasure hi, hS]

/-- At an erased position `EXP[log_walsh2[i]]` is the inverse of `∏_{j ∈ E, j ≠ i} (x_i + x_j)`. -/
theorem decodeInit_gen_erased {i : Nat} (hi : i < 65536) (hi1 : erasure i = 1) :
    gen ^ decodeInit (setup T) erasure log_walsh2 65536 i *
      ∏ j ∈ (range 65536).filter (fun j => j ≠ i ∧ erasure j = 1), (sym i + sym j) = 1 := by
  have h := decodeInit_locator_of_mask T erasure log_walsh2 he hi
  rw [if_neg (by rw [hi1]; decide)] at h
  rw [← gen_pow_sum_logTable T erasure hi, ← pow_add, gen_pow_eq_of_cast (b := 0) (by rw [Nat.cast_add, h, Nat.cast_sum, neg_add_cancel, Nat.cast_zero]),
    pow_zero]

end Mask

/-! ### `decode_main` -/

/-- The first loop of `decode_main` zeroes the erased symbols and multiplies each kept one by
`EXP[log_walsh2[t]]`, the locator at `x_t`: on a received word `V` with `G(x_t) = V_t · L(x_t)` it
leaves the values of `G`. -/
theorem locatorScale_apply {m : Nat} (hm : m ≤ 16) {erasure : Nat → Int}
    (he : ∀ j < 65536, erasure j = 0 ∨ erasure j = 1) (log_walsh2 : Buf) {V : Nat → GFSymbol} {G : GFSymbol[X]}
    (hGV : ∀ t < 2 ^ m, G.eval (sym t) = V t * ∏ j ∈ (range 65536).filter (fun j => erasure j = 1), (sym t + sym j))
    (t : Nat) :
    (forRange 0 (2 ^ m)).foldl (fun c i => update c i (if erasure i ≠ 0 then 0 else
      mulE (setup Tables.zero) (c i) (decodeInit (setup Tables.zero) erasure log_walsh2 65536 i)))
        (fun t => (V t).val) t = (if t < 2 ^ m then G.eval (sym t) else V t).val := by
  have hM : 2 ^ m ≤ 65536 := Nat.pow_le_pow_right two_pos hm
  rw [foldl_pointwise (forRange_nodup 0 _) fun i v => if erasure i ≠ 0 then 0 else
    mulE (setup Tables.zero) v (decodeInit (setup Tables.zero) erasure log_walsh2 65536 i)]
  simp only [mem_forRange, Nat.zero_le, true_and]
  split_ifs with ht he0
  · rw [hGV t ht, locator_erased_eq_zero (by omega) ((he t (by omega)).resolve_left he0), mul_zero]; rfl
  · rw [hGV t ht, setup_mulE, init_mulE_gen _ (V t).isLt (decodeInit_le _ _ _ (by omega)), sym_val,
      decodeInit_gen_kept _ he _ (by omega) (not_not.1 he0)]
  · rfl

/-- `decode_main(c, k, e, log_walsh2, 2^m)` after `decode_init(e, log_walsh2, FIELD_SIZE)`, for a
`{0,1}` mask `e` with erased set `E` and a received word whose symbols `V_t` at `t < 2^m` are the
values `G(x_t) = V_t · ∏_{j ∈ E} (x_t + x_j)` of some `G` of degree below `2^m`: at each erased
position `i < k` it leaves `G'(x_i) / ∏_{j ∈ E, j ≠ i} (x_i + x_j)`. -/
theorem decodeMain_erased {m k : Nat} (hm1 : 1 ≤ m) (hm : m ≤ 16) (hk : k ≤ 2 ^ m) {erasure : Nat → Int}
    (he : ∀ j < 65536, erasure j = 0 ∨ erasure j = 1) (log_walsh2 : Buf) {V : Nat → GFSymbol} {c : Buf}
    (hc : ∀ t < 2 ^ m, c t = (V t).val) {G : GFSymbol[X]} (hG : G.degree < ↑(2 ^ m))
    (hGV : ∀ t < 2 ^ m, G.eval (sym t) = V t * ∏ j ∈ (range 65536).filter (fun j => erasure j = 1), (sym t + sym j))
    {i : Nat} (hi : i < k) (hi1 : erasure i = 1) :
    decodeMain (setup Tables.zero) c k erasure (decodeInit (setup Tables.zero) erasure log_walsh2 65536) (2 ^ m) i =
      ((derivative G).eval (sym i) *
        (∏ j ∈ (range 65536).filter (fun j => j ≠ i ∧ erasure j = 1), (sym i + sym j))⁻¹).val := by
  have hT := setup_skewSpec Tables.zero rfl
  have hM : 2 ^ m ≤ 65536 := Nat.pow_le_pow_right two_pos hm
  obtain ⟨W, hW⟩ : ∃ W : Nat → GFSymbol, ∀ t, W t = if t < 2 ^ m then G.eval (sym t) else V t := ⟨_, fun _ => rfl⟩
  have hD : IFLT (setup Tables.zero) (fun t => (W t).val) (2 ^ m) 0 =
      fun u => (sym (IFLT (setup Tables.zero) (fun t => (W t).val) (2 ^ m) 0 u)).val :=
    funext fun u => (val_sym (IFLT_lt hT hm (Nat.dvd_zero _) (by omega) (fun t => (W t).isLt) u)).symm
  have hGi : G.eval (sym i) = 0 := by rw [hGV i (by omega), locator_erased_eq_zero (by omega) hi1, mul_zero]
  rw [(decodeMain_localOn _ hm1 hk erasure _).reads c (fun t => (V t).val) hc i (by omega)]
  dsimp only [decodeMain]
  rw [show _ = fun t => (W t).val from funext fun t => (locatorScale_apply hm he log_walsh2 hGV t).trans (by rw [hW]),
    hD, foldl_pointwise (forRange_nodup 0 _) fun i v => if erasure i ≠ 0 then
      mulE (setup Tables.zero) v (decodeInit (setup Tables.zero) erasure log_walsh2 65536 i) else 0,
    if_pos (mem_forRange.2 ⟨Nat.zero_le _, hi⟩), if_pos (by rw [hi1]; decide),
    FLT_derivSandwich hm1 hm _ hG (IFLT_coeffs hT hm (fun t => (W t).isLt) hG fun t ht => by rw [hW, if_pos ht])
      (by omega),
    setup_mulE, init_mulE_gen _ (GFSymbol.isLt _) (decodeInit_le _ _ _ (by omega)), sym_val, eval_add, hGi, zero_add,
    eq_inv_of_mul_eq_one_left (decodeInit_gen_erased _ he _ (by omega) hi1)]

end NovelPoly
