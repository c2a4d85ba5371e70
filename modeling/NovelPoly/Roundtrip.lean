import NovelPoly.Decoder

/-!
The erasure-decoding round trip, and the `roundtrip` driver of `RSErasureCode.c`.

`encodeL` leaves the values at `x_0, …, x_{n-1}` of the polynomial `P` of degree below `k` through
the message (`encodeL_interp`). Zeroing the erased symbols and multiplying by the locator
`L = ∏_{j ∈ E} (X + x_j)` gives the values of `G = P·L`, of degree below `k + |E| ≤ n`
(`degree_mul_locator_lt`), so `decodeMain_erased` applies: at an erased `x_i`, `G'(x_i) = P(x_i)·L'(x_i)`
and `L'(x_i)` is the product of the other factors (`derivative_mul_locator_eval`), which the last
loop of `decode_main` divides out (`decode_roundtrip`).

`roundtrip` clears its arrays with `memset`, whose length is in bytes: `FIELD_SIZE` bytes of the
`int` erasure array are its first `2^14` entries. An entry above them that the stack left nonzero is
one erasure more than `n - k`, `G` reaches degree `n`, and the decoding fails
(`roundtrip_stale_erasure`); when those entries start at zero the driver succeeds
(`roundtrip_clean_stack`).
-/

namespace NovelPoly

open Function Finset Polynomial

/-! ### The round trip -/

/-- In characteristic `2`, `x_i` is the root of `X + x_i`, and `((X + x_i)·R)'(x_i) = R(x_i)`. -/
theorem derivative_X_add_C_mul_eval (a : GFSymbol) (R : GFSymbol[X]) :
    (derivative ((X + C a) * R)).eval a = R.eval a := by
  rw [derivative_mul, derivative_X_add_C, one_mul, eval_add, eval_mul, eval_add, eval_X, eval_C,
    CharTwo.add_self_eq_zero, zero_mul, add_zero]

/-- Distinct points differ: `x_i + x_j ≠ 0` for `j ≠ i`. -/
theorem sym_add_ne_zero {i j : Nat} (hi : i < 65536) (hj : j < 65536) (hji : j ≠ i) : sym i + sym j ≠ 0 :=
  fun h => hji (sym_injOn hj hi ((add_eq_zero_iff_eq_neg.1 h).trans (CharTwo.neg_eq _)).symm)

theorem eval_locator (S : Finset Nat) (x : GFSymbol) :
    (∏ j ∈ S, (X + C (sym j))).eval x = ∏ j ∈ S, (x + sym j) := by
  simp only [eval_prod, eval_add, eval_X, eval_C]

theorem natDegree_locator (S : Finset Nat) : (∏ j ∈ S, (X + C (sym j))).natDegree = S.card := by
  rw [natDegree_prod_of_monic _ _ fun j _ => monic_X_add_C _]
  simp only [natDegree_X_add_C, sum_const, smul_eq_mul, mul_one]

/-- The identity behind the decoder: at a root `x_i` of the locator `L`, `(P·L)'(x_i) = P(x_i)·L'(x_i)`,
and `L'(x_i)` is the product of the other factors. -/
theorem derivative_mul_locator_eval (P : GFSymbol[X]) {S : Finset Nat} {i : Nat} (hi : i ∈ S) :
    (derivative (P * ∏ j ∈ S, (X + C (sym j)))).eval (sym i) = P.eval (sym i) * ∏ j ∈ S.erase i, (sym i + sym j) := by
  rw [← mul_prod_erase S _ hi, mul_left_comm, derivative_X_add_C_mul_eval, eval_mul, eval_locator]

/-- A polynomial of degree below `k` times the locator of at most `n - k` points has degree below `n`. -/
theorem degree_mul_locator_lt {P : GFSymbol[X]} {k n : Nat} (hP : P.degree < ↑k) (hkn : k ≤ n) {S : Finset Nat}
    (hS : S.card ≤ n - k) : (P * ∏ j ∈ S, (X + C (sym j))).degree < ↑n := by
  by_cases hP0 : P = 0
  · rw [hP0, zero_mul, degree_zero]; exact WithBot.bot_lt_coe _
  · have hL0 := (monic_prod_of_monic S _ fun j _ => monic_X_add_C (sym j)).ne_zero
    refine (natDegree_lt_iff_degree_lt (mul_ne_zero hP0 hL0)).1 ?_
    rw [natDegree_mul hP0 hL0, natDegree_locator]
    calc P.natDegree + S.card < k + (n - k) := Nat.add_lt_add_of_lt_of_le ((natDegree_lt_iff_degree_lt hP0).2 hP) hS
      _ = n := Nat.add_sub_cancel' hkn

/-- `decode_main` after `encodeL` and the erasure of at most `n - k` symbols: for every received word
that agrees below `n` with the codeword whose erased symbols are zeroed, each erased position `i < k`
gets `data[i]` back. -/
theorem decodeMain_encodeL {m a : Nat} (hm1 : 1 ≤ m) (hm : m ≤ 16) (ham : a ≤ m) (data : Nat → GFSymbol)
    (codeword : Buf) {erasure : Nat → Int} (he : ∀ j < 65536, erasure j = 0 ∨ erasure j = 1)
    (hcard : ((range 65536).filter (fun j => erasure j = 1)).card ≤ 2 ^ m - 2 ^ a) (log_walsh2 : Buf)
    {c : Buf} (hc : ∀ t < 2 ^ m, c t = if erasure t = 1 then 0 else
      encodeL (setup Tables.zero) (fun j => (data j).val) (2 ^ a) codeword (2 ^ m) t)
    {i : Nat} (hi : i < 2 ^ a) (hi1 : erasure i = 1) :
    decodeMain (setup Tables.zero) c (2 ^ a) erasure (decodeInit (setup Tables.zero) erasure log_walsh2 65536)
      (2 ^ m) i = (data i).val := by
  have hkn : 2 ^ a ≤ 2 ^ m := Nat.pow_le_pow_right two_pos ham
  have hM : 2 ^ m ≤ 65536 := Nat.pow_le_pow_right two_pos hm
  have hn : 2 ^ (m - a) * 2 ^ a = 2 ^ m := by rw [← pow_add, Nat.sub_add_cancel ham]
  obtain ⟨P, hPdeg, hPdata, henc⟩ := encodeL_interp (Nat.two_pow_pos (m - a))
    (hn ▸ Nat.pow_le_pow_right two_pos hm) data codeword
  rw [hn] at henc
  set E := (range 65536).filter (fun j => erasure j = 1)
  have hc' : ∀ t < 2 ^ m, c t = (if erasure t = 1 then 0 else P.eval (sym t)).val := fun t ht => by
    rw [hc t ht]; split_ifs
    · rfl
    · exact henc t ht
  have hGV : ∀ t < 2 ^ m, (P * ∏ j ∈ E, (X + C (sym j))).eval (sym t) =
      (if erasure t = 1 then 0 else P.eval (sym t)) * ∏ j ∈ E, (sym t + sym j) := fun t ht => by
    rw [eval_mul, eval_locator]; split_ifs with ht1
    · rw [locator_erased_eq_zero (by omega) ht1, mul_zero, mul_zero]
    · rfl
  have hEi : E.erase i = (range 65536).filter (fun j => j ≠ i ∧ erasure j = 1) := by
    ext j; simp only [E, mem_erase, mem_filter]; exact and_left_comm
  have hLi : ∏ j ∈ E.erase i, (sym i + sym j) ≠ 0 := prod_ne_zero_iff.2 fun j hj =>
    sym_add_ne_zero (by omega) (mem_range.1 (mem_filter.1 (mem_of_mem_erase hj)).1) (ne_of_mem_erase hj)
  rw [decodeMain_erased hm1 hm hkn he log_walsh2 hc' (degree_mul_locator_lt hPdeg hkn hcard) hGV (by omega) hi1,
    ← hEi, derivative_mul_locator_eval P ((mem_erased).2 ⟨by omega, hi1⟩), mul_inv_cancel_right₀ hLi, hPdata i hi]

/-- The erasure-decoding round trip after one `setup` from the zero state: for `n = 2^m` with
`1 ≤ m ≤ 16`, `k = 2^a ≤ n`, every message `data` and every `{0,1}` mask `e` over the `FIELD_SIZE`
positions with at most `n - k` ones, encode with `encodeL`, zero the erased symbols, run
`decode_init(e, log_walsh2, FIELD_SIZE)` and `decode_main(codeword, k, e, log_walsh2, n)`: every erased
position `i < k` holds `data[i]` again. Only the number of ones matters; the mask may also mark
positions at or above `n`. -/
theorem decode_roundtrip {m a : Nat} (hm1 : 1 ≤ m) (hm : m ≤ 16) (ham : a ≤ m) (data : Nat → GFSymbol)
    (codeword : Buf) {erasure : Nat → Int} (he : ∀ j < 65536, erasure j = 0 ∨ erasure j = 1)
    (hcard : ((range 65536).filter (fun j => erasure j = 1)).card ≤ 2 ^ m - 2 ^ a) (log_walsh2 : Buf) :
    ∀ i < 2 ^ a, erasure i = 1 →
      decodeMain (setup Tables.zero)
          (fun t => if erasure t = 1 then 0 else
            encodeL (setup Tables.zero) (fun j => (data j).val) (2 ^ a) codeword (2 ^ m) t)
          (2 ^ a) erasure (decodeInit (setup Tables.zero) erasure log_walsh2 65536) (2 ^ m) i = (data i).val :=
  fun _ hi hi1 => decodeMain_encodeL hm1 hm ham data codeword he hcard log_walsh2 (fun _ _ => rfl) hi hi1

theorem decode_roundtrip_one_erasure : 1 ≤ 1 ∧ 1 ≤ 16 ∧ 0 ≤ 1 ∧
    (∀ j < 65536, (if j = 0 then (1 : Int) else 0) = 0 ∨ (if j = 0 then (1 : Int) else 0) = 1) ∧
    ((range 65536).filter (fun j => (if j = 0 then (1 : Int) else 0) = 1)).card ≤ 2 ^ 1 - 2 ^ 0 ∧
    ∀ i < 2 ^ 0, (if i = 0 then (1 : Int) else 0) = 1 →
      decodeMain (setup Tables.zero)
          (fun t => if (if t = 0 then (1 : Int) else 0) = 1 then 0 else
            encodeL (setup Tables.zero) (fun j => ((fun _ => 1 : Nat → GFSymbol) j).val) (2 ^ 0) 0 (2 ^ 1) t)
          (2 ^ 0) (fun j => if j = 0 then 1 else 0)
          (decodeInit (setup Tables.zero) (fun j => if j = 0 then 1 else 0) 0 65536) (2 ^ 1) i =
        ((fun _ => 1 : Nat → GFSymbol) i).val :=
  have he : ∀ j < 65536, (if j = 0 then (1 : Int) else 0) = 0 ∨ (if j = 0 then (1 : Int) else 0) = 1 :=
    fun j _ => by split <;> simp
  have hcard : ((range 65536).filter (fun j => (if j = 0 then (1 : Int) else 0) = 1)).card ≤ 2 ^ 1 - 2 ^ 0 := by
    simp
  ⟨le_rfl, by decide, by decide, he, hcard, decode_roundtrip le_rfl (by decide) (by decide) _ 0 he hcard 0⟩

/-! ### The `roundtrip` driver -/

/-- `memset(a, 0x00, bytes)` on an array of `size`-byte elements: the first `bytes / size` become `0`. -/
def memsetZero {α : Type} [Zero α] (a : Nat → α) (bytes size : Nat) : Nat → α :=
  fun t => if t < bytes / size then 0 else a t

/-- The message block of `roundtrip(n, k)`: `memset(data, 0x0, 2n)` clears the `n` symbols, then
`data[i] = i*i % MODULO` for `i < k`. -/
def roundtripMessage (n k : Nat) (data : Buf) : Buf :=
  (forRange 0 k).foldl (fun d i => update d i (i * i % 65535)) (memsetZero data (2 * n) 2)

/-- The erasure block of `roundtrip(n, k)`: `memset(erasure, 0x00, FIELD_SIZE)` clears `FIELD_SIZE`
bytes, which are the first `FIELD_SIZE / 4` of the `int` entries, then `erasure[i] = 1` for
`i < n - k`. -/
def roundtripErasure (n k : Nat) (erasure : Nat → Int) : Nat → Int :=
  (forRange 0 (n - k)).foldl (fun e i => update e i 1) (memsetZero erasure 65536 4)

/-- `for (i < n) if (erasure[i]) codeword[i] = 0;` -/
def eraseSymbols (codeword : Buf) (erasure : Nat → Int) (n : Nat) : Buf :=
  (forRange 0 n).foldl (fun c i => if erasure i ≠ 0 then update c i 0 else c) codeword

/-- `roundtrip(n, k)` after `setup`, from the contents `data`, `codeword`, `erasure` and `log_walsh2`
its automatic arrays start with, which C leaves indeterminate (`memset(codeword, 0x00, n)` clears
`n/2` symbols; `encodeL` overwrites them all). The result is `1` when an erased position `i < k`
does not get `data[i]` back, and `0` otherwise. -/
def roundtrip (T : Tables) (n k : Nat) (data codeword : Buf) (erasure : Nat → Int) (log_walsh2 : Buf) : Nat :=
  let data := roundtripMessage n k data
  let codeword := encodeL T data k (memsetZero codeword n 2) n
  let erasure := roundtripErasure n k erasure
  let codeword := eraseSymbols codeword erasure n
  let log_walsh2 := decodeInit T erasure log_walsh2 65536
  let codeword := decodeMain T codeword k erasure log_walsh2 n
  if (forRange 0 k).any (fun i => erasure i == 1 && data i != codeword i) then 1 else 0

theorem foldl_update_const {α : Type} (js : List Nat) (v : α) (x : Nat → α) (t : Nat) :
    js.foldl (fun x i => update x i v) x t = if t ∈ js then v else x t := by
  induction js generalizing x with
  | nil => simp
  | cons j js ih =>
    rw [List.foldl_cons, ih, update_apply]
    by_cases h1 : t ∈ js <;> by_cases h2 : t = j <;> simp [h1, h2]

theorem roundtripMessage_apply (n k : Nat) (data : Buf) (t : Nat) :
    roundtripMessage n k data t = if t < k then t * t % 65535 else if t < n then 0 else data t := by
  rw [roundtripMessage, foldl_pointwise (forRange_nodup 0 k) fun i _ => i * i % 65535, memsetZero,
    Nat.mul_div_cancel_left n two_pos]
  simp only [mem_forRange, Nat.zero_le, true_and]

/-- Only the first `2^14` entries of the erasure array are cleared; the others keep what the stack held. -/
theorem roundtripErasure_apply (n k : Nat) (erasure : Nat → Int) (t : Nat) :
    roundtripErasure n k erasure t = if t < n - k then 1 else if t < 16384 then 0 else erasure t := by
  rw [roundtripErasure, foldl_update_const, memsetZero]
  simp only [mem_forRange, Nat.zero_le, true_and, show 65536 / 4 = 16384 from rfl]

theorem eraseSymbols_apply (codeword : Buf) (erasure : Nat → Int) (n t : Nat) :
    eraseSymbols codeword erasure n t = if t < n ∧ erasure t ≠ 0 then 0 else codeword t := by
  have hstep : (fun (c : Buf) i => if erasure i ≠ 0 then update c i 0 else c) =
      fun c i => update c i (if erasure i ≠ 0 then 0 else c i) := by
    funext c i; split <;> simp [*]
  rw [eraseSymbols, hstep, foldl_pointwise (forRange_nodup 0 n) fun i v => if erasure i ≠ 0 then 0 else v]
  by_cases h : t < n <;> by_cases he : erasure t ≠ 0 <;> simp [mem_forRange, h, he]

/-! ### A stale erasure entry -/

section Stale

/-- The erasure array of `roundtrip(4, 2)` when the stack held `1` at entry `2^14`: the cleared
quarter ends below it, so it stays and erases a third position. -/
theorem roundtripErasure_stale (t : Nat) :
    roundtripErasure 4 2 (fun j => if j = 16384 then 1 else 0) t = if t = 0 ∨ t = 1 ∨ t = 16384 then 1 else 0 := by
  rw [roundtripErasure_apply]; split_ifs <;> omega

theorem erased_stale :
    (range 65536).filter (fun j => roundtripErasure 4 2 (fun j => if j = 16384 then 1 else 0) j = 1) =
      {0, 1, 16384} := by
  ext j; simp only [mem_filter, mem_range, roundtripErasure_stale, mem_insert, mem_singleton]; split_ifs <;> omega

/-- `X·L - Z`, with `L` the locator of `{0, 1, 2^14}` and `Z` the one of `[0, 4)`: both are monic of
degree `4`, so the difference has degree below `4`. -/
theorem degree_stale_lt :
    (X * ∏ j ∈ ({0, 1, 16384} : Finset Nat), (X + C (sym j)) - ∏ u ∈ range 4, (X + C (sym u))).degree <
      ↑(2 ^ 2) := by
  have hXL := monic_X.mul (monic_prod_of_monic ({0, 1, 16384} : Finset Nat) _ fun j _ => monic_X_add_C (sym j))
  have hZ := monic_prod_of_monic (range 4) _ fun j _ => monic_X_add_C (sym j)
  have hXLdeg : (X * ∏ j ∈ ({0, 1, 16384} : Finset Nat), (X + C (sym j))).natDegree = 4 := by
    rw [monic_X.natDegree_mul (monic_prod_of_monic _ _ fun j _ => monic_X_add_C (sym j)), natDegree_X,
      natDegree_locator]; rfl
  refine (degree_sub_lt ?_ hXL.ne_zero (by rw [hXL.leadingCoeff, hZ.leadingCoeff])).trans_eq ?_
  · rw [degree_eq_natDegree hXL.ne_zero, degree_eq_natDegree hZ.ne_zero, hXLdeg, natDegree_locator, card_range]
  · rw [degree_eq_natDegree hXL.ne_zero, hXLdeg]; rfl

/-- `(X·L - Z)'(x_0) = -Z'(x_0)`: `x_0 = 0` is a double root of `X·L`, and a simple one of `Z`. -/
theorem derivative_stale_eval :
    (derivative (X * ∏ j ∈ ({0, 1, 16384} : Finset Nat), (X + C (sym j)) -
      ∏ u ∈ range 4, (X + C (sym u)))).eval (sym 0) = -∏ u ∈ (range 4).erase 0, (sym 0 + sym u) := by
  have hZ := derivative_mul_locator_eval 1 (mem_range.2 (by decide : 0 < 4))
  rw [one_mul, eval_one, one_mul] at hZ
  rw [derivative_sub, eval_sub, hZ, derivative_mul_locator_eval X (by simp), eval_X, sym_zero, zero_mul, zero_sub]

/-- `roundtrip(4, 2)` after `setup` reports a decoding error when its erasure array starts with `1` at
entry `2^14` (and zeros elsewhere): with three erasures for `n - k = 2`, `G = P·L` has degree `4`,
and `decode_main` interpolates `G - Z` instead, whose derivative does not vanish at `x_0`, so the
erased `data[0] = 0` comes back nonzero. -/
theorem roundtrip_stale_erasure :
    roundtrip (setup Tables.zero) 4 2 0 0 (fun j => if j = 16384 then 1 else 0) 0 = 1 := by
  obtain ⟨D, hD⟩ : ∃ D : Nat → GFSymbol, ∀ t, D t = if t = 1 then 1 else 0 := ⟨_, fun _ => rfl⟩
  have hdata : roundtripMessage 4 2 0 = fun t => (D t).val := funext fun t => by
    rw [roundtripMessage_apply, hD]
    rcases Nat.lt_or_ge t 2 with h | h
    · interval_cases t <;> rfl
    · rw [if_neg (by omega : ¬ t < 2), if_neg (by omega : ¬ t = 1)]; split_ifs <;> rfl
  -- `encodeL` of the message `[0, 1]` is the values of `P = X`
  obtain ⟨P, hPdeg, hPD, henc⟩ := encodeL_interp (a := 1) (c := 2) (by decide) (by decide) D (memsetZero 0 4 2)
  have hPX : P = X := poly_eq_of_eval_eq (k := 2 ^ 1) (by decide) hPdeg (by rw [degree_X]; decide) fun i hi => by
    rw [hPD i hi, eval_X, hD]; interval_cases i <;> rfl
  have hV : ∀ t < 2 ^ 2, eraseSymbols (encodeL (setup Tables.zero) (roundtripMessage 4 2 0) 2 (memsetZero 0 4 2) 4)
      (roundtripErasure 4 2 (fun j => if j = 16384 then 1 else 0)) 4 t = (if t < 2 then 0 else sym t).val :=
    fun t ht => by
    have henc' : ∀ t < 4, encodeL (setup Tables.zero) (fun i => (D i).val) 2 (memsetZero 0 4 2) 4 t =
        (P.eval (sym t)).val := henc
    rw [eraseSymbols_apply, roundtripErasure_stale, hdata]
    rcases Nat.lt_or_ge t 2 with h | h
    · rw [if_pos ⟨by omega, by rw [if_pos (by omega)]; decide⟩, if_pos h]; rfl
    · rw [if_neg (by rw [if_neg (by omega)]; simp), if_neg (by omega), henc' t ht, hPX, eval_X]
  have he : ∀ j < 65536, roundtripErasure 4 2 (fun j => if j = 16384 then 1 else 0) j = 0 ∨
      roundtripErasure 4 2 (fun j => if j = 16384 then 1 else 0) j = 1 := fun j _ => by
    rw [roundtripErasure_stale]; split_ifs <;> simp
  -- the first loop leaves the values of `X·L`, which agree with `X·L - Z` on `[0, 4)`
  have hGV : ∀ t < 2 ^ 2, (X * ∏ j ∈ ({0, 1, 16384} : Finset Nat), (X + C (sym j)) -
      ∏ u ∈ range 4, (X + C (sym u))).eval (sym t) = (if t < 2 then 0 else sym t) *
        ∏ j ∈ (range 65536).filter (fun j => roundtripErasure 4 2 (fun j => if j = 16384 then 1 else 0) j = 1),
          (sym t + sym j) := fun t ht => by
    rw [erased_stale, eval_sub, eval_mul, eval_X, eval_locator, eval_locator,
      prod_eq_zero (f := fun j => sym t + sym j) (mem_range.2 (show t < 4 from ht)) (CharTwo.add_self_eq_zero _),
      sub_zero]
    split_ifs with h
    · rw [prod_eq_zero (f := fun j => sym t + sym j) (i := t) (by simp; omega) (CharTwo.add_self_eq_zero _),
        mul_zero, mul_zero]
    · rfl
  have hdec := decodeMain_erased (m := 2) (k := 2) (by decide) (by decide) (by decide) he 0 hV degree_stale_lt hGV
    (i := 0) (by decide) (by rw [roundtripErasure_stale]; simp)
  rw [show (2 : Nat) ^ 2 = 4 from rfl, derivative_stale_eval] at hdec
  have hD0 : roundtripMessage 4 2 0 0 = 0 := by rw [hdata]; dsimp only; rw [hD]; rfl
  rw [roundtrip, if_pos (List.any_eq_true.2 ⟨0, mem_forRange.2 ⟨le_rfl, by decide⟩, ?_⟩)]
  rw [Bool.and_eq_true, beq_iff_eq, bne_iff_ne, roundtripErasure_stale, hD0, hdec]
  refine ⟨by simp, fun h => mul_ne_zero (neg_ne_zero.2 (prod_ne_zero_iff.2 fun u hu => ?_))
    (inv_ne_zero (prod_ne_zero_iff.2 fun j hj => ?_)) (GFSymbol.ext (h.symm.trans GFSymbol.val_zero.symm))⟩
  · exact sym_add_ne_zero (by decide) (by have := mem_range.1 (mem_of_mem_erase hu); omega) (ne_of_mem_erase hu)
  · exact sym_add_ne_zero (by decide) (mem_range.1 (mem_filter.1 hj).1) (mem_filter.1 hj).2.1

end Stale

/-! ### A clean stack -/

/-- `roundtrip(n, k)` after `setup` returns `0` for every pair of powers of two `k < n ≤ 2^16` and
every initial contents of `data`, `codeword` and `log_walsh2`, as long as the erasure entries that
`memset` leaves alone, `2^14` to `2^16 - 1`, start at `0`: the mask is then exactly the first `n - k`
positions. -/
theorem roundtrip_clean_stack {m a : Nat} (hm : m ≤ 16) (ham : a < m) (data : Nat → GFSymbol) (codeword : Buf)
    {erasure : Nat → Int} (hclean : ∀ t, 16384 ≤ t → t < 65536 → erasure t = 0) (log_walsh2 : Buf) :
    roundtrip (setup Tables.zero) (2 ^ m) (2 ^ a) (fun j => (data j).val) codeword erasure log_walsh2 = 0 := by
  have hkn : 2 ^ a < 2 ^ m := Nat.pow_lt_pow_right (by decide) ham
  have hM : 2 ^ m ≤ 65536 := Nat.pow_le_pow_right two_pos hm
  have hE : ∀ t < 65536, roundtripErasure (2 ^ m) (2 ^ a) erasure t = if t < 2 ^ m - 2 ^ a then 1 else 0 :=
    fun t ht => by
    rw [roundtripErasure_apply]; split_ifs <;> first | rfl | exact hclean t (by omega) ht
  have he : ∀ j < 65536, roundtripErasure (2 ^ m) (2 ^ a) erasure j = 0 ∨
      roundtripErasure (2 ^ m) (2 ^ a) erasure j = 1 := fun j hj => by
    rw [hE j hj]; split_ifs <;> simp
  have hcard : ((range 65536).filter (fun j => roundtripErasure (2 ^ m) (2 ^ a) erasure j = 1)).card ≤
      2 ^ m - 2 ^ a := by
    refine (card_le_card fun j hj => ?_).trans (card_range _).le
    obtain ⟨hj, hj1⟩ := mem_filter.1 hj
    rw [hE j (mem_range.1 hj)] at hj1
    split_ifs at hj1 with h
    · exact mem_range.2 h
    · exact absurd hj1 (by decide)
  obtain ⟨D, hD⟩ : ∃ D : Nat → GFSymbol,
      roundtripMessage (2 ^ m) (2 ^ a) (fun j => (data j).val) = fun t => (D t).val :=
    ⟨fun t => sym (roundtripMessage (2 ^ m) (2 ^ a) (fun j => (data j).val) t), funext fun t => (val_sym (by
      rw [roundtripMessage_apply]; split_ifs <;> first | omega | exact (data t).isLt)).symm⟩
  have hdec : ∀ i < 2 ^ a, roundtripErasure (2 ^ m) (2 ^ a) erasure i = 1 →
      decodeMain (setup Tables.zero) (eraseSymbols (encodeL (setup Tables.zero)
        (roundtripMessage (2 ^ m) (2 ^ a) (fun j => (data j).val)) (2 ^ a) (memsetZero codeword (2 ^ m) 2) (2 ^ m))
        (roundtripErasure (2 ^ m) (2 ^ a) erasure) (2 ^ m)) (2 ^ a) (roundtripErasure (2 ^ m) (2 ^ a) erasure)
        (decodeInit (setup Tables.zero) (roundtripErasure (2 ^ m) (2 ^ a) erasure) log_walsh2 65536) (2 ^ m) i =
        (D i).val := fun i hi hi1 =>
    decodeMain_encodeL (by omega) hm ham.le D (memsetZero codeword (2 ^ m) 2) he hcard log_walsh2
      (fun t ht => by rw [eraseSymbols_apply, hD]; rcases he t (by omega) with h | h <;> simp [h, ht]) hi hi1
  rw [roundtrip, if_neg]
  rw [List.any_eq_true]
  rintro ⟨i, hi, hb⟩
  rw [Bool.and_eq_true, beq_iff_eq, bne_iff_ne] at hb
  exact hb.2 (by rw [hdec i (mem_forRange.1 hi).2 hb.1, hD])

theorem roundtrip_clean_stack_four_two : 2 ≤ 16 ∧ 1 < 2 ∧
    (∀ t, 16384 ≤ t → t < 65536 → (fun t : Nat => if t < 16384 then (3 : Int) else 0) t = 0) ∧
    roundtrip (setup Tables.zero) (2 ^ 2) (2 ^ 1) (fun j => (sym (j + 5)).val) (fun t => t + 9)
      (fun t => if t < 16384 then 3 else 0) (fun t => t % 7) = 0 :=
  ⟨by decide, by decide, fun _ h _ => if_neg (Nat.not_lt.2 h),
    roundtrip_clean_stack (by decide) (by decide) (fun j => sym (j + 5)) (fun t => t + 9)
      (fun _ h _ => if_neg (Nat.not_lt.2 h)) (fun t => t % 7)⟩

/-! ### The `test_flt_roundtrip` driver -/

/-- `test_flt_roundtrip()` with `N = 16`: copy `expected` into `data`, `FLT(data, N, N/4)`,
`IFLT(data, N, N/4)`, then `assert(data[i] == expected[i])` for `i < N`; `true` when every assertion
holds. `data` is what the stack array held before the copy; the printing is left out. -/
def testFltRoundtrip (T : Tables) (data : Buf) : Bool :=
  let expected : Buf := fun i => [1, 2, 3, 5, 8, 13, 21, 44, 65, 0, 0xFFFF, 2, 3, 5, 7, 11].getD i 0
  let data := memcpy data 0 expected 16
  let data := FLT T data 16 (16 / 4)
  let data := IFLT T data 16 (16 / 4)
  (forRange 0 16).all fun i => data i == expected i

/-- `test_flt_roundtrip` passes whatever the tables hold: `IFLT` undoes `FLT` at every offset and for
every skew table, so the test exercises neither `init` nor `init_dec`. -/
theorem testFltRoundtrip_passes (T : Tables) (data : Buf) : testFltRoundtrip T data = true := by
  have h : ∀ x : Buf, IFLT T (FLT T x 16 (16 / 4)) 16 (16 / 4) = x := IFLT_FLT T 4 (16 / 4)
  simp only [testFltRoundtrip, h, List.all_eq_true, beq_iff_eq]
  intro i hi
  rw [memcpy_apply, if_pos ⟨Nat.zero_le _, (mem_forRange.1 hi).2⟩, Nat.sub_zero]

end NovelPoly
