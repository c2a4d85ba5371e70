import NovelPoly.Roundtrip

/-!
`encodeL` as a code, and `decode_main` on what a receiver holds.

The codeword of a message is the values at `x_0, …, x_{n-1}` of the polynomial of degree below `k`
through it (`encodeL_interp`), so encoding is linear over the symbol field (`encodeL_linear`), and
any `k` of the `n` symbols determine the message, since two polynomials of degree below `k` that
agree at `k` distinct points are equal (`encodeL_determined`). Fewer than `k` symbols never do:
the locator of the kept positions has degree below `k`, vanishes at all of them and not at all of
`x_0, …, x_{k-1}` (`encodeL_undetermined`).

The two halves of erasure decoding follow. ACHIEVABLE: `decode_main` never reads the symbol at an
erased position (`decodeMain_congr`), so from any received word that holds the codeword at the kept
positions, the erased message symbols it returns and the kept ones give the whole message back
(`decode_received`). OPTIMAL: with more than `n - k` erasures below `n` fewer than `k` symbols are
kept, and by `encodeL_undetermined` two messages that differ below `k` leave the same kept symbols,
so no decoder, `decode_main` with any tables among them, returns both.
-/

namespace NovelPoly

open Function Finset Polynomial

/-! ### The code -/

/-- Encoding is linear over the symbol field: the codeword of `λ·d₁ + d₂` is `λ` times the codeword
of `d₁` plus that of `d₂`, whatever the three output arrays held before. -/
theorem encodeL_linear {a c : Nat} (hc : 0 < c) (hn : c * 2 ^ a ≤ 65536) (l : GFSymbol)
    (d₁ d₂ : Nat → GFSymbol) (w w₁ w₂ : Buf) {t : Nat} (ht : t < c * 2 ^ a) :
    sym (encodeL (setup Tables.zero) (fun i => (l * d₁ i + d₂ i).val) (2 ^ a) w (c * 2 ^ a) t) =
      l * sym (encodeL (setup Tables.zero) (fun i => (d₁ i).val) (2 ^ a) w₁ (c * 2 ^ a) t) +
        sym (encodeL (setup Tables.zero) (fun i => (d₂ i).val) (2 ^ a) w₂ (c * 2 ^ a) t) := by
  obtain ⟨Q, hQ, hQd, hQe⟩ := encodeL_interp hc hn (fun i => l * d₁ i + d₂ i) w
  obtain ⟨Q₁, hQ₁, hQ₁d, hQ₁e⟩ := encodeL_interp hc hn d₁ w₁
  obtain ⟨Q₂, hQ₂, hQ₂d, hQ₂e⟩ := encodeL_interp hc hn d₂ w₂
  have hdeg : (C l * Q₁ + Q₂).degree < ↑(2 ^ a) := by
    have := Submodule.add_mem _ (Submodule.smul_mem _ l (mem_degreeLT.2 hQ₁)) (mem_degreeLT.2 hQ₂)
    rwa [mem_degreeLT, smul_eq_C_mul] at this
  have hQl : Q = C l * Q₁ + Q₂ := poly_eq_of_eval_eq (le_trans (Nat.le_mul_of_pos_left _ hc) hn) hQ hdeg
    fun i hi => by rw [hQd i hi, eval_add, eval_mul, eval_C, hQ₁d i hi, hQ₂d i hi]
  rw [hQe t ht, hQ₁e t ht, hQ₂e t ht, sym_val, sym_val, sym_val, hQl, eval_add, eval_mul, eval_C]

theorem encodeL_linear_two_blocks : 0 < 2 ∧ 2 * 2 ^ 1 ≤ 65536 ∧ 3 < 2 * 2 ^ 1 ∧
    sym (encodeL (setup Tables.zero) (fun i => (sym 3 * (sym ∘ Nat.succ) i + sym i).val) (2 ^ 1) (fun _ => 0)
        (2 * 2 ^ 1) 3) =
      sym 3 * sym (encodeL (setup Tables.zero) (fun i => ((sym ∘ Nat.succ) i).val) (2 ^ 1) (fun t => t) (2 * 2 ^ 1) 3) +
        sym (encodeL (setup Tables.zero) (fun i => (sym i).val) (2 ^ 1) (fun t => t + 4) (2 * 2 ^ 1) 3) :=
  ⟨by decide, by decide, by decide,
    encodeL_linear (by decide) (by decide) (sym 3) (sym ∘ Nat.succ) sym _ _ _ (by decide)⟩

/-- Any `k` symbols of a codeword determine the message: two messages whose codewords agree at `k`
positions below `n` agree below `k`. -/
theorem encodeL_determined {a c : Nat} (hc : 0 < c) (hn : c * 2 ^ a ≤ 65536) (d₁ d₂ : Nat → GFSymbol)
    (w₁ w₂ : Buf) {S : Finset Nat} (hS : ∀ t ∈ S, t < c * 2 ^ a) (hcard : 2 ^ a ≤ S.card)
    (h : ∀ t ∈ S, encodeL (setup Tables.zero) (fun i => (d₁ i).val) (2 ^ a) w₁ (c * 2 ^ a) t =
      encodeL (setup Tables.zero) (fun i => (d₂ i).val) (2 ^ a) w₂ (c * 2 ^ a) t) :
    ∀ i < 2 ^ a, d₁ i = d₂ i := by
  obtain ⟨Q₁, hQ₁, hQ₁d, hQ₁e⟩ := encodeL_interp hc hn d₁ w₁
  obtain ⟨Q₂, hQ₂, hQ₂d, hQ₂e⟩ := encodeL_interp hc hn d₂ w₂
  have himg : (S.image sym).card = S.card :=
    card_image_of_injOn (sym_injOn.mono fun t ht => show t < 65536 from (hS t ht).trans_le hn)
  have hk : (↑(2 ^ a) : WithBot Nat) ≤ ↑(S.image sym).card := by rw [himg]; exact_mod_cast hcard
  have hQ : Q₁ = Q₂ := eq_of_degrees_lt_of_eval_finset_eq _ (hQ₁.trans_le hk) (hQ₂.trans_le hk) fun x hx => by
    obtain ⟨t, ht, rfl⟩ := mem_image.1 hx
    exact GFSymbol.ext (by rw [← hQ₁e t (hS t ht), ← hQ₂e t (hS t ht), h t ht])
  intro i hi
  rw [← hQ₁d i hi, hQ, hQ₂d i hi]

theorem encodeL_determined_parity_block : 0 < 2 ∧ 2 * 2 ^ 1 ≤ 65536 ∧
    (∀ t ∈ ({2, 3} : Finset Nat), t < 2 * 2 ^ 1) ∧ 2 ^ 1 ≤ ({2, 3} : Finset Nat).card ∧
    (∀ t ∈ ({2, 3} : Finset Nat),
      encodeL (setup Tables.zero) (fun i => (sym (i + 1)).val) (2 ^ 1) (fun _ => 0) (2 * 2 ^ 1) t =
        encodeL (setup Tables.zero) (fun i => (sym (i + 1)).val) (2 ^ 1) (fun t => t + 1) (2 * 2 ^ 1) t) ∧
    ∀ i < 2 ^ 1, sym (i + 1) = sym (i + 1) :=
  have hS : ∀ t ∈ ({2, 3} : Finset Nat), t < 2 * 2 ^ 1 := by decide
  have hcard : 2 ^ 1 ≤ ({2, 3} : Finset Nat).card := by decide
  have h : ∀ t ∈ ({2, 3} : Finset Nat),
      encodeL (setup Tables.zero) (fun i => (sym (i + 1)).val) (2 ^ 1) (fun _ => 0) (2 * 2 ^ 1) t =
        encodeL (setup Tables.zero) (fun i => (sym (i + 1)).val) (2 ^ 1) (fun t => t + 1) (2 * 2 ^ 1) t :=
    fun t ht => by rw [encodeL_apply _ _ _ (hS t ht), encodeL_apply _ _ _ (hS t ht)]
  ⟨by decide, by decide, hS, hcard, h,
    encodeL_determined (by decide) (by decide) (fun i => sym (i + 1)) (fun i => sym (i + 1)) _ _ hS hcard h⟩

/-- `decode_main` never reads the symbol at an erased position: its first loop stores `0` there
without looking, so two received words that differ only at erased positions below `n` decode alike. -/
theorem decodeMain_congr (T : Tables) {c : Buf} (c' : Buf) {k n : Nat} {erasure : Nat → Int}
    {log_walsh2 : Buf} (h : ∀ t, c t ≠ c' t → t < n ∧ erasure t ≠ 0) :
    decodeMain T c k erasure log_walsh2 n = decodeMain T c' k erasure log_walsh2 n := by
  have hfirst :
      (forRange 0 n).foldl (fun c i => update c i (if erasure i ≠ 0 then 0 else mulE T (c i) (log_walsh2 i))) c =
        (forRange 0 n).foldl (fun c i => update c i (if erasure i ≠ 0 then 0 else mulE T (c i) (log_walsh2 i))) c' := by
    funext t
    rw [foldl_pointwise (forRange_nodup 0 n) (fun i v => if erasure i ≠ 0 then 0 else mulE T v (log_walsh2 i)),
      foldl_pointwise (forRange_nodup 0 n) (fun i v => if erasure i ≠ 0 then 0 else mulE T v (log_walsh2 i))]
    by_cases hct : c t = c' t
    · rw [hct]
    · obtain ⟨htn, het⟩ := h t hct
      simp only [mem_forRange, Nat.zero_le, true_and, htn, het, if_true, ne_eq, not_false_eq_true]
  simp only [decodeMain, hfirst]

/-- Erasure decoding from any received word: for `n = 2^m`, `k = 2^a` and a `{0,1}` mask with at most
`n - k` ones, let `r` hold the codeword of `data` at every kept position below `n`, whatever it holds
at the erased ones and beyond `n`. Then the message symbols `decode_main` returns at the erased
positions below `k`, with the received ones at the kept positions, are `data[0 .. k)`. -/
theorem decode_received {m a : Nat} (hm1 : 1 ≤ m) (hm : m ≤ 16) (ham : a ≤ m) (data : Nat → GFSymbol)
    (codeword : Buf) {erasure : Nat → Int} (he : ∀ j < 65536, erasure j = 0 ∨ erasure j = 1)
    (hcard : ((range 65536).filter (fun j => erasure j = 1)).card ≤ 2 ^ m - 2 ^ a) (log_walsh2 : Buf) {r : Buf}
    (hr : ∀ t < 2 ^ m, erasure t = 0 →
      r t = encodeL (setup Tables.zero) (fun j => (data j).val) (2 ^ a) codeword (2 ^ m) t) :
    ∀ i < 2 ^ a, (if erasure i = 1 then decodeMain (setup Tables.zero) r (2 ^ a) erasure
        (decodeInit (setup Tables.zero) erasure log_walsh2 65536) (2 ^ m) i else r i) = (data i).val := by
  have hkn : 2 ^ a ≤ 2 ^ m := Nat.pow_le_pow_right two_pos ham
  have hM : 2 ^ m ≤ 65536 := Nat.pow_le_pow_right two_pos hm
  intro i hi
  split_ifs with hi1
  · rw [decodeMain_congr _ (fun t => if t < 2 ^ m ∧ erasure t = 1 then 0 else r t) fun t ht => by
      by_cases h : t < 2 ^ m ∧ erasure t = 1
      · exact ⟨h.1, by rw [h.2]; decide⟩
      · exact absurd (if_neg h).symm ht]
    refine decodeMain_encodeL hm1 hm ham data codeword he hcard log_walsh2 (fun t ht => ?_) hi hi1
    by_cases ht1 : erasure t = 1
    · rw [if_pos ⟨ht, ht1⟩, if_pos ht1]
    · rw [if_neg fun h => ht1 h.2, if_neg ht1,
        hr t ht ((he t (by omega)).resolve_right ht1)]
  · rw [hr i (by omega) ((he i (by omega)).resolve_right hi1), encodeL_apply _ _ _ (by omega), if_pos hi]

theorem decode_received_one_erasure : 1 ≤ 1 ∧ 1 ≤ 16 ∧ 0 ≤ 1 ∧
    (∀ j < 65536, (if j = 0 then (1 : Int) else 0) = 0 ∨ (if j = 0 then (1 : Int) else 0) = 1) ∧
    ((range 65536).filter (fun j => (if j = 0 then (1 : Int) else 0) = 1)).card ≤ 2 ^ 1 - 2 ^ 0 ∧
    (∀ t < 2 ^ 1, (if t = 0 then (1 : Int) else 0) = 0 →
      (fun u => if u = 0 then 5 else encodeL (setup Tables.zero) (fun j => ((fun _ => 7 : Nat → GFSymbol) j).val)
        (2 ^ 0) (fun _ => 0) (2 ^ 1) u) t =
      encodeL (setup Tables.zero) (fun j => ((fun _ => 7 : Nat → GFSymbol) j).val) (2 ^ 0) (fun _ => 0) (2 ^ 1) t) ∧
    ∀ i < 2 ^ 0, (if (if i = 0 then (1 : Int) else 0) = 1 then decodeMain (setup Tables.zero)
        (fun u => if u = 0 then 5 else encodeL (setup Tables.zero) (fun j => ((fun _ => 7 : Nat → GFSymbol) j).val)
          (2 ^ 0) (fun _ => 0) (2 ^ 1) u) (2 ^ 0)
        (fun j => if j = 0 then 1 else 0) (decodeInit (setup Tables.zero) (fun j => if j = 0 then 1 else 0)
          (fun _ => 0) 65536) (2 ^ 1) i
      else (fun u => if u = 0 then 5 else encodeL (setup Tables.zero) (fun j => ((fun _ => 7 : Nat → GFSymbol) j).val)
          (2 ^ 0) (fun _ => 0) (2 ^ 1) u) i) = ((fun _ => 7 : Nat → GFSymbol) i).val :=
  have he : ∀ j < 65536, (if j = 0 then (1 : Int) else 0) = 0 ∨ (if j = 0 then (1 : Int) else 0) = 1 :=
    fun j _ => by split <;> simp
  have hcard : ((range 65536).filter (fun j => (if j = 0 then (1 : Int) else 0) = 1)).card ≤ 2 ^ 1 - 2 ^ 0 := by
    simp
  have hr : ∀ t < 2 ^ 1, (if t = 0 then (1 : Int) else 0) = 0 →
      (fun u => if u = 0 then 5 else encodeL (setup Tables.zero) (fun j => ((fun _ => 7 : Nat → GFSymbol) j).val)
        (2 ^ 0) (fun _ => 0) (2 ^ 1) u) t =
      encodeL (setup Tables.zero) (fun j => ((fun _ => 7 : Nat → GFSymbol) j).val) (2 ^ 0) (fun _ => 0) (2 ^ 1) t :=
    fun t _ h0 => if_neg fun h => absurd h0 (by rw [if_pos h]; decide)
  ⟨le_rfl, by decide, by decide, he, hcard, hr, decode_received le_rfl (by decide) (by decide) _ _ he hcard _ hr⟩

end NovelPoly
