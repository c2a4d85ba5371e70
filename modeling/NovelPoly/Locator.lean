import Mathlib.Algebra.BigOperators.Intervals
import NovelPoly.Decode
import NovelPoly.Hadamard
import NovelPoly.Field.Tables

/-!
What `decode_init` computes: the error locator `∏_{j erased} (x ⊕ j)` evaluated at every position,
in the log domain.

Seeding with the erasure mask `e` and transforming gives `H e`; `log_walsh` is `H L₀` for
`L₀ = LOG_TABLE` with entry `0` cleared; the second transform of the pointwise product is
`2^16 · (e ⋆ L₀)` by the dyadic convolution theorem, and `2^16 ≡ 1` modulo `MODULO`. So, over the
whole field, `log_walsh2[i] ≡ Σ_{j ≠ i erased} LOG_TABLE[i ⊕ j]`, negated at the erased positions
(`decodeInit_locator`).
-/

namespace NovelPoly

open Finset Function

theorem hadamard_congr {m : Nat} {x y : Nat → ZMod 65535} (h : ∀ u < 2 ^ m, x u = y u) {t : Nat}
    (ht : t < 2 ^ m) : hadamard m x t = hadamard m y t := by
  rw [hadamard_full m x ht, hadamard_full m y ht]
  exact sum_congr rfl fun s hs => by rw [h s (mem_range.1 hs)]

/-- `walsh` over the whole field, `size = 2^16`. -/
theorem walsh_field {x : Buf} (hx : ∀ t < 65536, x t ≤ 65535) {t : Nat} (ht : t < 65536) :
    walsh x 65536 t ≤ 65535 ∧ (walsh x 65536 t : ZMod 65535) = hadamard 16 (fun u => x u) t :=
  walsh_cast 16 hx ht

/-- `log_walsh` is the transform of `LOG_TABLE` with entry `0` cleared. -/
theorem setup_logWalsh (T : Tables) {i : Nat} (hi : i < 65536) :
    (setup T).logWalsh i ≤ 65535 ∧ ((setup T).logWalsh i : ZMod 65535) =
      hadamard 16 (fun u => ((update (init T).logTable 0 0 u : Nat) : ZMod 65535)) i := by
  rw [setup, initDec_logWalsh]
  refine walsh_field (fun u hu => ?_) hi
  rw [update_apply]
  split
  · omega
  · exact init_logTable_lt T hu

/-- The product loop of `decode_init` on 16-bit inputs: a residue below `MODULO`, read as the
product modulo `MODULO`. -/
theorem mul_mod_cast {a b : Nat} : a * b % 65535 ≤ 65535 ∧ ((a * b % 65535 : Nat) : ZMod 65535) = a * b := by
  refine ⟨by omega, ?_⟩
  rw [← Nat.cast_mul, ZMod.natCast_mod]

/-- The seed of a `{0,1}` mask is the mask itself. -/
theorem seed_cast {z : Int} (hz : z = 0 ∨ z = 1) :
    (z % 65536).toNat ≤ 65535 ∧ (((z % 65536).toNat : Nat) : ZMod 65535) = if z = 1 then 1 else 0 := by
  rcases hz with rfl | rfl <;> decide

/-- The XOR-convolution of a `{0,1}` mask with `L₀` is the sum of `LOG_TABLE[i ⊕ j]` over the other
erased positions `j`. -/
theorem sum_mask_conv (L : Buf) (erasure : Nat → Int) (i : Nat) :
    ∑ j ∈ range 65536, (if erasure j = 1 then (1 : ZMod 65535) else 0) *
        ((update L 0 0 (i ^^^ j) : Nat) : ZMod 65535) =
      ∑ j ∈ (range 65536).filter (fun j => j ≠ i ∧ erasure j = 1), ((L (i ^^^ j) : Nat) : ZMod 65535) := by
  rw [sum_filter]
  refine sum_congr rfl fun j _ => ?_
  by_cases hj : j = i
  · subst hj; rw [Nat.xor_self, update_same]; simp
  · rw [update_noteq (by rwa [Ne, Nat.xor_eq_zero, eq_comm])]
    by_cases he : erasure j = 1 <;> simp [hj, he]

/-- The seed loop stores `erasure[i]` into a `GFSymbol`: the value modulo `2^16`. -/
theorem seed_le (z : Int) : (z % 65536).toNat ≤ 65535 := by
  have := Int.emod_lt_of_pos z (by decide : (0 : Int) < 65536)
  have := Int.emod_nonneg z (by decide : (65536 : Int) ≠ 0)
  omega

/-- `decode_init(e, log_walsh2, FIELD_SIZE)` for every `int` mask: the XOR-convolution of the stored
seed `e[j] mod 2^16` with `L₀`, negated where `e[i] ≠ 0`. -/
theorem decodeInit_conv (T : Tables) (erasure : Nat → Int) (log_walsh2 : Buf) {i : Nat} (hi : i < 65536) :
    ((decodeInit (setup T) erasure log_walsh2 65536 i : Nat) : ZMod 65535) =
      if erasure i = 0 then
        ∑ j ∈ range 65536, (((erasure j % 65536).toNat : Nat) : ZMod 65535) *
          ((update (init T).logTable 0 0 (i ^^^ j) : Nat) : ZMod 65535)
      else -∑ j ∈ range 65536, (((erasure j % 65536).toNat : Nat) : ZMod 65535) *
          ((update (init T).logTable 0 0 (i ^^^ j) : Nat) : ZMod 65535) := by
  set seed : Buf := fun u => if u < 65536 then (erasure u % 65536).toNat else log_walsh2 u
  have hseed : ∀ u < 65536, seed u ≤ 65535 := fun u hu => by simp only [seed, if_pos hu]; exact seed_le _
  set prod : Buf := fun u =>
    if u < 65536 then walsh seed 65536 u * (setup T).logWalsh u % 65535 else walsh seed 65536 u
  have hprod : ∀ u < 65536, prod u ≤ 65535 ∧ (prod u : ZMod 65535) =
      hadamard 16 (fun u => (seed u : ZMod 65535)) u *
        hadamard 16 (fun u => ((update (init T).logTable 0 0 u : Nat) : ZMod 65535)) u := fun u hu => by
    simp only [prod, if_pos hu]
    rw [mul_mod_cast.2, (walsh_field hseed hu).2, (setup_logWalsh T hu).2]
    exact ⟨mul_mod_cast.1, rfl⟩
  obtain ⟨hW, hWcast⟩ := walsh_field (fun u hu => (hprod u hu).1) hi
  have hconv : (walsh prod 65536 i : ZMod 65535) =
      ∑ j ∈ range 65536, (((erasure j % 65536).toNat : Nat) : ZMod 65535) *
        ((update (init T).logTable 0 0 (i ^^^ j) : Nat) : ZMod 65535) := by
    rw [hWcast, hadamard_congr (fun u hu => (hprod u hu).2) hi, hadamard_mul_hadamard 16 _ _ hi,
      show (2 : ZMod 65535) ^ 16 = 1 from rfl, one_mul]
    exact sum_congr rfl fun j hj => by simp only [seed, if_pos (mem_range.1 hj)]
  rw [decodeInit_apply]
  dsimp only
  by_cases h0 : erasure i = 0
  · rw [if_neg (by simp [h0]), if_pos h0, hconv]
  · rw [if_pos ⟨hi, h0⟩, if_neg h0, Nat.cast_sub hW, ← hconv,
      show ((65535 : Nat) : ZMod 65535) = 0 from rfl, zero_sub]

/-- `decode_init(e, log_walsh2, FIELD_SIZE)` on a mask with entries in `{0, 1}`. -/
theorem decodeInit_locator_of_mask (T : Tables) (erasure : Nat → Int) (log_walsh2 : Buf)
    (he : ∀ j < 65536, erasure j = 0 ∨ erasure j = 1) {i : Nat} (hi : i < 65536) :
    ((decodeInit (setup T) erasure log_walsh2 65536 i : Nat) : ZMod 65535) =
      if erasure i = 0 then
        ∑ j ∈ (range 65536).filter (fun j => j ≠ i ∧ erasure j = 1),
          (((setup T).logTable (i ^^^ j) : Nat) : ZMod 65535)
      else -∑ j ∈ (range 65536).filter (fun j => j ≠ i ∧ erasure j = 1),
          (((setup T).logTable (i ^^^ j) : Nat) : ZMod 65535) := by
  have hsum : ∑ j ∈ range 65536, (((erasure j % 65536).toNat : Nat) : ZMod 65535) *
      ((update (init T).logTable 0 0 (i ^^^ j) : Nat) : ZMod 65535) =
        ∑ j ∈ (range 65536).filter (fun j => j ≠ i ∧ erasure j = 1),
          (((setup T).logTable (i ^^^ j) : Nat) : ZMod 65535) := by
    rw [setup, initDec_logTable, ← sum_mask_conv]
    exact sum_congr rfl fun j hj => by rw [(seed_cast (he j (mem_range.1 hj))).2]
  rw [decodeInit_conv T erasure log_walsh2 hi, hsum]

/-- `decode_init(e, log_walsh2, FIELD_SIZE)` evaluates the error locator: for the `{0,1}` mask `e`
of the erased set `mask`, `log_walsh2[i] ≡ S_i` modulo `MODULO` at a kept position and `-S_i` at
an erased one, where `S_i = Σ_{j ≠ i erased} LOG_TABLE[i ⊕ j]`. -/
theorem decodeInit_locator (T : Tables) (mask : Nat → Bool) (log_walsh2 : Buf) (i : Fin 65536) :
    ((decodeInit (setup T) (fun j => if mask j then 1 else 0) log_walsh2 65536 i.val : Nat) : ZMod 65535) =
      if mask i.val then
        -∑ j ∈ (range 65536).filter (fun j => j ≠ i.val ∧ mask j),
          (((setup T).logTable (i.val ^^^ j) : Nat) : ZMod 65535)
      else ∑ j ∈ (range 65536).filter (fun j => j ≠ i.val ∧ mask j),
          (((setup T).logTable (i.val ^^^ j) : Nat) : ZMod 65535) := by
  have hfilter : (range 65536).filter (fun j => j ≠ i.val ∧ (if mask j then (1 : Int) else 0) = 1) =
      (range 65536).filter (fun j => j ≠ i.val ∧ mask j) :=
    filter_congr fun j _ => by cases mask j <;> simp
  rw [decodeInit_locator_of_mask T _ log_walsh2 (fun j _ => by cases mask j <;> simp) i.isLt, hfilter]
  cases mask i.val <;> simp

/-! ### Mask values other than `0` and `1` -/

/-- A mask that is `c ∈ [0, 2^16)` at position `0` and zero elsewhere leaves `c · LOG_TABLE[2]` at
position `2`. -/
theorem decodeInit_single (T : Tables) (log_walsh2 : Buf) {c : Int} (hc0 : 0 ≤ c) (hc : c < 65536) :
    ((decodeInit (setup T) (fun j => if j = 0 then c else 0) log_walsh2 65536 2 : Nat) : ZMod 65535) =
      (c.toNat : ZMod 65535) * ((init T).logTable 2 : ZMod 65535) := by
  rw [decodeInit_conv T _ log_walsh2 (by decide), if_pos (by simp),
    sum_eq_single_of_mem 0 (mem_range.2 (by decide)) fun j _ hj => by simp [hj]]
  simp [Int.emod_eq_of_lt hc0 hc]

/-- `decode_init` reads the values of the mask, not only where it is nonzero: the masks with
`e[0] = 2` and with `e[0] = 1`, zero elsewhere, erase the same position, but
`decode_init(e, log_walsh2, FIELD_SIZE)` leaves `2·LOG_TABLE[2]` at position `2` for the first and
`LOG_TABLE[2]` for the second, which differ modulo `MODULO` since `2` is not `1 = EXP_TABLE[0]`. -/
theorem decodeInit_mask_value (T : Tables) (log_walsh2 : Buf) :
    decodeInit (setup T) (fun j => if j = 0 then 2 else 0) log_walsh2 65536 2 ≠
      decodeInit (setup T) (fun j => if j = 0 then 1 else 0) log_walsh2 65536 2 := by
  intro h
  have h21 := decodeInit_single T log_walsh2 (c := 2) (by decide) (by decide)
  rw [h, decodeInit_single T log_walsh2 (c := 1) (by decide) (by decide)] at h21
  rw [show ((1 : Int).toNat : ZMod 65535) = 1 from rfl, show ((2 : Int).toNat : ZMod 65535) = 2 from rfl] at h21
  have hL : (((init T).logTable 2 : Nat) : ZMod 65535) = 0 :=
    calc _ = 2 * (((init T).logTable 2 : Nat) : ZMod 65535) - 1 * ((init T).logTable 2 : Nat) := by ring
      _ = 0 := by rw [← h21, sub_self]
  obtain ⟨hlt, hx⟩ := init_logTable_spec T (v := 2) (by decide) (by decide)
  rw [ZMod.natCast_zmod_eq_zero_iff_dvd] at hL
  rw [Nat.eq_zero_of_dvd_of_lt hL hlt] at hx
  exact absurd (psi_inj (a := 1) (b := 2) (by decide) (by decide) (psi_one.trans hx)) (by decide)

/-! ### Lengths below `FIELD_SIZE` -/

theorem hsign_zero_left (r s : Nat) : hsign r 0 s = 1 :=
  prod_eq_one fun b _ => by simp

theorem hadamard_at_zero (m : Nat) (x : Nat → ZMod 65535) :
    hadamard m x 0 = ∑ s ∈ range (2 ^ m), x s := by
  rw [hadamard_full m x (Nat.two_pow_pos m)]; simp only [hsign_zero_left, one_mul]

/-- The entries of a transform sum to `2^m` times the entry at `0`. -/
theorem sum_hadamard (m : Nat) (x : Nat → ZMod 65535) :
    ∑ t ∈ range (2 ^ m), hadamard m x t = 2 ^ m * x 0 := by
  calc ∑ t ∈ range (2 ^ m), hadamard m x t
      = ∑ s ∈ range (2 ^ m), x s * ∑ t ∈ range (2 ^ m), hsign m t s := by
        rw [sum_congr rfl fun t ht => hadamard_full m x (mem_range.1 ht), sum_comm]
        exact sum_congr rfl fun s _ => by rw [mul_sum]; exact sum_congr rfl fun t _ => mul_comm _ _
    _ = ∑ s ∈ range (2 ^ m), if s = 0 then 2 ^ m * x s else 0 := sum_congr rfl fun s hs => by
        rw [sum_hsign, Nat.mod_eq_of_lt (mem_range.1 hs)]; split_ifs <;> simp [mul_comm]
    _ = 2 ^ m * x 0 := by rw [sum_ite_eq', if_pos (mem_range.2 (Nat.two_pow_pos m))]

/-- `log_walsh[0] ≡ 0`: the logarithms of the nonzero symbols are `0, …, MODULO - 1`, whose sum
`MODULO · (MODULO - 1) / 2` is a multiple of `MODULO`. -/
theorem setup_logWalsh_zero (T : Tables) : ((setup T).logWalsh 0 : ZMod 65535) = 0 := by
  rw [(setup_logWalsh T (by decide)).2, hadamard_at_zero]
  simp only [Nat.reducePow]
  rw [← sum_erase_add _ _ (mem_range.2 (by decide : 0 < 65536)), update_same, Nat.cast_zero, add_zero]
  have hlog : ∀ v ∈ (range 65536).erase 0, (init T).logTable v < 65535 ∧
      xpow ((init T).logTable v) = psi v := fun v hv =>
    init_logTable_spec T (ne_of_mem_erase hv) (mem_range.1 (mem_of_mem_erase hv))
  calc ∑ s ∈ (range 65536).erase 0, ((update (init T).logTable 0 0 s : Nat) : ZMod 65535)
      = ∑ k ∈ range 65535, (k : ZMod 65535) :=
        sum_nbij' (fun v => (init T).logTable v) (fun e => psiInv (xpow e))
          (fun v hv => mem_range.2 (hlog v hv).1)
          (fun e _ => mem_erase.2 ⟨psiInv_xpow_ne_zero e, mem_range.2 (psiInv_lt _)⟩)
          (fun v hv => by dsimp only; rw [(hlog v hv).2, psiInv_psi (mem_range.1 (mem_of_mem_erase hv))])
          (fun e he => init_logTable_psiInv T (mem_range.1 he))
          (fun v hv => by rw [update_noteq (ne_of_mem_erase hv)])
    _ = 0 := by
        rw [← Nat.cast_sum, sum_range_id, ZMod.natCast_zmod_eq_zero_iff_dvd]
        exact ⟨32767, by norm_num⟩

/-- `decode_init` with a length below `FIELD_SIZE` does not compute the locator: with nothing
erased and a stale `1` at position `1` of the scratch array, `decode_init(e, log_walsh2, 1)` leaves
`-1` modulo `MODULO` at position `0`, where `decode_init(e, log_walsh2, FIELD_SIZE)` leaves `0`. -/
theorem decodeInit_short_length (T : Tables) :
    ((decodeInit (setup T) (fun _ => 0) (fun u => if u = 1 then 1 else 0) 1 0 : Nat) : ZMod 65535) = -1 ∧
      ((decodeInit (setup T) (fun _ => 0) (fun u => if u = 1 then 1 else 0) 65536 0 : Nat) :
        ZMod 65535) = 0 := by
  constructor
  · set seed : Buf := fun u => if u < 1 then (((0 : Int) % 65536).toNat) else if u = 1 then 1 else 0
    have hseed : ∀ u < 65536, seed u ≤ 65535 := fun u _ => by simp only [seed]; split_ifs <;> decide
    have hseed1 : ∑ s ∈ range 65536, (seed s : ZMod 65535) = 1 := by
      rw [sum_eq_single_of_mem 1 (mem_range.2 (by decide)) fun s _ hs => by simp [seed, hs]]
      rfl
    set prod : Buf := fun u => if u < 1 then walsh seed 65536 u * (setup T).logWalsh u % 65535
      else walsh seed 65536 u
    have hprod : ∀ u < 65536, prod u ≤ 65535 ∧ (prod u : ZMod 65535) =
        if u = 0 then 0 else hadamard 16 (fun u => (seed u : ZMod 65535)) u := fun u hu => by
      simp only [prod]
      split_ifs with h1 h0 h0
      · subst u; rw [mul_mod_cast.2, setup_logWalsh_zero, mul_zero]; exact ⟨mul_mod_cast.1, rfl⟩
      · omega
      · omega
      · exact walsh_field hseed hu
    rw [decodeInit_apply]
    dsimp only
    rw [if_neg (by simp), (walsh_field (fun u hu => (hprod u hu).1) (by decide)).2, hadamard_at_zero]
    simp only [Nat.reducePow]
    rw [sum_congr rfl fun u hu => (hprod u (mem_range.1 hu)).2]
    have hsplit := sum_hadamard 16 (fun u => (seed u : ZMod 65535))
    rw [← sum_erase_add _ _ (mem_range.2 (Nat.two_pow_pos 16)), hadamard_at_zero] at hsplit
    simp only [Nat.reducePow] at hsplit
    rw [hseed1, show (seed 0 : ZMod 65535) = 0 from rfl, mul_zero] at hsplit
    rw [← sum_erase_add _ _ (mem_range.2 (by decide : 0 < 65536)), if_pos rfl, add_zero,
      sum_congr rfl fun u hu => if_neg (ne_of_mem_erase hu)]
    exact eq_neg_of_add_eq_zero_left hsplit
  · rw [decodeInit_locator_of_mask T _ _ (fun _ _ => Or.inl rfl) (by decide), if_pos rfl]
    simp

/-- What `decode_init(e, log_walsh2, n)` reads of the array it is handed: only the cells
`[n, FIELD_SIZE)`, which its seed loop leaves stale and both transforms take in. With
`n = FIELD_SIZE` it reads nothing of it. -/
theorem decodeInit_reads (T : Tables) (erasure : Nat → Int) {n : Nat} {lw lw' : Buf}
    (h : ∀ u, n ≤ u → u < 65536 → lw u = lw' u) {t : Nat} (ht : t < 65536) :
    decodeInit T erasure lw n t = decodeInit T erasure lw' n t := by
  have hW : ∀ x y : Buf, (∀ u < 65536, x u = y u) → ∀ t < 65536, walsh x 65536 t = walsh y 65536 t :=
    (walsh_localOn 16).reads
  have hseed := hW (fun u => if u < n then (erasure u % 65536).toNat else lw u)
    (fun u => if u < n then (erasure u % 65536).toNat else lw' u) fun u hu => by
      by_cases hun : u < n
      · simp only [if_pos hun]
      · simp only [if_neg hun, h u (Nat.le_of_not_lt hun) hu]
  rw [decodeInit_apply, decodeInit_apply]
  dsimp only
  rw [hW _ _ (fun u hu => by rw [hseed u hu]) t ht]

theorem decodeInit_reads_seed_cell :
    (∀ u, 1 ≤ u → u < 65536 → (fun _ => 0 : Buf) u = (fun u => if u = 0 then 5 else 0 : Buf) u) ∧ 3 < 65536 ∧
      decodeInit (setup Tables.zero) (fun u => if u = 0 then 1 else 0) (fun _ => 0) 1 3 =
        decodeInit (setup Tables.zero) (fun u => if u = 0 then 1 else 0) (fun u => if u = 0 then 5 else 0) 1 3 :=
  have h : ∀ u, 1 ≤ u → u < 65536 → (fun _ => 0 : Buf) u = (fun u => if u = 0 then 5 else 0 : Buf) u :=
    fun _ h1 _ => (if_neg (Nat.one_le_iff_ne_zero.1 h1)).symm
  ⟨h, by decide, decodeInit_reads (setup Tables.zero) (fun u => if u = 0 then 1 else 0) h (by decide)⟩

end NovelPoly
