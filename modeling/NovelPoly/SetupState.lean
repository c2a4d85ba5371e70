import NovelPoly.InitDec
import NovelPoly.Sandwich

/-!
`setup` as a transition of the global tables, from any state they are in before it.

`init` overwrites every entry of `LOG_TABLE` and `EXP_TABLE` below `FIELD_SIZE` with values fixed
by the field (`init_logTable_spec`, `init_expTable_spec`). `init_dec` rebuilds `B` and `log_walsh`
from `LOG_TABLE` alone, and its level loops write every `skewVec` entry below `MODULO` whose index
`v` has `v + 1 = 2^l (2b + 1)` with `l < 15`. That is every index but `2^15 - 1` (`exists_skewCell`).
So whatever state `setup` starts from, it leaves the same tables except at `skewVec[32767]`
(`setup_tables_agree`): a second `setup` changes nothing else.

The two indices `v < FIELD_SIZE` with `2^15 ∣ v + 1` are never written by a level loop
(`initDec_loops_fix`); the final pass maps them through `LOG_TABLE`. One of them is `65535`: that
pass runs to `FIELD_SIZE` over an array of `MODULO` entries, and stores `LOG_TABLE[skewVec[65535]]`
one entry past its end (`initDec_skewVec_past_end`).
-/

namespace NovelPoly

open Function Finset

/-! ### What `setup` leaves -/

/-- Every `skewVec` index below `MODULO` other than `2^15 - 1` is a cell of a level `l < 15`. -/
theorem exists_skewCell {j : Nat} (hj : j < 65535) (hne : j ≠ 32767) :
    ∃ l < 15, ∃ b < 2 ^ (15 - l), j = skewCell l b := by
  obtain ⟨v, q, hvq⟩ := exists_two_pow_mul_odd (j + 1) (by omega)
  have hv : v < 15 := by
    by_contra h
    have h15 : 2 ^ 15 * (2 * q + 1) ≤ 2 ^ v * (2 * q + 1) :=
      Nat.mul_le_mul_right _ (Nat.pow_le_pow_right two_pos (by omega))
    rcases Nat.eq_zero_or_pos q with rfl | hq
    · have h16 : ¬ 16 ≤ v := fun h16 => by
        have := Nat.pow_le_pow_right two_pos h16
        rw [Nat.mul_zero, Nat.zero_add, Nat.mul_one] at hvq
        omega
      obtain rfl : v = 15 := by omega
      omega
    · omega
  have h16 : 2 ^ v * 2 ^ (16 - v) = 65536 := by rw [← pow_add, Nat.add_sub_cancel' (by omega)]; rfl
  have h2 : 2 ^ (16 - v) = 2 * 2 ^ (15 - v) := by rw [show 16 - v = 15 - v + 1 by omega, pow_succ']
  have hodd : 2 * q + 1 < 2 ^ (16 - v) := Nat.lt_of_mul_lt_mul_left (a := 2 ^ v) (by rw [h16, ← hvq]; omega)
  exact ⟨v, hv, q, by omega, by have := skewCell_succ v q; omega⟩

/-- Powers of `gen` below its order are distinct. -/
theorem gen_pow_inj {a b : Nat} (ha : a < 65535) (hb : b < 65535) (h : gen ^ a = gen ^ b) : a = b := by
  have h' := congrArg GFSymbol.val h
  rw [gen_pow_val, gen_pow_val] at h'
  exact xpow_inj ha hb (by rw [← psi_psiInv (xpow_lt a), h', psi_psiInv (xpow_lt b)])

/-- `init` fixes `LOG_TABLE` below `FIELD_SIZE`: `LOG[0] = MODULO`, and `LOG[v]` is the discrete
logarithm of `psi v` otherwise. -/
theorem init_logTable_agree (T T' : Tables) {v : Nat} (hv : v < 65536) :
    (init T).logTable v = (init T').logTable v := by
  rcases Nat.eq_zero_or_pos v with rfl | hv0
  · rw [init_logTable_zero, init_logTable_zero]
  · have h := init_logTable_spec T hv0.ne' hv
    have h' := init_logTable_spec T' hv0.ne' hv
    exact xpow_inj h.1 h'.1 (h.2.trans h'.2.symm)

/-- From any two states before it, `setup` leaves the same `LOG_TABLE`, `EXP_TABLE`, `B` and
`log_walsh`, and the same `skewVec` at every index below `MODULO` except `2^15 - 1`. In particular a
second `setup` changes nothing but `skewVec[32767]`. -/
theorem setup_tables_agree (T T' : Tables) :
    (∀ v < 65536, (setup T).logTable v = (setup T').logTable v) ∧
    (∀ e < 65536, (setup T).expTable e = (setup T').expTable e) ∧
    (∀ t < 32768, (setup T).B t = (setup T').B t) ∧
    (∀ i < 65536, (setup T).logWalsh i = (setup T').logWalsh i) ∧
    ∀ j < 65535, j ≠ 32767 → (setup T).skewVec j = (setup T').skewVec j := by
  have hlog := fun v (hv : v < 65536) => init_logTable_agree T T' hv
  refine ⟨fun v hv => by simp only [setup, initDec_logTable, hlog v hv],
    fun e he => by simp only [setup, initDec_expTable, init_expTable_spec _ (Nat.le_of_lt_succ he)],
    fun t ht => ?_, fun i hi => ?_, fun j hj hne => ?_⟩
  · have hB := setup_B T (show t < 2 ^ 15 from ht)
    have hB' := setup_B T' (show t < 2 ^ 15 from ht)
    exact gen_pow_inj hB.1 hB'.1 (hB.2.trans hB'.2.symm)
  · simp only [setup, initDec_logWalsh]
    exact (walsh_localOn 16).reads _ _ (fun u hu => by
      simp only [update_apply]; split_ifs
      · rfl
      · exact hlog u hu) i hi
  · obtain ⟨l, hl, b, hb, rfl⟩ := exists_skewCell hj hne
    rw [setup, setup, initDec_skewVec_cell T hl hb, initDec_skewVec_cell T' hl hb, hlog _ (GFSymbol.isLt _)]

/-! ### The entry past the end of `skewVec` -/

/-- No index a level loop of `init_dec` writes is one below a multiple of `2^15`. -/
theorem skew_write_succ_not_dvd {m i j : Nat} (hmi : m ≤ i) (hi : i < 15)
    (hj : j ∈ forStep (2 ^ m - 1) (2 ^ (i + 1)) (2 ^ (m + 1))) : ¬ 2 ^ 15 ∣ j + 2 ^ (i + 1) + 1 := by
  obtain ⟨hlo, -, hdvd⟩ := (mem_forStep (Nat.two_pow_pos _)).1 hj
  intro h
  have hm := Nat.two_pow_pos m
  have h1 : 2 ^ (m + 1) ∣ 2 ^ (i + 1) := Nat.pow_dvd_pow 2 (by omega)
  have h2 : 2 ^ (m + 1) ∣ j - (2 ^ m - 1) + 2 ^ (i + 1) + 2 ^ m := by
    rw [show j - (2 ^ m - 1) + 2 ^ (i + 1) + 2 ^ m = j + 2 ^ (i + 1) + 1 by omega]
    exact (Nat.pow_dvd_pow 2 (by omega)).trans h
  have := Nat.le_of_dvd hm ((Nat.dvd_add_right (Nat.dvd_add hdvd h1)).1 h2)
  rw [Nat.pow_succ] at this; omega

/-- A level of `init_dec` leaves `skewVec[v]` alone when `2^15 ∣ v + 1`. -/
theorem initDecStep_skew_fix (T : Tables) (p : Buf × Buf) {m v : Nat} (hm : m < 15) (hv : 2 ^ 15 ∣ v + 1) :
    (initDecStep T p m).1 v = p.1 v := by
  dsimp only [initDecStep]
  rw [foldl_fix_cell _ (fun i hi x => foldl_fix_cell _ (fun j hj y => update_noteq (fun (h : v = j + 2 ^ (i + 1)) =>
    skew_write_succ_not_dvd (mem_forRange.1 hi).1 (mem_forRange.1 hi).2 hj (h ▸ hv)) _ _) x)]
  refine update_noteq (fun h => ?_) _ _
  have hm' := Nat.two_pow_pos m
  rw [h, Nat.sub_add_cancel hm'] at hv
  have := Nat.le_of_dvd hm' ((Nat.pow_dvd_pow 2 (by omega : m + 1 ≤ 15)).trans hv)
  rw [Nat.pow_succ] at this; omega

theorem initDec_loops_fix (T : Tables) {v : Nat} (hv : 2 ^ 15 ∣ v + 1) :
    ∀ (l : List Nat), (∀ m ∈ l, m < 15) → ∀ p, (l.foldl (initDecStep T) p).1 v = p.1 v
  | [], _, _ => rfl
  | m :: l, h, p => by
    rw [List.foldl_cons, initDec_loops_fix T hv l (fun m hm => h m (.tail _ hm)),
      initDecStep_skew_fix T p (h m (.head _)) hv]

/-- `init_dec` stores into `skewVec[65535]`, one entry past the `MODULO` entries of `skewVec`: for
every state before it, its final pass leaves `LOG_TABLE[skewVec[65535]]` there, and no other loop
of it writes that index. -/
theorem initDec_skewVec_past_end (T : Tables) : (initDec T).skewVec 65535 = T.logTable (T.skewVec 65535) := by
  dsimp only [initDec]
  rw [foldl_pointwise (forRange_nodup 0 65536) (fun _ => T.logTable),
    if_pos (mem_forRange.2 ⟨Nat.zero_le _, by decide⟩),
    initDec_loops_fix T (by decide) _ (fun m hm => (mem_forRange.1 hm).2)]

end NovelPoly
