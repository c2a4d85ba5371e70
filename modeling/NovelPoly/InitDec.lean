import NovelPoly.Field.Tables

/-!
What `init_dec` leaves in `skewVec[2^15 - 1]`, and why `setup` is not idempotent.

The `m` loop writes `skewVec[(1 << m) - 1]` and `skewVec[j + (1 << (i+1))]` for
`j ≡ 2^m - 1 (mod 2^(m+1))`: for every index `v` it writes, `v + 1` is not a multiple of `2^15`, so
`skewVec[32767]` is never written (`initDecStep_skew_top`). The final pass maps that entry through
`LOG_TABLE` like every other one. After one `setup` from the zero state it holds
`LOG_TABLE[0] = MODULO`; a second `setup` maps that to `LOG_TABLE[MODULO]`, which is not
`MODULO` (`setup_twice_skewVec`).
-/

namespace NovelPoly

open Function

@[simp] theorem init_skewVec (T : Tables) : (init T).skewVec = T.skewVec := by cases T; rfl

/-- No index written by a skew loop of level `m ≤ i < 15` is `2^15 - 1`. -/
theorem skew_index_ne {m i j : Nat} (hmi : m ≤ i) (hi : i < 15)
    (hj : j ∈ forStep (2 ^ m - 1) (2 ^ (i + 1)) (2 ^ (m + 1))) : j + 2 ^ (i + 1) ≠ 32767 := by
  obtain ⟨hlo, -, hdvd⟩ := (mem_forStep (Nat.two_pow_pos _)).1 hj
  intro h
  have hm := Nat.two_pow_pos m
  have h1 : 2 ^ (m + 1) ∣ 2 ^ (i + 1) := Nat.pow_dvd_pow 2 (by omega)
  have h2 : 2 ^ (m + 1) ∣ 32768 := Nat.pow_dvd_pow 2 (show m + 1 ≤ 15 by omega)
  have h3 := Nat.dvd_sub' h2 (Nat.dvd_add hdvd h1)
  rw [show 32768 - (j - (2 ^ m - 1) + 2 ^ (i + 1)) = 2 ^ m by omega] at h3
  have := Nat.le_of_dvd hm h3
  rw [Nat.pow_succ] at this; omega

/-- A level of the `m` loop leaves `skewVec[2^15 - 1]` alone. -/
theorem initDecStep_skew_top (T : Tables) (p : Buf × Buf) {m : Nat} (hm : m < 15) :
    (initDecStep T p m).1 32767 = p.1 32767 := by
  dsimp only [initDecStep]
  rw [foldl_fix_cell _ (fun i hi x => foldl_fix_cell _ (fun j hj y => update_noteq
    (Ne.symm (skew_index_ne (mem_forRange.1 hi).1 (mem_forRange.1 hi).2 hj)) _ _) x)]
  have : 2 ^ m ≤ 2 ^ 14 := Nat.pow_le_pow_right (by decide) (by omega)
  exact update_noteq (by omega) _ _

theorem initDec_loop_top (T : Tables) :
    ∀ (l : List Nat), (∀ m ∈ l, m < 15) → ∀ p, (l.foldl (initDecStep T) p).1 32767 = p.1 32767
  | [], _, _ => rfl
  | m :: l, h, p => by
    rw [List.foldl_cons, initDec_loop_top T l (fun m hm => h m (.tail _ hm)),
      initDecStep_skew_top T p (h m (.head _))]

/-- `init_dec` maps `skewVec[2^15 - 1]` through `LOG_TABLE` and writes nothing else there. -/
theorem initDec_skewVec_top (T : Tables) : (initDec T).skewVec 32767 = T.logTable (T.skewVec 32767) := by
  dsimp only [initDec]
  rw [foldl_pointwise (forRange_nodup 0 65536) (fun _ => T.logTable),
    if_pos (mem_forRange.2 ⟨Nat.zero_le _, by decide⟩),
    initDec_loop_top T _ (fun m hm => (mem_forRange.1 hm).2)]

theorem setup_skewVec_top (T : Tables) :
    (setup T).skewVec 32767 = (init T).logTable (T.skewVec 32767) := by
  rw [setup, initDec_skewVec_top, init_skewVec]

/-- `setup` is not idempotent: run twice from the zero state, it leaves `skewVec[32767]` as
`LOG_TABLE[MODULO]`, not the `MODULO` that one run leaves. -/
theorem setup_twice_skewVec :
    (setup (setup Tables.zero)).skewVec 32767 ≠ (setup Tables.zero).skewVec 32767 := by
  rw [setup_skewVec_top, setup_skewVec_top Tables.zero, show Tables.zero.skewVec 32767 = 0 from rfl,
    init_logTable_zero]
  exact (init_logTable_spec _ (by decide) (by decide)).1.ne

end NovelPoly
