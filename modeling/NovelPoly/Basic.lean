import Mathlib.Algebra.Group.Nat.Basic
import Mathlib.Logic.Function.Basic
import Mathlib.Data.List.Range

/-!
Machine model of the Reed–Solomon erasure code in the novel polynomial basis
(`reed-solomon-novelpoly/cxx/RSErasureCode.c`).

The C core works on `GFSymbol` (`unsigned short`) arrays and on a few process-wide tables. A buffer is
the memory a pointer points at, a function `ℕ → ℕ`; an assignment `a[i] = v` is `Function.update`;
a `for` loop is a `List.foldl` over the exact list of values its counter takes. The constants
`FIELD_BITS = 16`, `FIELD_SIZE = 65536` and `MODULO = 65535` are written as literals. A store into a
`GFSymbol` that can exceed 16 bits is reduced `% 65536`, as C does; every other store provably fits.
-/

namespace NovelPoly

/-- A `GFSymbol*` buffer: the memory a pointer points at. -/
abbrev Buf := Nat → Nat

/-- The process-wide tables: `LOG_TABLE`, `EXP_TABLE`, `skewVec`, `B` and `log_walsh`. -/
structure Tables where
  logTable : Buf
  expTable : Buf
  skewVec : Buf
  B : Buf
  logWalsh : Buf

/-- The zero-initialised tables of a freshly loaded program. -/
def Tables.zero : Tables := ⟨fun _ => 0, fun _ => 0, fun _ => 0, fun _ => 0, fun _ => 0⟩

/-- The single-fold reduction `(x & MODULO) + (x >> FIELD_BITS)` of `mulE` and `walsh`. -/
def foldMod (x : Nat) : Nat := (x &&& 65535) + (x >>> 16)

/-- `mulE(a, b)`: `a * EXP_TABLE[b]`, the exponent sum folded once modulo `MODULO`; `0` when `a = 0`. -/
def mulE (T : Tables) (a b : Nat) : Nat :=
  if a = 0 then 0 else T.expTable (foldMod (T.logTable a + b))

theorem foldMod_eq (x : Nat) : foldMod x = x % 65536 + x / 65536 := by
  rw [foldMod, Nat.shiftRight_eq_div_pow, show (65535 : Nat) = 2 ^ 16 - 1 from rfl,
    Nat.and_pow_two_sub_one_eq_mod]

/-- One fold is exact below `2 · MODULO + 1`: the result is a 16-bit value. -/
theorem foldMod_le {x : Nat} (hx : x ≤ 131070) : foldMod x ≤ 65535 := by
  rw [foldMod_eq]; omega

/-- The fold does not change the residue modulo `MODULO`. -/
theorem foldMod_mod (x : Nat) : foldMod x % 65535 = x % 65535 := by
  rw [foldMod_eq]; omega

theorem xor_left_comm (a b c : Nat) : a ^^^ (b ^^^ c) = b ^^^ (a ^^^ c) := by
  rw [← Nat.xor_assoc, Nat.xor_comm a b, Nat.xor_assoc]

/-! ### Loop counters -/

/-- The values of `i` in `for (i = lo; i < hi; i++)`. -/
def forRange (lo hi : Nat) : List Nat := List.range' lo (hi - lo)

/-- The values of `j` in `for (j = lo; j < hi; j += st)`, for `st > 0`. -/
def forStep (lo hi st : Nat) : List Nat := List.range' lo ((hi - lo + st - 1) / st) st

/-- The values of `d` in `for (d = d₀; d < size; d <<= 1)`; `fuel` bounds the iterations. -/
def doublingLoop (size : Nat) : Nat → Nat → List Nat
  | 0, _ => []
  | fuel + 1, d => if d < size then d :: doublingLoop size fuel (2 * d) else []

/-- The values of `d` in `for (d = d₀; d > 0; d >>= 1)`; `fuel` bounds the iterations. -/
def halvingLoop : Nat → Nat → List Nat
  | 0, _ => []
  | fuel + 1, d => if 0 < d then d :: halvingLoop fuel (d / 2) else []

/-- `for (depart_no = 1; depart_no < size; depart_no <<= 1)`. -/
def doublings (size : Nat) : List Nat := doublingLoop size size 1

/-- `for (depart_no = size >> 1; depart_no > 0; depart_no >>= 1)`. -/
def halvings (size : Nat) : List Nat := halvingLoop size (size / 2)

theorem mem_forRange {lo hi i : Nat} : i ∈ forRange lo hi ↔ lo ≤ i ∧ i < hi := by
  simp only [forRange, List.mem_range'_1]; omega

theorem mem_forStep {lo hi st j : Nat} (hst : 0 < st) :
    j ∈ forStep lo hi st ↔ lo ≤ j ∧ j < hi ∧ st ∣ j - lo := by
  simp only [forStep, List.mem_range']
  constructor
  · rintro ⟨c, hc, rfl⟩
    have := (Nat.le_div_iff_mul_le hst).1 hc
    refine ⟨by omega, ?_, by rw [Nat.add_sub_cancel_left]; exact Nat.dvd_mul_right _ _⟩
    rw [Nat.succ_mul, Nat.mul_comm] at this; omega
  · rintro ⟨h1, h2, c, hc⟩
    refine ⟨c, (Nat.le_div_iff_mul_le hst).2 ?_, by omega⟩
    rw [Nat.succ_mul, Nat.mul_comm]; omega

/-- Distinct iterations of a stepped loop are at least a step apart. -/
theorem forStep_apart {lo hi st j j' : Nat} (hst : 0 < st) (hj : j ∈ forStep lo hi st)
    (hj' : j' ∈ forStep lo hi st) (hne : j ≠ j') : j + st ≤ j' ∨ j' + st ≤ j := by
  obtain ⟨h1, -, a, ha⟩ := (mem_forStep hst).1 hj
  obtain ⟨h1', -, b, hb⟩ := (mem_forStep hst).1 hj'
  rcases Nat.lt_trichotomy a b with hab | rfl | hab
  · have := Nat.mul_le_mul_left st (Nat.succ_le_of_lt hab); rw [Nat.mul_succ] at this; omega
  · omega
  · have := Nat.mul_le_mul_left st (Nat.succ_le_of_lt hab); rw [Nat.mul_succ] at this; omega

/-- A multiple of `st` below a multiple of `st` leaves room for a whole step. -/
theorem add_le_of_dvd {st j size : Nat} (hj : st ∣ j) (hs : st ∣ size) (h : j < size) :
    j + st ≤ size := by
  obtain ⟨a, rfl⟩ := hj; obtain ⟨b, rfl⟩ := hs
  have := Nat.mul_le_mul_left st (Nat.succ_le_of_lt (Nat.lt_of_mul_lt_mul_left h))
  rw [Nat.mul_succ] at this; exact this

theorem forRange_nodup (lo hi : Nat) : (forRange lo hi).Nodup := List.nodup_range' _ _

theorem forStep_nodup {lo hi st : Nat} (hst : 0 < st) : (forStep lo hi st).Nodup :=
  List.nodup_range' _ _ _ hst

theorem doublingLoop_two_pow (m : Nat) :
    ∀ fuel r, m ≤ r + fuel → doublingLoop (2 ^ m) fuel (2 ^ r) = (List.range' r (m - r)).map (2 ^ ·)
  | 0, r, h => by simp [doublingLoop, show m - r = 0 by omega]
  | fuel + 1, r, h => by
    by_cases hr : r < m
    · obtain ⟨k, hk⟩ : ∃ k, m - r = k + 1 := ⟨m - r - 1, by omega⟩
      rw [doublingLoop, if_pos (Nat.pow_lt_pow_right (by decide) hr), hk, List.range'_succ,
        List.map_cons, ← Nat.pow_succ', doublingLoop_two_pow m fuel (r + 1) (by omega),
        show m - (r + 1) = k by omega]
    · rw [doublingLoop, if_neg (by simpa using Nat.pow_le_pow_right (by decide) (by omega : m ≤ r)),
        show m - r = 0 by omega]; rfl

/-- For a power of two, the doubling loop runs `depart_no = 2^0, …, 2^(m-1)`. -/
theorem doublings_two_pow (m : Nat) : doublings (2 ^ m) = (List.range m).map (2 ^ ·) := by
  rw [doublings, ← Nat.pow_zero 2, doublingLoop_two_pow m _ 0 (by simpa using Nat.lt_two_pow m |>.le),
    List.range_eq_range', Nat.sub_zero]

theorem halvingLoop_zero : ∀ fuel, halvingLoop fuel 0 = []
  | 0 => rfl
  | _ + 1 => rfl

theorem halvingLoop_two_pow : ∀ (r fuel : Nat), r < fuel →
    halvingLoop fuel (2 ^ r) = ((List.range (r + 1)).map (2 ^ ·)).reverse
  | 0, fuel + 1, _ => by rw [Nat.pow_zero, halvingLoop, if_pos Nat.one_pos, halvingLoop_zero]; rfl
  | r + 1, fuel + 1, h => by
    rw [halvingLoop, if_pos (Nat.pos_pow_of_pos _ (by decide)), Nat.pow_succ, Nat.mul_div_cancel _ (by decide),
      halvingLoop_two_pow r fuel (by omega), List.range_succ (r + 1), List.map_append, List.reverse_append]
    simp [Nat.pow_succ]

/-- For a power of two, the halving loop runs `depart_no = 2^(m-1), …, 2^0`. -/
theorem halvings_two_pow (m : Nat) : halvings (2 ^ m) = ((List.range m).map (2 ^ ·)).reverse := by
  cases m with
  | zero => rfl
  | succ m =>
    rw [halvings, Nat.pow_succ, Nat.mul_div_cancel _ (by decide),
      halvingLoop_two_pow m _ (by have := Nat.lt_two_pow m; omega)]

end NovelPoly
