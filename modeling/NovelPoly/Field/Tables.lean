import NovelPoly.Field.Symbol

/-!
What `init` builds, from any earlier contents of the tables.

The walk stores `EXP_TABLE[x^i] = i` for `i < MODULO` (`WalkInv`); the basis loop leaves
`LOG_TABLE[v] = psi v` (`logBasis_eq`); the third loop turns that into the discrete logarithm, so
`x^LOG_TABLE[v] = psi v` for `v ≠ 0` and `LOG_TABLE[0] = MODULO` (`init_logTable_spec`); and the
fourth loop inverts it (`init_expTable_logTable`). Read through `psi`, `mulE(a, e)` is then the
product of `psi a` by `x^e` (`psi_mulE`), which makes the table product `mulE(a, LOG_TABLE[b])`
the product of the symbol field (`tableMul_eq`).
-/

namespace NovelPoly

open Function

/-! ### The walk -/

/-- What the first loop of `init` has done after `c` iterations: the state is `x^c`, each `x^i`
with `i < c` holds `i`, and no other cell has changed. -/
structure WalkInv (E : Buf) (c : Nat) (p : Buf × Nat) : Prop where
  state : p.2 = xpow c
  visited : ∀ i < c, p.1 (xpow i) = i
  other : ∀ s, (∀ i < c, xpow i ≠ s) → p.1 s = E s

theorem walkInv_step {E : Buf} {c : Nat} {p : Buf × Nat} (hc : c < 65535) (h : WalkInv E c p) :
    WalkInv E (c + 1) (update p.1 p.2 c, nextState p.2) where
  state := by rw [h.state, xpow_succ]
  visited i hi := by
    dsimp only; rw [h.state]
    rcases Nat.lt_succ_iff_lt_or_eq.1 hi with hi | rfl
    · rw [update_noteq fun e => absurd (xpow_inj (i := i) (by omega) hc e) (by omega), h.visited i hi]
    · exact update_same _ _ _
  other s hs := by
    dsimp only
    rw [h.state, update_noteq (Ne.symm (hs c (by omega))), h.other s fun i hi => hs i (by omega)]

theorem walkInv_run (E : Buf) : ∀ c ≤ 65535,
    WalkInv E c ((List.range c).foldl (fun p i => (update p.1 p.2 i, nextState p.2)) (E, 1))
  | 0, _ => ⟨rfl, fun _ h => absurd h (Nat.not_lt_zero _), fun _ _ => rfl⟩
  | c + 1, hc => by
    rw [List.range_succ, List.foldl_append, List.foldl_cons, List.foldl_nil]
    exact walkInv_step (by omega) (walkInv_run E c (by omega))

theorem expWalk_spec (E : Buf) : WalkInv E 65535 (expWalk E) := by
  rw [expWalk, forRange, Nat.sub_zero, ← List.range_eq_range']
  exact walkInv_run E 65535 le_rfl

/-! ### The basis loop -/

/-- One level of the basis loop: the upper half `[2^i, 2^(i+1))` gets the lower half XOR `Base[i]`. -/
theorem logBasis_stage (i : Nat) (x : Buf) {t : Nat} (ht : t < 2 ^ (i + 1)) :
    (forRange 0 (2 ^ i)).foldl (fun log j => update log (j + 2 ^ i) (log j ^^^ Base i)) x t =
      if t < 2 ^ i then x t else x (t - 2 ^ i) ^^^ Base i := by
  have hloc : ∀ j ∈ forRange 0 (2 ^ i),
      LocalOn (fun log => update log (j + 2 ^ i) (log j ^^^ Base i)) (pairRegion (2 ^ i) j) :=
    fun j _ => LocalOn.update (Or.inr rfl) fun x y h => by rw [h j (Or.inl rfl)]
  have hdisj := pairwise_disjoint_of_nodup (pairRegion (2 ^ i)) (forRange_nodup 0 (2 ^ i))
    fun a ha b hb hab t => by rw [mem_forRange] at ha hb; simp only [pairRegion]; omega
  have hpos := Nat.two_pow_pos i
  rw [Nat.pow_succ] at ht
  split_ifs with h
  · rw [foldl_apply _ _ _ hloc hdisj x (mem_forRange.2 ⟨Nat.zero_le _, h⟩) (Or.inl rfl),
      update_noteq (by omega)]
  · rw [foldl_apply _ _ _ hloc hdisj x (mem_forRange.2 ⟨Nat.zero_le _, by omega⟩ : t - 2 ^ i ∈ _)
      (Or.inr (by omega)), Nat.sub_add_cancel (by omega), update_same]

theorem psi_add_two_pow {i j : Nat} (hi : i < 16) (hj : j < 2 ^ i) :
    psi (j + 2 ^ i) = psi j ^^^ Base i := by
  have h16 : 2 ^ i < 65536 := Nat.pow_lt_pow_right (by decide) hi
  rw [add_two_pow_eq_xor hj, psi_linear.xor _ _ (by omega) h16, psi, psi, xorSpan_two_pow _ hi]

theorem logBasis_run (L : Buf) : ∀ i ≤ 16, ∀ t < 2 ^ i,
    (List.range i).foldl (fun log i =>
      (forRange 0 (2 ^ i)).foldl (fun log j => update log (j + 2 ^ i) (log j ^^^ Base i)) log)
      (update L 0 0) t = psi t
  | 0, _, t, ht => by rw [show t = 0 by simpa using ht]; rfl
  | i + 1, hi, t, ht => by
    rw [List.range_succ, List.foldl_append, List.foldl_cons, List.foldl_nil, logBasis_stage i _ ht]
    split_ifs with h
    · exact logBasis_run L i (by omega) t h
    · rw [logBasis_run L i (by omega) _ (by rw [Nat.pow_succ] at ht; omega), ← psi_add_two_pow (by omega)
        (by rw [Nat.pow_succ] at ht; omega), Nat.sub_add_cancel (by omega)]

/-- The basis loop leaves `LOG_TABLE[v] = psi v` on every symbol. -/
theorem logBasis_eq (L : Buf) {v : Nat} (hv : v < 65536) : logBasis L v = psi v := by
  rw [logBasis, forRange, Nat.sub_zero, ← List.range_eq_range']
  exact logBasis_run L 16 le_rfl v hv

/-! ### The logarithm table -/

section Init

variable (T : Tables)

theorem init_logTable_apply {v : Nat} (hv : v < 65536) :
    (init T).logTable v = update (expWalk T.expTable).1 0 65535 (psi v) := by
  dsimp only [init]
  rw [foldl_pointwise (forRange_nodup 0 65536) (fun _ => update (expWalk T.expTable).1 0 65535),
    if_pos (mem_forRange.2 ⟨Nat.zero_le _, hv⟩), logBasis_eq _ hv]

theorem init_logTable_zero : (init T).logTable 0 = 65535 := by
  rw [init_logTable_apply T (by decide), psi_linear.zero, update_same]

/-- `LOG_TABLE[v]` is the discrete logarithm of `psi v`. -/
theorem init_logTable_spec {v : Nat} (hv0 : v ≠ 0) (hv : v < 65536) :
    (init T).logTable v < 65535 ∧ xpow ((init T).logTable v) = psi v := by
  obtain ⟨e, he, hxe⟩ := exists_xpow (mt (psi_eq_zero hv).1 hv0) (psi_lt hv)
  rw [init_logTable_apply T hv, ← hxe, update_noteq (xpow_ne_zero e), (expWalk_spec _).visited e he]
  exact ⟨he, rfl⟩

theorem init_logTable_lt {v : Nat} (hv : v < 65536) : (init T).logTable v ≤ 65535 := by
  rcases Nat.eq_zero_or_pos v with rfl | h
  · rw [init_logTable_zero]
  · exact (init_logTable_spec T (by omega) hv).1.le

theorem init_logTable_inj {a b : Nat} (ha : a < 65536) (hb : b < 65536)
    (h : (init T).logTable a = (init T).logTable b) : a = b := by
  rcases Nat.eq_zero_or_pos a with rfl | ha0 <;> rcases Nat.eq_zero_or_pos b with rfl | hb0
  · rfl
  · have := (init_logTable_spec T (by omega) hb).1; rw [← h, init_logTable_zero] at this; omega
  · have := (init_logTable_spec T (by omega) ha).1; rw [h, init_logTable_zero] at this; omega
  · have h1 := (init_logTable_spec T (by omega) ha).2
    rw [h, (init_logTable_spec T (by omega) hb).2] at h1
    exact psi_inj ha hb h1.symm

theorem psiInv_xpow_ne_zero (e : Nat) : psiInv (xpow e) ≠ 0 := fun h => xpow_ne_zero e <| by
  rw [← psi_psiInv (xpow_lt e), h]; rfl

/-- Every exponent `e < MODULO` is `LOG_TABLE[v]` of the symbol `v = psi⁻¹(x^e)`. -/
theorem init_logTable_psiInv {e : Nat} (he : e < 65535) : (init T).logTable (psiInv (xpow e)) = e := by
  have ⟨hlt, hx⟩ := init_logTable_spec T (psiInv_xpow_ne_zero e) (psiInv_lt _)
  rw [psi_psiInv (xpow_lt e)] at hx
  exact xpow_inj hlt he hx

/-! ### The exponential table -/

theorem init_expTable_eq : (init T).expTable =
    update ((forRange 0 65536).foldl (fun exp i => update exp ((init T).logTable i) i)
        (update (expWalk T.expTable).1 0 65535)) 65535
      ((forRange 0 65536).foldl (fun exp i => update exp ((init T).logTable i) i)
        (update (expWalk T.expTable).1 0 65535) 0) := by
  dsimp only [init]

/-- The last loop of `init` fills `EXP_TABLE[LOG_TABLE[i]] = i` for every symbol `i`. -/
theorem init_expFill {v : Nat} (hv : v < 65536) :
    (forRange 0 65536).foldl (fun exp i => update exp ((init T).logTable i) i)
      (update (expWalk T.expTable).1 0 65535) ((init T).logTable v) = v :=
  foldl_scatter _ id ((forRange_nodup 0 65536).pairwise_of_forall_ne fun _ ha _ hb hab h =>
    hab (init_logTable_inj T (mem_forRange.1 ha).2 (mem_forRange.1 hb).2 h)) _
    (mem_forRange.2 ⟨Nat.zero_le _, hv⟩)

/-- `EXP_TABLE[MODULO] = EXP_TABLE[0]`. -/
theorem init_expTable_modulo : (init T).expTable 65535 = (init T).expTable 0 := by
  rw [init_expTable_eq, update_same, update_noteq (by decide)]

/-- `EXP_TABLE[LOG_TABLE[a]] = a` for every nonzero symbol. -/
theorem init_expTable_logTable {a : Nat} (ha0 : a ≠ 0) (ha : a < 65536) :
    (init T).expTable ((init T).logTable a) = a := by
  rw [init_expTable_eq, update_noteq (init_logTable_spec T ha0 ha).1.ne, init_expFill T ha]

/-- `EXP_TABLE[e]` is the symbol of `x^e`, for every exponent up to `MODULO`. -/
theorem init_expTable_spec {e : Nat} (he : e ≤ 65535) :
    (init T).expTable e = psiInv (xpow e) := by
  have hlow : ∀ e < 65535, (init T).expTable e = psiInv (xpow e) := fun e he => by
    conv_lhs => rw [← init_logTable_psiInv T he]
    exact init_expTable_logTable T (psiInv_xpow_ne_zero e) (psiInv_lt _)
  rcases Nat.lt_or_ge e 65535 with h | h
  · exact hlow e h
  · rw [show e = 65535 by omega, init_expTable_modulo, hlow 0 (by decide), xpow_modulo]; rfl

/-! ### `mulE` on the tables of `init` -/

/-- Read through `psi`, `mulE(a, e)` multiplies `psi a` by `x^e`. -/
theorem psi_mulE {a e : Nat} (ha : a < 65536) (he : e ≤ 65535) :
    psi (mulE (init T) a e) = gfMul (psi a) (xpow e) := by
  rcases eq_or_ne a 0 with rfl | ha0
  · simp only [mulE, if_pos, psi_linear.zero, gfMul_zero_left]
  · have ⟨hlt, hx⟩ := init_logTable_spec T ha0 ha
    have hs : (init T).logTable a + e ≤ 131070 := by omega
    rw [mulE, if_neg ha0, init_expTable_spec T (foldMod_le hs), psi_psiInv (xpow_lt _),
      xpow_mod xpow_modulo, foldMod_mod, ← xpow_mod xpow_modulo, ← hx, gfMul_xpow]

theorem mulE_lt {a e : Nat} (ha : a < 65536) (he : e ≤ 65535) : mulE (init T) a e < 65536 := by
  rw [mulE]
  split
  · decide
  · have := init_logTable_lt T ha
    rw [init_expTable_spec T (foldMod_le (by omega))]
    exact psiInv_lt _

/-- `mulE(a, e) = psi⁻¹(psi(a) · psi(EXP_TABLE[e mod MODULO]))`. -/
theorem init_mulE {a e : Nat} (ha : a < 65536) (he : e ≤ 65535) :
    mulE (init T) a e = psiInv (gfMul (psi a) (psi ((init T).expTable (e % 65535)))) := by
  rw [init_expTable_spec T (by omega), psi_psiInv (xpow_lt _), ← xpow_mod xpow_modulo,
    ← psi_mulE T ha he, psiInv_psi (mulE_lt T ha he)]

/-- Multiplying by `EXP_TABLE[e₁]` and then by `EXP_TABLE[e₂]` multiplies by `EXP_TABLE[e₁ + e₂]`. -/
theorem mulE_mulE {a e₁ e₂ : Nat} (ha : a < 65536) (he₁ : e₁ ≤ 65535) (he₂ : e₂ ≤ 65535) :
    mulE (init T) (mulE (init T) a e₁) e₂ = mulE (init T) a ((e₁ + e₂) % 65535) := by
  have hs : (e₁ + e₂) % 65535 ≤ 65535 := by omega
  refine psi_inj (mulE_lt T (mulE_lt T ha he₁) he₂) (mulE_lt T ha hs) ?_
  rw [psi_mulE T (mulE_lt T ha he₁) he₂, psi_mulE T ha he₁, psi_mulE T ha hs, ← xpow_mod xpow_modulo,
    gfMul_assoc (psi_lt ha) (xpow_lt _) (xpow_lt _), gfMul_xpow]

/-- The product the tables define: `a ⊗ b = mulE(a, LOG_TABLE[b])`, and `0` for `b = 0`. -/
def tableMul (T : Tables) (a b : Nat) : Nat := if b = 0 then 0 else mulE T a (T.logTable b)

/-- On the tables of `init`, `⊗` is the product of the symbol field. -/
theorem tableMul_eq {a b : Nat} (ha : a < 65536) (hb : b < 65536) :
    tableMul (init T) a b = GFSymbol.mul a b := by
  rw [tableMul, GFSymbol.mul]
  split
  · subst b; rw [psi_linear.zero, gfMul_zero_right, psiInv_linear.zero]
  · rename_i hb0
    have ⟨hlt, hx⟩ := init_logTable_spec T hb0 hb
    rw [← hx, ← psi_mulE T ha hlt.le, psiInv_psi (mulE_lt T ha hlt.le)]

end Init

/-- `init` makes `mulE` a field product: `LOG_TABLE` is a bijection of the nonzero symbols onto
the exponents below `MODULO` inverted by `EXP_TABLE`, `mulE(a, e)` multiplies in
`GF(2)[x]/(x^16 + x^5 + x^3 + x^2 + 1)` through `psi`, and `⊗` with XOR is the symbol field. -/
theorem init_field (T : Tables) :
    (init T).logTable 0 = 65535 ∧
    Set.BijOn (init T).logTable (Set.Ioo 0 65536) (Set.Iio 65535) ∧
    (∀ a, 0 < a → a < 65536 → (init T).expTable ((init T).logTable a) = a) ∧
    (init T).expTable 65535 = (init T).expTable 0 ∧
    (∀ a < 65536, ∀ e ≤ 65535,
      mulE (init T) a e = psiInv (gfMul (psi a) (psi ((init T).expTable (e % 65535))))) ∧
    (∀ a b : GFSymbol, (a + b).val = a.val ^^^ b.val ∧ (a * b).val = tableMul (init T) a.val b.val) ∧
    (∀ a b c, a < 65536 → b < 65536 → c < 65536 →
      tableMul (init T) a (b ^^^ c) = tableMul (init T) a b ^^^ tableMul (init T) a c) ∧
    (∀ a < 65536, ∀ e₁ ≤ 65535, ∀ e₂ ≤ 65535,
      mulE (init T) (mulE (init T) a e₁) e₂ = mulE (init T) a ((e₁ + e₂) % 65535)) := by
  refine ⟨init_logTable_zero T, ⟨fun a ha => (init_logTable_spec T ha.1.ne' ha.2).1,
      fun a ha b hb h => init_logTable_inj T ha.2 hb.2 h, fun e (he : e < 65535) =>
        ⟨psiInv (xpow e), ⟨Nat.pos_of_ne_zero (psiInv_xpow_ne_zero e), psiInv_lt _⟩,
          init_logTable_psiInv T he⟩⟩,
    fun a ha0 ha => init_expTable_logTable T ha0.ne' ha, init_expTable_modulo T,
    fun a ha e he => init_mulE T ha he, fun a b => ⟨rfl, (tableMul_eq T a.isLt b.isLt).symm⟩,
    fun a b c ha hb hc => ?_, fun a ha e₁ he₁ e₂ he₂ => mulE_mulE T ha he₁ he₂⟩
  rw [tableMul_eq T ha (Nat.xor_lt_two_pow (n := 16) hb hc), tableMul_eq T ha hb, tableMul_eq T ha hc,
    GFSymbol.mul_xor ha hb hc]

end NovelPoly
