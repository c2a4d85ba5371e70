import Mathlib.Algebra.Field.Defs
import NovelPoly.Field.Poly

/-!
The field of 16-bit symbols.

`init` never multiplies polynomials: it reads a symbol `v` through the Cantor basis `Base`, as
`psi v = ⊕_{bits i of v} Base[i]` in `GF(2)[x]/(x^16 + x^5 + x^3 + x^2 + 1)`, and takes logarithms
there. `psi` is a linear bijection of the 16-bit values (`psi_psiInv`, `psiInv_psi`; the inverse
columns `BaseInv` were computed once and are checked here). Transporting the product of
`Field/Poly` along it gives the field `GFSymbol` whose addition is XOR; `Field/Tables` shows that
`mulE` on the tables `init` builds is this product.
-/

namespace NovelPoly

/-- `psi(v)`: the symbol `v` in the Cantor basis, `⊕ Base[i]` over the set bits `i` of `v`. -/
def psi (v : Nat) : Nat := xorSpan Base v 16

/-- The preimages under `psi` of the unit vectors `2^i`. -/
def BaseInv (i : Nat) : Nat :=
  [1, 18064, 26072, 25296, 22324, 17904, 21432, 7736, 31918, 20024, 26376, 49756, 31332, 40620,
    4388, 21050].getD i 0

/-- `psi⁻¹`. -/
def psiInv (u : Nat) : Nat := xorSpan BaseInv u 16

theorem psi_linear : Linear16 psi := xorSpan_linear (by decide)

theorem psiInv_linear : Linear16 psiInv := xorSpan_linear (by decide)

theorem linear16_id : Linear16 id := ⟨fun _ h => h, rfl, fun _ _ _ _ => rfl⟩

theorem psi_psiInv {u : Nat} (hu : u < 65536) : psi (psiInv u) = u :=
  (psi_linear.comp psiInv_linear).ext linear16_id (by decide) hu

theorem psiInv_psi {v : Nat} (hv : v < 65536) : psiInv (psi v) = v :=
  (psiInv_linear.comp psi_linear).ext linear16_id (by decide) hv

theorem psi_lt {v : Nat} (hv : v < 65536) : psi v < 65536 := psi_linear.lt v hv

theorem psiInv_lt (u : Nat) : psiInv u < 65536 := xorSpan_lt (w := 16) (by decide) u

theorem psi_inj {a b : Nat} (ha : a < 65536) (hb : b < 65536) (h : psi a = psi b) : a = b := by
  rw [← psiInv_psi ha, h, psiInv_psi hb]

theorem psi_eq_zero {v : Nat} (hv : v < 65536) : psi v = 0 ↔ v = 0 :=
  ⟨fun h => psi_inj hv (by decide) (h.trans psi_linear.zero.symm), fun h => h ▸ psi_linear.zero⟩

theorem psi_one : psi 1 = 1 := rfl

/-! ### The symbol field -/

/-- A `GFSymbol` (`unsigned short`): a 16-bit value. -/
@[ext] structure GFSymbol where
  val : Nat
  isLt : val < 65536
  deriving DecidableEq

namespace GFSymbol

/-- The product of two symbols: `psi⁻¹(psi a · psi b)`. -/
def mul (a b : Nat) : Nat := psiInv (gfMul (psi a) (psi b))

/-- The inverse of a symbol: `psi⁻¹((psi a)⁻¹)`. -/
def inv (a : Nat) : Nat := psiInv (gfInv (psi a))

instance : Zero GFSymbol := ⟨⟨0, by decide⟩⟩
instance : One GFSymbol := ⟨⟨1, by decide⟩⟩
instance : Add GFSymbol := ⟨fun a b => ⟨a.val ^^^ b.val, Nat.xor_lt_two_pow (n := 16) a.isLt b.isLt⟩⟩
instance : Neg GFSymbol := ⟨id⟩
instance : Mul GFSymbol := ⟨fun a b => ⟨mul a.val b.val, psiInv_lt _⟩⟩
instance : Inv GFSymbol := ⟨fun a => ⟨inv a.val, psiInv_lt _⟩⟩

@[simp] theorem val_zero : (0 : GFSymbol).val = 0 := rfl
@[simp] theorem val_one : (1 : GFSymbol).val = 1 := rfl
@[simp] theorem val_add (a b : GFSymbol) : (a + b).val = a.val ^^^ b.val := rfl
@[simp] theorem val_neg (a : GFSymbol) : (-a).val = a.val := rfl
@[simp] theorem val_mul (a b : GFSymbol) : (a * b).val = mul a.val b.val := rfl
@[simp] theorem val_inv (a : GFSymbol) : a⁻¹.val = inv a.val := rfl

theorem psi_mul {a : Nat} (ha : a < 65536) (b : Nat) : psi (mul a b) = gfMul (psi a) (psi b) :=
  psi_psiInv (gfMul_lt (psi_lt ha) _)

theorem mul_comm' (a b : GFSymbol) : a * b = b * a :=
  GFSymbol.ext (by simp only [val_mul, mul, gfMul_comm (psi_lt a.isLt) (psi_lt b.isLt)])

theorem mul_assoc' (a b c : GFSymbol) : a * b * c = a * (b * c) := GFSymbol.ext <| by
  show psiInv (gfMul (psi (mul a.val b.val)) (psi c.val)) =
    psiInv (gfMul (psi a.val) (psi (mul b.val c.val)))
  rw [psi_mul a.isLt, psi_mul b.isLt, gfMul_assoc (psi_lt a.isLt) (psi_lt b.isLt) (psi_lt c.isLt)]

theorem one_mul' (a : GFSymbol) : 1 * a = a :=
  GFSymbol.ext (by simp only [val_mul, val_one, mul, psi_one, gfMul_one_left (psi_lt a.isLt), psiInv_psi a.isLt])

theorem mul_xor {a b c : Nat} (ha : a < 65536) (hb : b < 65536) (hc : c < 65536) :
    mul a (b ^^^ c) = mul a b ^^^ mul a c := by
  rw [mul, mul, mul, psi_linear.xor _ _ hb hc, gfMul_xor,
    psiInv_linear.xor _ _ (gfMul_lt (psi_lt ha) _) (gfMul_lt (psi_lt ha) _)]

theorem left_distrib' (a b c : GFSymbol) : a * (b + c) = a * b + a * c :=
  GFSymbol.ext (mul_xor a.isLt b.isLt c.isLt)

theorem zero_mul' (a : GFSymbol) : 0 * a = 0 :=
  GFSymbol.ext (by simp only [val_mul, val_zero, mul, psi_linear.zero, gfMul_zero_left, psiInv_linear.zero])

theorem mul_inv_cancel' (a : GFSymbol) (ha : a ≠ 0) : a * a⁻¹ = 1 := GFSymbol.ext <| by
  have hpa : psi a.val ≠ 0 := fun h => ha (GFSymbol.ext ((psi_eq_zero a.isLt).1 h))
  simp only [val_mul, val_inv, val_one, mul, inv, psi_psiInv (gfInv_lt (psi_lt a.isLt)),
    gfMul_gfInv hpa (psi_lt a.isLt)]
  rfl

/-- The 16-bit symbols with XOR and the `psi`-transported product form a field. -/
instance : Field GFSymbol where
  add_assoc a b c := GFSymbol.ext (Nat.xor_assoc _ _ _)
  zero_add a := GFSymbol.ext (Nat.zero_xor _)
  add_zero a := GFSymbol.ext (Nat.xor_zero _)
  add_comm a b := GFSymbol.ext (Nat.xor_comm _ _)
  neg_add_cancel a := GFSymbol.ext (Nat.xor_self _)
  nsmul := nsmulRec
  zsmul := zsmulRec
  mul_assoc := mul_assoc'
  one_mul := one_mul'
  mul_one a := by rw [mul_comm', one_mul']
  left_distrib := left_distrib'
  right_distrib a b c := by rw [mul_comm', left_distrib', mul_comm' c a, mul_comm' c b]
  zero_mul := zero_mul'
  mul_zero a := by rw [mul_comm', zero_mul']
  mul_comm := mul_comm'
  exists_pair_ne := ⟨0, 1, fun h => absurd (congrArg GFSymbol.val h) (by decide)⟩
  mul_inv_cancel := mul_inv_cancel'
  inv_zero := GFSymbol.ext (by simp only [val_inv, val_zero, inv, psi_linear.zero, gfInv_zero, psiInv_linear.zero])
  nnqsmul := _
  qsmul := _

end GFSymbol

end NovelPoly
