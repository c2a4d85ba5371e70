import Mathlib.Data.List.Nodup
import NovelPoly.Basic

/-!
Locality of buffer updates. Every loop of the core updates a buffer through steps that each touch a
small region (a cell, a butterfly pair, a block) and read nothing outside it. `LocalOn f R` records
that `f` changes only cells in `R` and computes them from cells in `R`. A `foldl` of local steps over
pairwise disjoint regions then has a pointwise closed form: a cell of region `R j` ends up as step
`j` alone makes it, and a cell in no region is untouched. All the closed forms of the transforms,
passes and stages are read off these two lemmas.
-/

namespace NovelPoly

open Function

/-- `f` changes a buffer only where `R` holds, and computes those cells from cells where `R` holds. -/
structure LocalOn (f : Buf → Buf) (R : Nat → Prop) : Prop where
  frame : ∀ x t, ¬ R t → f x t = x t
  reads : ∀ x y, (∀ t, R t → x t = y t) → ∀ t, R t → f x t = f y t

/-- The region a butterfly block touches: its low half `[j-d, j)` and its high half `[j, j+d)`. -/
def blockRegion (d j t : Nat) : Prop := j - d ≤ t ∧ t < j + d

/-- The cells of the butterfly pair `(i, i + d)`. -/
def pairRegion (d i t : Nat) : Prop := t = i ∨ t = i + d

namespace LocalOn

variable {f g : Buf → Buf} {R R' : Nat → Prop}

theorem id : LocalOn (fun x => x) R := ⟨fun _ _ _ => rfl, fun _ _ h t ht => h t ht⟩

theorem comp (hf : LocalOn f R) (hg : LocalOn g R) : LocalOn (fun x => g (f x)) R :=
  ⟨fun x t ht => (hg.frame _ t ht).trans (hf.frame x t ht),
   fun x y h => hg.reads _ _ (hf.reads x y h)⟩

theorem mono (hf : LocalOn f R) (h : ∀ t, R t → R' t) : LocalOn f R' := by
  refine ⟨fun x t ht => hf.frame x t (fun hr => ht (h t hr)), fun x y hxy t ht => ?_⟩
  by_cases hr : R t
  · exact hf.reads x y (fun t' h' => hxy t' (h t' h')) t hr
  · rw [hf.frame x t hr, hf.frame y t hr]; exact hxy t ht

theorem ite {p : Prop} [Decidable p] (hf : LocalOn f R) (hg : LocalOn g R) :
    LocalOn (fun x => if p then f x else g x) R := by
  by_cases hp : p <;> simpa [hp]

/-- Steps local on disjoint regions commute. -/
theorem comm (hf : LocalOn f R) (hg : LocalOn g R') (hdisj : ∀ t, R t → ¬ R' t) (x : Buf) :
    g (f x) = f (g x) := by
  funext t
  by_cases hR : R t
  · rw [hg.frame _ t (hdisj t hR), hf.reads (g x) x (fun u hu => hg.frame x u (hdisj u hu)) t hR]
  · by_cases hR' : R' t
    · rw [hf.frame _ t hR, hg.reads (f x) x (fun u hu => hf.frame x u fun h => hdisj u h hu) t hR']
    · rw [hg.frame _ t hR', hf.frame _ t hR, hf.frame _ t hR, hg.frame _ t hR']

/-- A single store `x[w] = F x` is local on any region holding `w` and every cell `F` reads. -/
theorem update {w : Nat} {F : Buf → Nat} (hw : R w)
    (hF : ∀ x y, (∀ t, R t → x t = y t) → F x = F y) : LocalOn (fun x => update x w (F x)) R := by
  refine ⟨fun x t ht => update_noteq (fun h => ht (by rw [h]; exact hw)) _ _, fun x y h t ht => ?_⟩
  by_cases htw : t = w
  · subst htw; simp only [update_same]; exact hF x y h
  · simp only [update_noteq htw]; exact h t ht

end LocalOn

section Fold

variable {ι : Type} (g : Buf → ι → Buf) (R : ι → Nat → Prop)

/-- A cell outside every region is untouched by a fold of local steps. -/
theorem foldl_frame (js : List ι) (hloc : ∀ j ∈ js, LocalOn (fun x => g x j) (R j)) (x : Buf)
    (t : Nat) (ht : ∀ j ∈ js, ¬ R j t) : js.foldl g x t = x t := by
  induction js generalizing x with
  | nil => rfl
  | cons a js ih =>
    rw [List.foldl_cons, ih (fun j hj => hloc j (.tail _ hj)) _ (fun j hj => ht j (.tail _ hj)),
      (hloc a (.head _)).frame x t (ht a (.head _))]

/-- A cell of region `R j` ends up as step `j` alone makes it, when the regions are disjoint. -/
theorem foldl_apply (js : List ι) (hloc : ∀ j ∈ js, LocalOn (fun x => g x j) (R j))
    (hdisj : js.Pairwise (fun a b => ∀ t, R a t → ¬ R b t)) (x : Buf) {j : ι} (hj : j ∈ js)
    {t : Nat} (ht : R j t) : js.foldl g x t = g x j t := by
  induction js generalizing x with
  | nil => cases hj
  | cons a js ih =>
    rw [List.pairwise_cons] at hdisj
    have hloc' := fun j hj => hloc j (List.mem_cons_of_mem a hj)
    rw [List.foldl_cons]
    rcases List.mem_cons.1 hj with rfl | hj'
    · exact foldl_frame g R js hloc' _ t (fun b hb => hdisj.1 b hb t ht)
    · rw [ih hloc' hdisj.2 _ hj']
      exact (hloc j (.tail _ hj')).reads _ _
        (fun t' h' => (hloc a (.head _)).frame x t' (fun ha => hdisj.1 j hj' t' ha h')) t ht

/-- A fold of local steps over disjoint regions is local on their union. -/
theorem foldl_localOn (js : List ι) (hloc : ∀ j ∈ js, LocalOn (fun x => g x j) (R j))
    (hdisj : js.Pairwise (fun a b => ∀ t, R a t → ¬ R b t)) :
    LocalOn (fun x => js.foldl g x) (fun t => ∃ j ∈ js, R j t) := by
  refine ⟨fun x t ht => foldl_frame g R js hloc x t (fun j hj h => ht ⟨j, hj, h⟩), ?_⟩
  rintro x y hxy t ⟨j, hj, ht⟩
  rw [foldl_apply g R js hloc hdisj x hj ht, foldl_apply g R js hloc hdisj y hj ht]
  exact (hloc j hj).reads x y (fun t' h' => hxy t' ⟨j, hj, h'⟩) t ht

/-- A fold of steps local on one region is local on it. -/
theorem foldl_localOn_same {R : Nat → Prop} :
    ∀ (js : List ι), (∀ j ∈ js, LocalOn (fun x => g x j) R) → LocalOn (fun x => js.foldl g x) R
  | [], _ => LocalOn.id
  | j :: js, h => (h j (.head _)).comp (foldl_localOn_same js fun b hb => h b (.tail _ hb))

/-- Disjointness of regions indexed by a duplicate-free list. -/
theorem pairwise_disjoint_of_nodup {js : List ι} (hnd : js.Nodup)
    (h : ∀ a ∈ js, ∀ b ∈ js, a ≠ b → ∀ t, R a t → ¬ R b t) :
    js.Pairwise (fun a b => ∀ t, R a t → ¬ R b t) :=
  hnd.pairwise_of_forall_ne h

/-- Folding inverse local steps over the same disjoint regions undoes the fold. -/
theorem foldl_cancel (f : Buf → ι → Buf) (js : List ι) (hf : ∀ j ∈ js, LocalOn (fun x => f x j) (R j))
    (hg : ∀ j ∈ js, LocalOn (fun x => g x j) (R j))
    (hdisj : js.Pairwise (fun a b => ∀ t, R a t → ¬ R b t)) (hinv : ∀ j ∈ js, ∀ x, g (f x j) j = x)
    (x : Buf) : js.foldl g (js.foldl f x) = x := by
  funext t
  by_cases ht : ∃ j ∈ js, R j t
  · obtain ⟨j, hj, ht⟩ := ht
    rw [foldl_apply g R js hg hdisj _ hj ht, ← congrFun (hinv j hj x) t]
    exact (hg j hj).reads _ _ (fun t' h' => foldl_apply f R js hf hdisj x hj h') t ht
  · push_neg at ht
    rw [foldl_frame g R js hg _ t ht, foldl_frame f R js hf _ t ht]

end Fold

/-! ### Loops that store one cell per iteration -/

/-- A cell that no iteration changes keeps its value over the loop. -/
theorem foldl_fix_cell {ι : Type} (g : Buf → ι → Buf) {l : List ι} {t : Nat}
    (h : ∀ a ∈ l, ∀ x, g x a t = x t) (x : Buf) : l.foldl g x t = x t := by
  induction l generalizing x with
  | nil => rfl
  | cons a l ih => rw [List.foldl_cons, ih (fun b hb => h b (.tail _ hb)), h a (.head _)]

/-- A loop whose iteration `i` rewrites cell `i` from its own value. -/
theorem foldl_pointwise {js : List Nat} (hnd : js.Nodup) (F : Nat → Nat → Nat) (x : Buf) (t : Nat) :
    js.foldl (fun x i => update x i (F i (x i))) x t = if t ∈ js then F t (x t) else x t := by
  have hloc : ∀ i ∈ js, LocalOn (fun x => update x i (F i (x i))) (fun t => t = i) :=
    fun i _ => LocalOn.update rfl fun x y h => by rw [h i rfl]
  split_ifs with ht
  · rw [foldl_apply _ (fun i t => t = i) js hloc (pairwise_disjoint_of_nodup _ hnd
      fun a _ b _ hab t h1 h2 => hab (h1 ▸ h2)) x ht rfl, update_same]
  · exact foldl_frame _ (fun i t => t = i) js hloc x t fun i hi h => ht (h ▸ hi)

/-- A loop whose iteration `i` stores `v i` into cell `p i`, the cells distinct. -/
theorem foldl_scatter {js : List Nat} (p v : Nat → Nat) (hp : js.Pairwise (fun a b => p a ≠ p b))
    (x : Buf) {i : Nat} (hi : i ∈ js) : js.foldl (fun x i => update x (p i) (v i)) x (p i) = v i := by
  have hloc : ∀ i ∈ js, LocalOn (fun x => update x (p i) (v i)) (fun t => t = p i) :=
    fun i _ => LocalOn.update rfl fun _ _ _ => rfl
  rw [foldl_apply _ (fun i t => t = p i) js hloc (hp.imp fun {a b} hab t (h1 : t = p a) (h2 : t = p b) => hab (h1 ▸ h2)) x hi rfl,
    update_same]

/-- A loop whose iteration `i` rewrites cell `i` from its own value and from a cell `k` that no
iteration writes. -/
theorem foldl_pointwise_with {js : List Nat} (hnd : js.Nodup) {k : Nat} (hk : k ∉ js)
    (F : Nat → Nat → Nat → Nat) (x : Buf) (t : Nat) :
    js.foldl (fun x i => update x i (F i (x k) (x i))) x t = if t ∈ js then F t (x k) (x t) else x t := by
  induction js generalizing x with
  | nil => rfl
  | cons a js ih =>
    obtain ⟨ha, hnd⟩ := List.nodup_cons.1 hnd
    have hak : k ≠ a := fun h => hk (h ▸ .head _)
    rw [List.foldl_cons, ih hnd (fun h => hk (.tail _ h)), update_noteq hak]
    by_cases hta : t = a
    · subst hta; simp [ha]
    · by_cases ht : t ∈ js <;> simp [ht, hta, update_noteq hta]

/-- A loop that copies each cell `j` of `js`, mapped by `F`, to cell `j + s`; every `j` is below
`s`, so no iteration reads a cell another one writes. -/
theorem foldl_shift_copy {js : List Nat} {s : Nat} (hnd : js.Nodup) (hlt : ∀ j ∈ js, j < s) (F : Nat → Nat)
    (x : Buf) (t : Nat) :
    js.foldl (fun x j => update x (j + s) (F (x j))) x t =
      if s ≤ t ∧ t - s ∈ js then F (x (t - s)) else x t := by
  have hloc : ∀ j ∈ js, LocalOn (fun x => update x (j + s) (F (x j))) (pairRegion s j) :=
    fun j _ => LocalOn.update (Or.inr rfl) fun x y h => by rw [h j (Or.inl rfl)]
  have hdisj := pairwise_disjoint_of_nodup (pairRegion s) hnd fun a ha b hb hab t => by
    have := hlt a ha; have := hlt b hb; simp only [pairRegion]; omega
  split_ifs with h
  · rw [foldl_apply _ _ _ hloc hdisj x h.2 (Or.inr (by omega)), Nat.sub_add_cancel h.1, update_same]
  · by_cases ht : t ∈ js
    · rw [foldl_apply _ _ _ hloc hdisj x ht (Or.inl rfl), update_noteq (by have := hlt t ht; omega)]
    · refine foldl_frame _ _ _ hloc x t fun j hj hr => ?_
      rcases hr with rfl | rfl
      · exact ht hj
      · exact h ⟨by omega, by rwa [Nat.add_sub_cancel]⟩

/-- Running inverse steps in the reverse order undoes a fold. -/
theorem foldl_reverse_cancel {α β : Type} (f g : α → β → α) (l : List β)
    (h : ∀ b ∈ l, ∀ a, g (f a b) b = a) (a : α) : l.reverse.foldl g (l.foldl f a) = a := by
  induction l generalizing a with
  | nil => rfl
  | cons b l ih =>
    rw [List.foldl_cons, List.reverse_cons, List.foldl_append, ih (fun b hb => h b (.tail _ hb)),
      List.foldl_cons, List.foldl_nil, h b (.head _)]

/-- Running inverse steps in the original order undoes a fold over the reversed list. -/
theorem foldl_reverse_cancel' {α β : Type} (f g : α → β → α) (l : List β)
    (h : ∀ b ∈ l, ∀ a, g (f a b) b = a) (a : α) : l.foldl g (l.reverse.foldl f a) = a := by
  simpa using foldl_reverse_cancel f g l.reverse (fun b hb => h b (List.mem_reverse.1 hb)) a

end NovelPoly
