import Xpir.Foundations.ButterflyNetwork
import Xpir.NFLFV.NflPoly

/-!
# Transforms of `nfl` on words

The network of butterflies works on words below `2 * p`, and the words are reduced in a pass
over them at the end. The powers of the roots and their quotients stand in tables, which
are filled by one multiplication after the other.

The words that the transforms leave are the residues of the transforms of `PolyType`
(`ntt_pow_phi_val` and `invntt_pow_invphi_val`). The degree two is an exception: its
transform ends before the words are reduced.
-/

namespace Xpir.Nfl

/-- The multiplication of words is the one of residues, which the constants are. -/
structure Params.Computes {T : WordType} (params : Params T) (mulmod : ℕ → ℕ → ℕ) : Prop where
  mulmod_val : ∀ x y : ZMod params.p, mulmod x.val y.val = (x * y).val
  root_lt : params.primitive_root < params.p
  inverse_lt : params.invkMaxPolyDegree < params.p
  size_lt : 2 ^ params.maxLevels < params.p

namespace core

section Model

variable (T : WordType) (p : ℕ)

/-! ## The network -/

/-- `u0 + u1`, with `2 * p` subtracted if the sum reaches it. -/
def lazyAdd (u0 u1 : ℕ) : ℕ :=
  let t0 := (u0 + u1) % 2 ^ T.bits
  t0 - if 2 * p ≤ t0 then 2 * p else 0

/-- `u0 - u1`, with `2 * p` added if the difference is negative as a signed word. -/
def lazySub (u0 u1 : ℕ) : ℕ :=
  let t1 := (2 ^ T.bits + u0 - u1) % 2 ^ T.bits
  (t1 + if 2 ^ (T.bits - 1) ≤ t1 then 2 * p else 0) % 2 ^ T.bits

/-- `u0 - u1 + 2 * p` multiplied by a table entry. -/
def twiddledSub (entry : ℕ × ℕ) (u0 u1 : ℕ) : ℕ :=
  let t := (2 ^ T.bits + u0 - u1 + 2 * p) % 2 ^ T.bits
  let q := t * entry.2 / 2 ^ T.bits % 2 ^ T.bits
  ((((t * entry.1 : ℕ) : ℤ) - (q * p : ℕ)) % 2 ^ T.bits).toNat

def operations (wtab : List (ℕ × ℕ)) : ButterflyOperations ℕ where
  add := lazyAdd T p
  sub := lazySub T p
  twiddled index := twiddledSub T p (wtab.getD index (0, 0))

/-- The words are reduced by `NTT_STRICTMOD`, which is always defined. -/
def ntt (levels : ℕ) (x : ℕ → ℕ) (wtab : List (ℕ × ℕ)) : ℕ → ℕ :=
  let x := (operations T p wtab).network (2 ^ levels) x
  if 2 ^ levels ≤ 2 then x
  else forLoop (2 ^ levels) (fun i x => Function.update x i (x i - if p ≤ x i then p else 0)) x

/-- The index `I` with its bits reversed, behind the bits of `R`. -/
def r_loop : ℕ → ℕ → ℕ → ℕ
  | 0, R, _ => R
  | rounds + 1, R, I => r_loop rounds (2 * R + I % 2) (I / 2)

/-- The loop is unrolled up to `PERMUT_LIMIT_UNROLL`, and there it writes to reversed indices. -/
def permut (levels : ℕ) (y x : ℕ → ℕ) : ℕ → ℕ :=
  if 2 ^ levels ≤ 1024 then
    forLoop (2 ^ levels) (fun I y => Function.update y (r_loop levels 0 I) (x I)) y
  else forLoop (2 ^ levels) (fun i y => Function.update y i (x (r_loop levels 0 i))) y

def inv_ntt (levels : ℕ) (x : ℕ → ℕ) (inv_wtab : List (ℕ × ℕ)) : ℕ → ℕ :=
  if 2 ^ levels = 1 then x
  else
    let y := permut levels (fun _ => 0) x
    let y := ntt T p levels y inv_wtab
    permut levels x y

/-! ## The tables -/

variable (mulmod : ℕ → ℕ → ℕ)

/-- A word and its quotient. -/
def withShoup (y : ℕ) : ℕ × ℕ := (y, y * 2 ^ T.bits / p % 2 ^ T.bits)

/-- Store `first`, `first * factor` and so on behind the entries of a table. -/
def powers (first factor count : ℕ) (table : List (ℕ × ℕ)) : ℕ × List (ℕ × ℕ) :=
  forLoop count (fun _ state => (mulmod state.1 factor, state.2 ++ [withShoup T p state.1]))
    (first, table)

/-- The powers of `w` that a transform of size `K` reads, group after group. -/
def prep_wtab (K w : ℕ) (wtab : List (ℕ × ℕ)) : List (ℕ × ℕ) :=
  if 2 ≤ K then
    prep_wtab (K / 2) (mulmod w w) (powers T p mulmod 1 w (K / 2) wtab).2
  else wtab
termination_by K

/-- The tables for one modulus. -/
structure Tables where
  phis : List (ℕ × ℕ)
  invpoly_times_invphis : List (ℕ × ℕ)
  omegas : List (ℕ × ℕ)
  invomegas : List (ℕ × ℕ)

/-! What `initialize` computes for one modulus. -/

section Constants

variable (params : Params T) (levels : ℕ)

/-- The root of the modulus, squared until its order is twice the degree. -/
def phiWord : ℕ :=
  forLoop (params.maxLevels - levels) (fun _ phi => mulmod phi phi) params.primitive_root

/-- The powers of `phi`, with the one that follows the last of them. -/
def phisTable : ℕ × List (ℕ × ℕ) :=
  powers T params.p mulmod 1 (phiWord T mulmod params levels) (2 ^ levels) []

def invphiWord : ℕ :=
  let phis := phisTable T mulmod params levels
  mulmod phis.1 (phis.2.getD (2 ^ levels - 1) (0, 0)).1

def invpolyDegreeWord : ℕ :=
  mulmod params.invkMaxPolyDegree (2 ^ params.maxLevels / 2 ^ levels)

def initializeTables : Tables :=
  let phi := phiWord T mulmod params levels
  let invphi := invphiWord T mulmod params levels
  let invpolyDegree := invpolyDegreeWord T mulmod params levels
  { phis := (phisTable T mulmod params levels).2
    invpoly_times_invphis :=
      (powers T params.p mulmod invpolyDegree invphi (2 ^ levels) []).2
    omegas := prep_wtab T params.p mulmod (2 ^ levels) (mulmod phi phi) []
    invomegas := prep_wtab T params.p mulmod (2 ^ levels) (mulmod invphi invphi) [] }

end Constants

/-! ## The transforms -/

/-- The products with the words of a table. -/
def shoup (table : List (ℕ × ℕ)) (op : ℕ → ℕ) (i : ℕ) : ℕ :=
  ops.mulmod_shoup T (op i) (table.getD i (0, 0)).1 (table.getD i (0, 0)).2 p

def ntt_pow_phi (tables : Tables) (levels : ℕ) (op : ℕ → ℕ) : ℕ → ℕ :=
  ntt T p levels (shoup T p tables.phis op) tables.omegas

def invntt_pow_invphi (tables : Tables) (levels : ℕ) (op : ℕ → ℕ) : ℕ → ℕ :=
  shoup T p tables.invpoly_times_invphis (inv_ntt T p levels op tables.invomegas)

end Model

/-! ## Butterflies on words -/

section Words

variable {T : WordType} {p u0 u1 : ℕ} (p_lt : 4 * p < 2 ^ T.bits) (u0_lt : u0 < 2 * p)
  (u1_lt : u1 < 2 * p)

include p_lt u0_lt u1_lt

theorem lazyAdd_stands :
    lazyAdd T p u0 u1 < 2 * p ∧ (lazyAdd T p u0 u1 : ZMod p) = u0 + u1 := by
  have sum_eq : lazyAdd T p u0 u1 = if 2 * p ≤ u0 + u1 then u0 + u1 - 2 * p else u0 + u1 := by
    simp only [lazyAdd, Nat.mod_eq_of_lt (show u0 + u1 < 2 ^ T.bits by omega)]
    split <;> rfl
  rw [sum_eq]
  exact lazySum_stands u0_lt u1_lt

theorem lazySub_stands :
    lazySub T p u0 u1 < 2 * p ∧ (lazySub T p u0 u1 : ZMod p) = u0 - u1 := by
  have half : 2 ^ T.bits = 2 * 2 ^ (T.bits - 1) := by cases T <;> rfl
  have difference_eq : lazySub T p u0 u1 = if u0 < u1 then u0 + 2 * p - u1 else u0 - u1 := by
    rw [lazySub]
    by_cases negative : u0 < u1
    · have word : (2 ^ T.bits + u0 - u1) % 2 ^ T.bits = 2 ^ T.bits + u0 - u1 :=
        Nat.mod_eq_of_lt (by omega)
      have lifted : (2 ^ T.bits + u0 - u1 + 2 * p) % 2 ^ T.bits = u0 + 2 * p - u1 := by
        rw [show 2 ^ T.bits + u0 - u1 + 2 * p = 2 ^ T.bits + (u0 + 2 * p - u1) by omega,
          Nat.add_mod_left, Nat.mod_eq_of_lt (by omega)]
      simp only [word]
      rw [if_pos (by omega), if_pos negative, lifted]
    · have word : (2 ^ T.bits + u0 - u1) % 2 ^ T.bits = u0 - u1 := by
        rw [Nat.add_sub_assoc (by omega), Nat.add_mod_left, Nat.mod_eq_of_lt (by omega)]
      simp only [word]
      rw [if_neg (by omega), if_neg negative, Nat.add_zero, Nat.mod_eq_of_lt (by omega)]
  rw [difference_eq]
  exact lazyDifference_stands u0_lt u1_lt

theorem twiddledSub_stands {y : ℕ} (y_lt : y < p) :
    twiddledSub T p (withShoup T p y) u0 u1 < 2 * p ∧
      (twiddledSub T p (withShoup T p y) u0 u1 : ZMod p) = (u0 - u1) * y := by
  have word : (2 ^ T.bits + u0 - u1 + 2 * p) % 2 ^ T.bits = u0 + 2 * p - u1 := by
    rw [show 2 ^ T.bits + u0 - u1 + 2 * p = 2 ^ T.bits + (u0 + 2 * p - u1) by omega,
      Nat.add_mod_left, Nat.mod_eq_of_lt (by omega)]
  have shoup_eq : y * 2 ^ T.bits / p % 2 ^ T.bits = ops.compute_shoup T y p := by
    rw [ops.compute_shoup, Nat.mod_eq_of_lt y_lt]
  have lifted_lt : u0 + 2 * p - u1 < 2 ^ T.bits := by omega
  have product_eq : twiddledSub T p (withShoup T p y) u0 u1 =
      shoupRemainder (2 ^ T.bits) (u0 + 2 * p - u1) y p := by
    simp only [twiddledSub, withShoup, word, shoup_eq, ops.shoupWord_eq p_lt lifted_lt y_lt,
      Int.toNat_natCast]
  rw [product_eq]
  refine ⟨shoupRemainder_lt (by omega) lifted_lt y, ?_⟩
  rw [← cast_add_two_mul_sub u1_lt, ← Nat.cast_mul]
  exact (ZMod.natCast_eq_natCast_iff' _ _ p).mpr (shoupRemainder_mod _ _ _ _)

end Words

/-! ## The entries of the tables -/

section Tables

variable {T : WordType} {p : ℕ} {mulmod : ℕ → ℕ → ℕ}
  (mulmod_val : ∀ x y : ZMod p, mulmod x.val y.val = (x * y).val)

include mulmod_val

theorem powers_eq (first factor : ZMod p) (count : ℕ) (table : List (ℕ × ℕ)) :
    powers T p mulmod first.val factor.val count table =
      ((first * factor ^ count).val,
        table ++ (List.range count).map fun i => withShoup T p (first * factor ^ i).val) := by
  rw [powers]
  induction count with
  | zero => simp
  | succ count ih =>
      rw [forLoop_succ, ih, mulmod_val, pow_succ, ← mul_assoc, List.append_assoc, List.range_succ,
        List.map_append]
      rfl

theorem powers_getD (first factor : ZMod p) {count i : ℕ} (i_lt : i < count) :
    (powers T p mulmod first.val factor.val count []).2.getD i (0, 0) =
      withShoup T p (first * factor ^ i).val := by
  rw [powers_eq mulmod_val, List.nil_append, List.getD_eq_getElem?_getD, List.getElem?_map,
    List.getElem?_range i_lt]
  rfl

/-- The twiddles that a table holds. -/
def twiddles : ℕ → ZMod p → List (ZMod p)
  | 0, _ => []
  | levels + 1, w => (List.range (2 ^ levels)).map (w ^ ·) ++ twiddles levels (w * w)

omit mulmod_val in
/-- The group of a layer has the powers of the root of the layer. -/
theorem twiddles_getElem? {levels layer i : ℕ} (w : ZMod p) (layer_lt : layer < levels)
    (i_lt : i < 2 ^ (levels - 1 - layer)) :
    (twiddles levels w)[2 ^ levels - 2 ^ (levels - layer) + i]? = some ((w ^ 2 ^ layer) ^ i) := by
  induction levels generalizing layer w with
  | zero => omega
  | succ levels ih =>
      have length : ((List.range (2 ^ levels)).map (w ^ ·)).length = 2 ^ levels := by
        rw [List.length_map, List.length_range]
      rw [twiddles]
      cases layer with
      | zero =>
          rw [Nat.sub_zero, Nat.add_sub_cancel] at i_lt
          rw [Nat.sub_zero, Nat.sub_self, Nat.zero_add, List.getElem?_append_left
            (by rwa [length]), List.getElem?_map, List.getElem?_range i_lt]
          simp
      | succ layer =>
          have smaller : 2 ^ (levels - layer) ≤ 2 ^ levels :=
            Nat.pow_le_pow_right (by omega) (by omega)
          have position : 2 ^ (levels + 1) - 2 ^ (levels + 1 - (layer + 1)) + i =
              2 ^ levels + (2 ^ levels - 2 ^ (levels - layer) + i) := by
            rw [Nat.add_sub_add_right, pow_succ]
            omega
          have root : (w * w) ^ 2 ^ layer = w ^ 2 ^ (layer + 1) := by
            rw [← sq, ← pow_mul, pow_succ']
          rw [position, List.getElem?_append_right (by rw [length]; omega), length,
            Nat.add_sub_cancel_left, ih (w * w) (by omega) (by
              rwa [show levels - 1 - layer = levels + 1 - 1 - (layer + 1) by omega]), root]

theorem prep_wtab_eq (one_lt : 1 < p) (levels : ℕ) (w : ZMod p) (table : List (ℕ × ℕ)) :
    prep_wtab T p mulmod (2 ^ levels) w.val table =
      table ++ (twiddles levels w).map fun value => withShoup T p value.val := by
  induction levels generalizing w table with
  | zero =>
      rw [prep_wtab, if_neg (by omega)]
      simp [twiddles]
  | succ levels ih =>
      have size_ge := Nat.two_pow_pos levels
      have half : 2 ^ (levels + 1) / 2 = 2 ^ levels := by
        rw [pow_succ]
        omega
      have one_val : (1 : ZMod p).val = 1 := ZMod.val_one'' one_lt.ne'
      have row := @powers_eq T p mulmod mulmod_val 1 w (2 ^ levels) table
      rw [one_val] at row
      rw [prep_wtab, if_pos (by rw [pow_succ]; omega), half, row, mulmod_val, ih, twiddles,
        List.map_append, List.map_map, List.append_assoc]
      simp only [one_mul]
      rfl

/-- The table of the powers of a root serves the network. -/
theorem simulates_prep_wtab (p_lt : 4 * p < 2 ^ T.bits) (one_lt : 1 < p) (levels : ℕ)
    (w : ZMod p) :
    (operations T p (prep_wtab T p mulmod (2 ^ levels) w.val [])).Simulates
      (fun (u : ℕ) (a : ZMod p) => u < 2 * p ∧ (u : ZMod p) = a)
      (fun layer i => (w ^ 2 ^ layer) ^ i) levels := by
  have positive : NeZero p := ⟨by omega⟩
  have multiplies : ∀ layer < levels, ∀ i < 2 ^ (levels - 1 - layer),
      (operations T p (prep_wtab T p mulmod (2 ^ levels) w.val [])).Multiplies
        (fun (u : ℕ) (a : ZMod p) => u < 2 * p ∧ (u : ZMod p) = a)
        (2 ^ levels - 2 ^ (levels - layer) + i) ((w ^ 2 ^ layer) ^ i) := by
    rintro layer layer_lt i i_lt u0 u1 a0 a1 ⟨u0_lt, rfl⟩ ⟨u1_lt, rfl⟩
    have entry : (prep_wtab T p mulmod (2 ^ levels) w.val []).getD
        (2 ^ levels - 2 ^ (levels - layer) + i) (0, 0) =
          withShoup T p ((w ^ 2 ^ layer) ^ i).val := by
      rw [prep_wtab_eq mulmod_val one_lt, List.nil_append, List.getD_eq_getElem?_getD,
        List.getElem?_map, twiddles_getElem? w layer_lt i_lt]
      rfl
    have product := twiddledSub_stands p_lt u0_lt u1_lt ((w ^ 2 ^ layer) ^ i).val_lt
    rw [ZMod.natCast_zmod_val, ← entry] at product
    exact product
  constructor
  · rintro u0 u1 a0 a1 ⟨u0_lt, rfl⟩ ⟨u1_lt, rfl⟩
    exact lazyAdd_stands p_lt u0_lt u1_lt
  · rintro u0 u1 a0 a1 ⟨u0_lt, rfl⟩ ⟨u1_lt, rfl⟩
    exact lazySub_stands p_lt u0_lt u1_lt
  · exact fun layer layer_lt => multiplies layer (by omega)
  · intro levels_ge
    have last := multiplies (levels - 2) (by omega) 1
      (by rw [show levels - 1 - (levels - 2) = 1 by omega]; omega)
    rwa [show levels - (levels - 2) = 2 by omega] at last
  · exact fun layer _ => pow_zero _

end Tables

/-! ## The words of the transforms -/

section Transforms

variable {T : WordType} {p levels : ℕ} {mulmod : ℕ → ℕ → ℕ}

theorem r_loop_eq (levels R I : ℕ) : r_loop levels R I = R * 2 ^ levels + bitReverse levels I := by
  induction levels generalizing R I with
  | zero => simp [r_loop, bitReverse]
  | succ levels ih =>
      rw [r_loop, ih, bitReverse]
      ring

/-- Both branches permute the words in the same way. -/
theorem permut_apply (y x : ℕ → ℕ) {cell : ℕ} (cell_lt : cell < 2 ^ levels) :
    permut levels y x cell = x (bitReverse levels cell) := by
  have index : ∀ I, r_loop levels 0 I = bitReverse levels I := by
    intro I
    rw [r_loop_eq, Nat.zero_mul, Nat.zero_add]
  rw [permut]
  simp only [index]
  split
  next =>
    have injective : Set.InjOn (bitReverse levels) (Set.Iio (2 ^ levels)) := by
      intro i i_lt j j_lt same
      rw [← bitReverse_bitReverse i_lt, same, bitReverse_bitReverse j_lt]
    have written := forLoop_update_cell injective (fun I _ => x I) y (bitReverse_lt levels cell)
    rwa [bitReverse_bitReverse cell_lt] at written
  next =>
    exact @forLoop_update_cell _ _ _ id _ Function.injective_id.injOn
      (fun i _ => x (bitReverse levels i)) y cell cell_lt

variable (mulmod_val : ∀ x y : ZMod p, mulmod x.val y.val = (x * y).val)
  (p_lt : 4 * p < 2 ^ T.bits) (one_lt : 1 < p)

include mulmod_val p_lt one_lt

/-- The words are reduced in the end, if there are not two of them. -/
theorem ntt_val (not_two : levels ≠ 1) {x : ℕ → ℕ} {values : ℕ → ZMod p}
    (words : ∀ cell < 2 ^ levels, x cell = (values cell).val) (w : ZMod p) {cell : ℕ}
    (cell_lt : cell < 2 ^ levels) :
    ntt T p levels x (prep_wtab T p mulmod (2 ^ levels) w.val []) cell =
      (decimationLayers w levels values levels cell).val := by
  have positive : NeZero p := ⟨by omega⟩
  rcases Nat.eq_zero_or_pos levels with rfl | levels_pos
  · exact words cell cell_lt
  · have represents : ∀ cell < 2 ^ levels,
        x cell < 2 * p ∧ (x cell : ZMod p) = values cell := by
      intro cell cell_lt
      have value_lt := (values cell).val_lt
      rw [words cell cell_lt, ZMod.natCast_zmod_val]
      exact ⟨by omega, rfl⟩
    rcases (simulates_prep_wtab mulmod_val p_lt one_lt levels w).network represents cell cell_lt
      with ⟨word_lt, residue⟩
    have large : ¬ 2 ^ levels ≤ 2 := by
      have := Nat.pow_le_pow_right Nat.two_pos (show 2 ≤ levels by omega)
      omega
    rw [ntt, if_neg large]
    refine (@forLoop_update_cell _ _ _ id _ Function.injective_id.injOn
      (fun _ word => word - if p ≤ word then p else 0) _ cell cell_lt).trans ?_
    rw [id_eq, ops.sub_ite_eq_mod word_lt, ← ZMod.val_natCast, residue, twiddledLayers_powers]

/-- Between two permutations of the words. -/
theorem inv_ntt_val (not_two : levels ≠ 1) {x : ℕ → ℕ} {values : ℕ → ZMod p}
    (words : ∀ cell < 2 ^ levels, x cell = (values cell).val) (w : ZMod p) {cell : ℕ}
    (cell_lt : cell < 2 ^ levels) :
    inv_ntt T p levels x (prep_wtab T p mulmod (2 ^ levels) w.val []) cell =
      (decimationLayers w levels (fun i => values (bitReverse levels i)) levels
        (bitReverse levels cell)).val := by
  rcases Nat.eq_zero_or_pos levels with rfl | levels_pos
  · obtain rfl : cell = 0 := by omega
    exact words 0 cell_lt
  · have large : ¬ 2 ^ levels = 1 := (Nat.one_lt_two_pow levels_pos.ne').ne'
    rw [inv_ntt, if_neg large, permut_apply _ _ cell_lt]
    apply ntt_val mulmod_val p_lt one_lt not_two _ w (bitReverse_lt levels cell)
    intro i i_lt
    rw [permut_apply _ _ i_lt, words _ (bitReverse_lt levels i)]

end Transforms

/-! ## The polynomials -/

section Polynomials

variable {P : PolyType} {cm : Fin P.nmoduli} {mulmod : ℕ → ℕ → ℕ}
  (computes : (P.params cm).Computes mulmod)

/-- The tables hold the powers of the roots, and the twiddles of both transforms. -/
structure Filled (P : PolyType) (cm : Fin P.nmoduli) (mulmod : ℕ → ℕ → ℕ) (tables : Tables) :
    Prop where
  phis : ∀ i < P.degree,
    tables.phis.getD i (0, 0) = withShoup P.T (P.params cm).p (P.phi cm ^ i).val
  invpoly_times_invphis : ∀ i < P.degree, tables.invpoly_times_invphis.getD i (0, 0) =
    withShoup P.T (P.params cm).p (P.invpolyDegree cm * P.invphi cm ^ i).val
  omegas : tables.omegas =
    prep_wtab P.T (P.params cm).p mulmod P.degree (P.phi cm * P.phi cm).val []
  invomegas : tables.invomegas =
    prep_wtab P.T (P.params cm).p mulmod P.degree (P.invphi cm * P.invphi cm).val []

/-- The product with an entry of a table is the one of residues. -/
theorem shoup_val {table : List (ℕ × ℕ)} {i : ℕ} {factor : ZMod (P.params cm).p}
    (entry : table.getD i (0, 0) = withShoup P.T (P.params cm).p factor.val) {op : ℕ → ℕ}
    {value : ZMod (P.params cm).p} (word : op i = value.val) :
    shoup P.T (P.params cm).p table op i = (value * factor).val := by
  have positive : NeZero (P.params cm).p := ⟨(PolyType.p_pos cm).ne'⟩
  have quotient : factor.val * 2 ^ P.T.bits / (P.params cm).p % 2 ^ P.T.bits =
      ops.compute_shoup P.T factor.val (P.params cm).p := by
    rw [ops.compute_shoup, Nat.mod_eq_of_lt factor.val_lt]
  rw [shoup, entry, word, withShoup]
  simp only [quotient]
  exact ops.mulmod_shoup_val (P.params cm).p_lt value factor

include computes

theorem phiWord_eq : phiWord P.T mulmod (P.params cm) P.levels = (P.phi cm).val := by
  have root_val : ((P.params cm).primitive_root : ZMod (P.params cm).p).val =
      (P.params cm).primitive_root := ZMod.val_natCast_of_lt computes.root_lt
  rw [phiWord, PolyType.phi]
  conv_lhs => rw [← root_val]
  exact (forLoop_project ZMod.val (fun _ phi _ => (computes.mulmod_val phi phi).symm) _).symm

theorem phisTable_eq :
    phisTable P.T mulmod (P.params cm) P.levels = ((P.phi cm ^ P.degree).val,
      (List.range P.degree).map fun i => withShoup P.T (P.params cm).p (P.phi cm ^ i).val) := by
  have one_val : (1 : ZMod (P.params cm).p).val = 1 := ZMod.val_one'' (P.params cm).one_lt.ne'
  have table := @powers_eq P.T _ _ computes.mulmod_val 1 (P.phi cm) P.degree []
  simp only [one_val, one_mul, List.nil_append] at table
  rw [phisTable, phiWord_eq computes]
  exact table

theorem phisTable_getD {i : ℕ} (i_lt : i < P.degree) :
    (phisTable P.T mulmod (P.params cm) P.levels).2.getD i (0, 0) =
      withShoup P.T (P.params cm).p (P.phi cm ^ i).val := by
  rw [phisTable_eq computes, List.getD_eq_getElem?_getD, List.getElem?_map,
    List.getElem?_range i_lt]
  rfl

theorem invphiWord_eq : invphiWord P.T mulmod (P.params cm) P.levels = (P.invphi cm).val := by
  have last_lt : 2 ^ P.levels - 1 < P.degree := Nat.sub_lt PolyType.degree_pos Nat.one_pos
  have last : ((phisTable P.T mulmod (P.params cm) P.levels).2.getD (2 ^ P.levels - 1) (0, 0)).1 =
      (P.phi cm ^ (2 ^ P.levels - 1)).val := congrArg Prod.fst (phisTable_getD computes last_lt)
  have after : (phisTable P.T mulmod (P.params cm) P.levels).1 = (P.phi cm ^ P.degree).val :=
    congrArg Prod.fst (phisTable_eq computes)
  rw [invphiWord]
  simp only [last, after, computes.mulmod_val]
  rfl

theorem invpolyDegreeWord_eq :
    invpolyDegreeWord P.T mulmod (P.params cm) P.levels = (P.invpolyDegree cm).val := by
  have inverse_val : ((P.params cm).invkMaxPolyDegree : ZMod (P.params cm).p).val =
      (P.params cm).invkMaxPolyDegree := ZMod.val_natCast_of_lt computes.inverse_lt
  have ratio_val : ((2 ^ (P.params cm).maxLevels / 2 ^ P.levels : ℕ) :
      ZMod (P.params cm).p).val = 2 ^ (P.params cm).maxLevels / 2 ^ P.levels :=
    ZMod.val_natCast_of_lt ((Nat.div_le_self _ _).trans_lt computes.size_lt)
  rw [invpolyDegreeWord]
  conv_lhs => rw [← inverse_val, ← ratio_val]
  exact computes.mulmod_val _ _

theorem filled_initializeTables :
    Filled P cm mulmod (initializeTables P.T mulmod (P.params cm) P.levels) := by
  constructor
  · intro i i_lt
    exact phisTable_getD computes i_lt
  · intro i i_lt
    simp only [initializeTables, invpolyDegreeWord_eq computes, invphiWord_eq computes]
    exact powers_getD computes.mulmod_val _ _ i_lt
  · simp only [initializeTables, phiWord_eq computes, computes.mulmod_val]
    rfl
  · simp only [initializeTables, invphiWord_eq computes, computes.mulmod_val]
    rfl

variable (not_two : P.levels ≠ 1)

include not_two

/-- The words of a transform are its residues. -/
theorem ntt_pow_phi_val (op : P.poly) {cell : ℕ} (cell_lt : cell < P.degree) :
    ntt_pow_phi P.T (P.params cm).p (initializeTables P.T mulmod (P.params cm) P.levels) P.levels
      (fun i => (op cm i).val) cell = (P.ntt_pow_phi op cm cell).val := by
  have filled := filled_initializeTables computes
  rw [ntt_pow_phi, filled.omegas]
  exact ntt_val computes.mulmod_val (P.params cm).p_lt (P.params cm).one_lt not_two
    (fun i i_lt => shoup_val (filled.phis i i_lt) rfl) _ cell_lt

/-- The words of an inverse transform are its residues. -/
theorem invntt_pow_invphi_val (op : P.poly) {i : ℕ} (i_lt : i < P.degree) :
    invntt_pow_invphi P.T (P.params cm).p (initializeTables P.T mulmod (P.params cm) P.levels)
      P.levels (fun i => (op cm i).val) i = (P.invntt_pow_invphi op cm i).val := by
  have filled := filled_initializeTables computes
  rw [invntt_pow_invphi, filled.invomegas]
  exact shoup_val (filled.invpoly_times_invphis i i_lt)
    (inv_ntt_val computes.mulmod_val (P.params cm).p_lt (P.params cm).one_lt not_two
      (fun _ _ => rfl) _ i_lt)

end Polynomials

end core

/-! ## The multiplications of the library -/

section Multiplications

theorem params16_computes : params16.Computes fun x y => ops.mulmod .uint16 x y p16 where
  mulmod_val := by
    have positive : NeZero p16 := ⟨by decide⟩
    exact fun x y => ops.mulmod_val p16_lt x y
  root_lt := by decide
  inverse_lt := by decide
  size_lt := by decide

theorem params32_computes : params32.Computes fun x y => ops.mulmod .uint32 x y p32 where
  mulmod_val := by
    have positive : NeZero p32 := ⟨by decide⟩
    exact fun x y => ops.mulmod_val p32_lt x y
  root_lt := by decide
  inverse_lt := by decide
  size_lt := by decide

theorem params64_computes (cm : Fin 2) :
    (params64 cm).Computes fun x y => ops.mulmod64 (pn64 cm) x y (p64 cm) where
  mulmod_val := by
    have positive : NeZero (p64 cm) := ⟨(Nat.lt_of_succ_lt (one_lt_p64 cm)).ne'⟩
    exact mulmod64_params64 cm
  root_lt := by
    revert cm
    decide
  inverse_lt := by
    revert cm
    decide
  size_lt := by
    revert cm
    decide

end Multiplications

end Xpir.Nfl
