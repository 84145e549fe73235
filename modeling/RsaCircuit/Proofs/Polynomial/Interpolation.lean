import Mathlib.LinearAlgebra.Lagrange
import RsaCircuit.Polynomial.Interpolation
import RsaCircuit.Proofs.Polynomial.Coefficients
set_option autoImplicit false

/-!
# Interpolation is Lagrange interpolation

The vanishing polynomial is the nodal polynomial of the points, synthetic division of it leaves the
nodal polynomial of the other points, and the differences give its weight.  So a scheme computes the
Lagrange interpolant (`ofCoefficients_coefficients`), and by its uniqueness a polynomial of low degree
is found back from its values (`coefficients_eq_of_values`).  Read on lists, interpolation and
evaluation at the points undo each other (`eval_coefficients`, `coefficients_of_eval`).
-/

namespace RsaCircuit

open Polynomial

namespace Interpolation

/-- The points below `size`, as a set of indices. -/
abbrev nodes (size : Nat) : Finset Nat := Finset.range size

/-- The point with the given index. -/
def node (i : Nat) : Scalar := (i : Scalar)

theorem node_injOn {size : Nat} (hsize : size ≤ fieldOrder) : Set.InjOn node (nodes size) := by
  intro i hi j hj h
  have hi' := Finset.mem_range.1 hi
  have hj' := Finset.mem_range.1 hj
  exact Scalar.natCast_inj_of_lt (by omega) (by omega) h

/-! ## The basis -/

theorem ofCoefficients_vanishing (size : Nat) :
    ofCoefficients (vanishing size) = Lagrange.nodal (nodes size) node := by
  induction size with
  | zero =>
    rw [vanishing, ofCoefficients_cons, ofCoefficients_nil, mul_zero, add_zero, C_1]
    rfl
  | succ size ih =>
    rw [vanishing, Coefficients.ofCoefficients_timesRoot, ih, Lagrange.nodal_eq,
      Lagrange.nodal_eq, Finset.prod_range_succ, mul_comm]
    rfl

/-- Dividing the vanishing polynomial by one of its roots leaves no remainder. -/
theorem divRoot_vanishing {size i : Nat} (hi : i < size) :
    (Coefficients.divRoot (Scalar.ofNat i) (vanishing size)).2 = 0 := by
  rw [Coefficients.divRoot_remainder, ofCoefficients_vanishing]
  exact Lagrange.eval_nodal_at_node (Finset.mem_range.2 hi)

theorem ofCoefficients_divRoot_vanishing {size i : Nat} (hi : i < size) :
    ofCoefficients (Coefficients.divRoot (Scalar.ofNat i) (vanishing size)).1 =
      Lagrange.nodal ((nodes size).erase i) node := by
  have hsplit := Coefficients.ofCoefficients_divRoot (Scalar.ofNat i) (vanishing size)
  rw [divRoot_vanishing hi, C_0, add_zero, ofCoefficients_vanishing,
    Lagrange.nodal_eq_mul_nodal_erase (Finset.mem_range.2 hi)] at hsplit
  exact (mul_left_cancel₀ (X_sub_C_ne_zero _) hsplit).symm

theorem difference_eq (size i : Nat) :
    difference size i = ∏ j ∈ (nodes size).erase i, (node i - node j) := by
  have hfilter : ((List.range size).filter (· != i)).toFinset = (nodes size).erase i := by
    ext j
    rw [List.mem_toFinset, List.mem_filter, List.mem_range, Finset.mem_erase, Finset.mem_range,
      bne_iff_ne, and_comm]
  rw [← hfilter, List.prod_toFinset _ ((List.nodup_range).filter _)]
  rfl

theorem ofCoefficients_basisAt {size i : Nat} (hi : i < size) :
    ofCoefficients (basisAt size (vanishing size) i) = Lagrange.basis (nodes size) node i := by
  have hmem : i ∈ nodes size := Finset.mem_range.2 hi
  rw [basisAt, Coefficients.ofCoefficients_smul, ofCoefficients_divRoot_vanishing hi,
    Lagrange.basis_eq_prod_sub_inv_mul_nodal_div hmem, ← Lagrange.nodal_erase_eq_nodal_div hmem,
    difference_eq, Lagrange.nodalWeight, Finset.prod_inv_distrib]

/-! ## Interpolating -/

theorem ofCoefficients_foldr_add (rows : List Coefficients) (size : Nat) :
    ofCoefficients (rows.foldr Coefficients.add (List.replicate size 0)) =
      (rows.map ofCoefficients).sum := by
  induction rows with
  | nil => exact Coefficients.ofCoefficients_replicate_zero size
  | cons row rows ih =>
    rw [List.foldr_cons, Coefficients.ofCoefficients_add, ih, List.map_cons, List.sum_cons]

theorem length_foldr_add {rows : List Coefficients} {size : Nat}
    (h : ∀ row ∈ rows, row.length = size) :
    (rows.foldr Coefficients.add (List.replicate size 0)).length = size := by
  induction rows with
  | nil => exact List.length_replicate
  | cons row rows ih =>
    rw [List.foldr_cons, Coefficients.length_add, h row List.mem_cons_self,
      ih fun r hr => h r (List.mem_cons_of_mem row hr), Nat.max_self]

/-- The rows that are added up, one for each value. -/
theorem zipWith_basis {size : Nat} {values : List Scalar} (hlength : values.length = size) :
    List.zipWith Coefficients.smul values (ofSize size).basis =
      (List.range size).map fun i =>
        Coefficients.smul (values.getD i 0) (basisAt size (vanishing size) i) := by
  apply List.ext_getElem (by simp [ofSize, hlength])
  intro i hi hi'
  have hvalue : i < values.length := by
    rw [List.length_zipWith] at hi
    omega
  rw [List.getElem_zipWith, List.getElem_map, List.getElem_range, List.getD_eq_getElem _ _ hvalue]
  simp only [ofSize, List.getElem_map, List.getElem_range]

theorem length_coefficients {size : Nat} {values : List Scalar} (hlength : values.length = size) :
    ((ofSize size).coefficients values).length = size := by
  rw [coefficients, zipWith_basis hlength, size_ofSize]
  apply length_foldr_add
  intro row hrow
  obtain ⟨i, _, rfl⟩ := List.mem_map.1 hrow
  rw [Coefficients.length_smul, length_basisAt]

/-- The coefficients are those of the Lagrange interpolant. -/
theorem ofCoefficients_coefficients {size : Nat} {values : List Scalar}
    (hlength : values.length = size) :
    ofCoefficients ((ofSize size).coefficients values) =
      Lagrange.interpolate (nodes size) node fun i => values.getD i 0 := by
  have hrow : ∀ i ∈ List.range size,
      (ofCoefficients ∘ fun i => Coefficients.smul (values.getD i 0)
        (basisAt size (vanishing size) i)) i =
        C (values.getD i 0) * Lagrange.basis (nodes size) node i := by
    intro i hi
    rw [Function.comp_apply, Coefficients.ofCoefficients_smul,
      ofCoefficients_basisAt (List.mem_range.1 hi)]
  rw [coefficients, zipWith_basis hlength, size_ofSize, ofCoefficients_foldr_add, List.map_map,
    List.map_congr_left hrow, Lagrange.interpolate_apply, nodes, ← List.toFinset_range,
    List.sum_toFinset _ List.nodup_range]

/-- A polynomial with less than `size` coefficients is found back from its values at the points. -/
theorem coefficients_eq_of_values {size : Nat} (hsize : size ≤ fieldOrder) {f : Scalar[X]}
    (hdegree : f.degree < size) {values : List Scalar}
    (hvalues : values = (points size).map fun x => f.eval x) :
    ofCoefficients ((ofSize size).coefficients values) = f := by
  have hlength : values.length = size := by rw [hvalues, List.length_map, length_points]
  rw [ofCoefficients_coefficients hlength]
  refine (Lagrange.eq_interpolate_of_eval_eq _ (node_injOn hsize) ?_ fun i hi => ?_).symm
  · rw [Finset.card_range]
    exact hdegree
  · have hi' : i < size := Finset.mem_range.1 hi
    rw [List.getD_eq_getElem _ _ (by rw [hlength]; exact hi')]
    simp only [hvalues, points, List.getElem_map, List.getElem_range]
    rfl

/-! ## Interpolation and evaluation -/

theorem coefficients?_of_length {size : Nat} {values : List Scalar} (hlength : values.length = size) :
    (ofSize size).coefficients? values = .ok ((ofSize size).coefficients values) := if_pos hlength

/-- The points below `size` differ, so no difference of them is zero. -/
theorem difference_ne_zero {size i : Nat} (hsize : size ≤ fieldOrder) (hi : i < size) :
    difference size i ≠ 0 := by
  rw [difference_eq, Finset.prod_ne_zero_iff]
  intro j hj h0
  obtain ⟨hne, hmem⟩ := Finset.mem_erase.1 hj
  exact hne (node_injOn hsize (Finset.mem_range.2 hi) hmem (sub_eq_zero.1 h0)).symm

/-- The interpolated polynomial takes the given values. -/
theorem eval_coefficients {size i : Nat} (hsize : size ≤ fieldOrder) {values : List Scalar}
    (hlength : values.length = size) (hi : i < size) :
    ((ofSize size).coefficients values).eval (Scalar.ofNat i) = values.getD i 0 := by
  rw [← Coefficients.ofCoefficients_eval, ofCoefficients_coefficients hlength]
  exact Lagrange.eval_interpolate_at_node _ (node_injOn hsize) (Finset.mem_range.2 hi)

/-- A list of at most `size` coefficients is found back from its values, with zeros up to that
size. -/
theorem coefficients_of_eval {size : Nat} (hsize : size ≤ fieldOrder) {p : Coefficients}
    (hp : p.length ≤ size) :
    (ofSize size).coefficients ((points size).map p.eval) =
      p ++ List.replicate (size - p.length) 0 := by
  have hlength : ((points size).map p.eval).length = size := by simp
  apply eq_of_ofCoefficients_eq
  · rw [length_coefficients hlength, List.length_append, List.length_replicate,
      Nat.add_sub_cancel' hp]
  · rw [Coefficients.ofCoefficients_append_zeros]
    apply coefficients_eq_of_values hsize
    · exact (degree_ofCoefficients_lt p).trans_le (Nat.cast_le.2 hp)
    · exact List.map_congr_left fun x _ => (Coefficients.ofCoefficients_eval p x).symm

/-- A scheme keeps nothing of the values it has interpolated: over many lists it gives what a fresh
scheme gives for each of them. -/
theorem mapM_coefficients? {size : Nat} {rows : List (List Scalar)}
    (hrows : ∀ values ∈ rows, values.length = size) :
    rows.mapM (ofSize size).coefficients? =
      .ok (rows.map fun values => (ofSize values.length).coefficients values) := by
  induction rows with
  | nil => rfl
  | cons values rows ih =>
    have hlength := hrows values List.mem_cons_self
    rw [List.mapM_cons, ih fun v hv => hrows v (List.mem_cons_of_mem values hv),
      coefficients?_of_length hlength, List.map_cons, hlength]
    rfl

/-- For as many points as the field tells apart, interpolation has an answer for every list of values
and evaluation takes it back, and the coefficients of a polynomial come back from its values, filled up
with zeros.  On the way no synthetic division leaves a remainder and no difference that is inverted is
zero; a scheme can be used again. -/
theorem inverts_evaluation (size : Nat) (hsize : size ≤ fieldOrder) :
    let scheme := ofSize size
    (∀ values : List Scalar, values.length = size →
      ∃ p, scheme.coefficients? values = .ok p ∧ p.length = size ∧
        ∀ i, i < size → Coefficients.eval p (Scalar.ofNat i) = values.getD i 0) ∧
    (∀ p : Coefficients, p.length ≤ size →
      scheme.coefficients? ((points size).map p.eval) =
        .ok (p ++ List.replicate (size - p.length) 0)) ∧
    (∀ i, i < size → (Coefficients.divRoot (Scalar.ofNat i) (vanishing size)).2 = 0 ∧
      difference size i ≠ 0) ∧
    ∀ rows : List (List Scalar), (∀ values ∈ rows, values.length = size) →
      rows.mapM scheme.coefficients? =
        .ok (rows.map fun values => (ofSize values.length).coefficients values) := by
  intro scheme
  refine ⟨?_, ?_, ?_, ?_⟩
  · intro values hlength
    exact ⟨_, coefficients?_of_length hlength, length_coefficients hlength,
      fun i hi => eval_coefficients hsize hlength hi⟩
  · intro p hp
    have hlength : ((points size).map p.eval).length = size := by simp
    rw [coefficients?_of_length hlength, coefficients_of_eval hsize hp]
  · intro i hi
    exact ⟨divRoot_vanishing hi, difference_ne_zero hsize hi⟩
  · intro rows hrows
    exact mapM_coefficients? hrows

theorem inverts_evaluation_sample :
    (∃ p, (ofSize 3).coefficients? [1, -1, 1] = .ok p ∧ Coefficients.eval p (Scalar.ofNat 1) = -1) ∧
    (ofSize 6).coefficients? ((points 6).map (Coefficients.eval [7, -2, 0, 11])) =
      .ok [7, -2, 0, 11, 0, 0] ∧
    difference 6 5 ≠ 0 ∧
    [[1, -1, 1], [0, 0, 5]].mapM (ofSize 3).coefficients? =
      .ok [(ofSize 3).coefficients [1, -1, 1], (ofSize 3).coefficients [0, 0, 5]] := by
  obtain ⟨hvalues, _, _, hrows⟩ := inverts_evaluation 3 (by decide)
  obtain ⟨_, hcoefficients, hexact, _⟩ := inverts_evaluation 6 (by decide)
  obtain ⟨p, hp, _, heval⟩ := hvalues [1, -1, 1] rfl
  refine ⟨⟨p, hp, heval 1 (by decide)⟩, ?_, (hexact 5 (by decide)).2, ?_⟩
  · exact hcoefficients [7, -2, 0, 11] (by decide)
  · exact hrows [[1, -1, 1], [0, 0, 5]] (by decide)

end Interpolation

end RsaCircuit
