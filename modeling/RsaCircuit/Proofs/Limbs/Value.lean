import Mathlib.Data.List.GetD
import RsaCircuit.Limbs.Basic
import RsaCircuit.Proofs.Scalar.Signed
set_option autoImplicit false

/-!
# The value of limbs

Limbs in range are the digits of their value.  Cutting off the lowest limbs is a quotient, keeping
them a remainder (`value_drop`, `value_take`), and the value determines limbs of a given number
(`eq_of_value_eq`).
-/

namespace RsaCircuit

theorem pow2_mul_succ (width count : Nat) :
    pow2 (width * (count + 1)) = pow2 width * pow2 (width * count) := by
  rw [Nat.mul_add, Nat.mul_one, pow2_add, Nat.mul_comm]

theorem one_le_pow2 (n : Nat) : 1 ≤ pow2 n := pow2_pos n

namespace Limbs

variable {width : Nat}

/-! ## Digits in range -/

theorem inRange_append (xs ys : Limbs) :
    InRange width (xs ++ ys) ↔ InRange width xs ∧ InRange width ys := List.forall_mem_append

theorem InRange.of_subset {xs ys : Limbs} (h : InRange width ys) (hsub : xs ⊆ ys) :
    InRange width xs := fun x hx => h x (hsub hx)

theorem InRange.take {xs : Limbs} (h : InRange width xs) (count : Nat) :
    InRange width (xs.take count) := h.of_subset (List.take_subset count xs)

theorem InRange.drop {xs : Limbs} (h : InRange width xs) (count : Nat) :
    InRange width (xs.drop count) := h.of_subset (List.drop_subset count xs)

theorem InRange.tail {xs : Limbs} (h : InRange width xs) : InRange width xs.tail :=
  h.of_subset (List.tail_subset xs)

theorem InRange.getD {xs : Limbs} (h : InRange width xs) (i : Nat) :
    (xs.getD i 0).val < pow2 width := by
  rcases Nat.lt_or_ge i xs.length with hi | hi
  · rw [List.getD_eq_getElem _ _ hi]
    exact h _ (List.getElem_mem hi)
  · rw [List.getD_eq_default _ _ hi]
    exact pow2_pos width

theorem InRange.headD {xs : Limbs} (h : InRange width xs) : (xs.headD 0).val < pow2 width := by
  cases xs with
  | nil => exact pow2_pos width
  | cons x xs => exact h x List.mem_cons_self

theorem inRange_replicate_zero (count : Nat) : InRange width (List.replicate count 0) := by
  intro x hx
  rw [List.eq_of_mem_replicate hx]
  exact pow2_pos width

theorem resize_take (length : Nat) (xs : Limbs) : resize length (xs.take length) = resize length xs := by
  induction length generalizing xs with
  | zero => rfl
  | succ length ih =>
    cases xs with
    | nil => rfl
    | cons x xs =>
      rw [List.take_succ_cons, resize, resize, List.tail_cons, List.tail_cons, ih, List.headD_cons,
        List.headD_cons]

/-- A list is cut or goes on with zeros. -/
theorem resize_eq (length : Nat) (xs : Limbs) :
    resize length xs = xs.take length ++ List.replicate (length - xs.length) 0 := by
  induction length generalizing xs with
  | zero => rw [resize, List.take_zero, Nat.zero_sub, List.replicate_zero, List.nil_append]
  | succ length ih =>
    cases xs with
    | nil => rw [resize, ih, List.tail_nil, List.take_nil, List.take_nil]; rfl
    | cons x xs =>
      rw [resize, ih, List.tail_cons, List.headD_cons, List.take_succ_cons, List.length_cons,
        Nat.succ_sub_succ, List.cons_append]

theorem inRange_resize {xs : Limbs} (h : InRange width xs) (length : Nat) :
    InRange width (resize length xs) := by
  induction length generalizing xs with
  | zero => exact inRange_nil width
  | succ length ih => exact (inRange_cons width _ _).2 ⟨h.headD, ih h.tail⟩

/-! ## Parts of limbs -/

theorem value_cons_mod {x : Scalar} (hx : x.val < pow2 width) (xs : Limbs) :
    value width (x :: xs) % pow2 width = x.val := by
  rw [value_cons, Nat.add_mul_mod_self_left, Nat.mod_eq_of_lt hx]

theorem value_cons_div {x : Scalar} (hx : x.val < pow2 width) (xs : Limbs) :
    value width (x :: xs) / pow2 width = value width xs := by
  rw [value_cons, Nat.add_mul_div_left _ _ (pow2_pos width), Nat.div_eq_of_lt hx, Nat.zero_add]

theorem value_headD_tail (xs : Limbs) :
    (xs.headD 0).val + pow2 width * value width xs.tail = value width xs := by
  cases xs with
  | nil => rfl
  | cons x xs => rfl

theorem value_replicate_zero (count : Nat) : value width (List.replicate count 0) = 0 := by
  induction count with
  | zero => rfl
  | succ count ih => rw [List.replicate_succ, value_cons, ih, Scalar.val_zero, Nat.mul_zero]

theorem value_take_add_drop (xs : Limbs) {count : Nat} (h : count ≤ xs.length) :
    value width (xs.take count) + pow2 (width * count) * value width (xs.drop count) =
      value width xs := by
  have hsplit := value_append width (xs.take count) (xs.drop count)
  rw [List.take_append_drop, List.length_take, Nat.min_eq_left h] at hsplit
  exact hsplit.symm

theorem value_take {xs : Limbs} (h : InRange width xs) (count : Nat) :
    value width (xs.take count) = value width xs % pow2 (width * count) := by
  have hlt := value_lt width _ (h.take count)
  rcases Nat.le_total count xs.length with hle | hle
  · rw [List.length_take, Nat.min_eq_left hle] at hlt
    rw [← value_take_add_drop xs hle, Nat.add_mul_mod_self_left, Nat.mod_eq_of_lt hlt]
  · rw [List.take_of_length_le hle, Nat.mod_eq_of_lt]
    exact (value_lt width xs h).trans_le (pow2_le_pow2 (Nat.mul_le_mul_left width hle))

theorem value_drop {xs : Limbs} (h : InRange width xs) (count : Nat) :
    value width (xs.drop count) = value width xs / pow2 (width * count) := by
  have hlt := value_lt width _ (h.take count)
  rcases Nat.le_total count xs.length with hle | hle
  · rw [List.length_take, Nat.min_eq_left hle] at hlt
    rw [← value_take_add_drop xs hle, Nat.add_mul_div_left _ _ (pow2_pos _), Nat.div_eq_of_lt hlt,
      Nat.zero_add]
  · rw [List.drop_of_length_le hle, value_nil, Nat.div_eq_of_lt]
    exact (value_lt width xs h).trans_le (pow2_le_pow2 (Nat.mul_le_mul_left width hle))

theorem value_resize {xs : Limbs} (h : InRange width xs) (length : Nat) :
    value width (resize length xs) = value width xs % pow2 (width * length) := by
  induction length generalizing xs with
  | zero => rw [resize, value_nil, Nat.mul_zero, pow2_zero, Nat.mod_one]
  | succ length ih =>
    rw [resize, value_cons, ih h.tail, pow2_mul_succ, Nat.mod_mul, ← value_headD_tail xs,
      Nat.add_mul_mod_self_left, Nat.mod_eq_of_lt h.headD, Nat.add_mul_div_left _ _ (pow2_pos width),
      Nat.div_eq_of_lt h.headD, Nat.zero_add]

/-- Nothing above the lowest limbs is lost if the value fits into them. -/
theorem value_take_of_lt {xs : Limbs} (h : InRange width xs) {count : Nat}
    (hlt : value width xs < pow2 (width * count)) :
    value width (xs.take count) = value width xs := by
  rw [value_take h, Nat.mod_eq_of_lt hlt]

theorem eq_zero_of_value_eq_zero {xs : Limbs} (h : value width xs = 0) : ∀ x ∈ xs, x = 0 := by
  induction xs with
  | nil => simp
  | cons x xs ih =>
    rw [value_cons] at h
    have hx : x.val = 0 := by omega
    have hxs : value width xs = 0 := by
      rcases Nat.mul_eq_zero.1 (by omega : pow2 width * value width xs = 0) with h0 | h0
      · exact absurd h0 (Nat.ne_of_gt (pow2_pos width))
      · exact h0
    intro y hy
    rcases List.mem_cons.1 hy with rfl | hy
    · exact Scalar.ext_val hx
    · exact ih hxs y hy

/-- A limb is at most what is left of the value above the limbs below it. -/
theorem getD_le_value_div {xs : Limbs} (h : InRange width xs) (i : Nat) :
    (xs.getD i 0).val ≤ value width xs / pow2 (width * i) := by
  rw [← value_drop h, List.getD_eq_getElem?_getD, ← List.head?_drop]
  cases xs.drop i with
  | nil => exact Nat.zero_le _
  | cons x xs => exact Nat.le_add_right _ _

theorem getD_eq_zero_of_value_lt {xs : Limbs} (h : InRange width xs) {i : Nat}
    (hlt : value width xs < pow2 (width * i)) : xs.getD i 0 = 0 := by
  have hle := getD_le_value_div h i
  rw [Nat.div_eq_of_lt hlt] at hle
  exact Scalar.ext_val (Nat.le_zero.1 hle)

/-! ## Encoding -/

theorem inRange_split (hwidth : width ≤ 253) (count v : Nat) :
    InRange width (split width count v) := by
  induction count generalizing v with
  | zero => exact inRange_nil width
  | succ count ih =>
    refine (inRange_cons width _ _).2 ⟨?_, ih _⟩
    have hdigit := Nat.mod_lt v (pow2_pos width)
    rw [Scalar.val_ofNat, Nat.mod_eq_of_lt (hdigit.trans (pow2_lt_fieldOrder hwidth))]
    exact hdigit

theorem value_split (hwidth : width ≤ 253) (count v : Nat) :
    value width (split width count v) = v % pow2 (width * count) := by
  induction count generalizing v with
  | zero => rw [split, value_nil, Nat.mul_zero, pow2_zero, Nat.mod_one]
  | succ count ih =>
    have hdigit := (Nat.mod_lt v (pow2_pos width)).trans (pow2_lt_fieldOrder hwidth)
    rw [split, value_cons, ih, pow2_mul_succ, Nat.mod_mul, Scalar.val_ofNat, Nat.mod_eq_of_lt hdigit]

theorem split_value {xs : Limbs} (h : InRange width xs) :
    split width xs.length (value width xs) = xs := by
  induction xs with
  | nil => rfl
  | cons x xs ih =>
    obtain ⟨hx, hxs⟩ := (inRange_cons width x xs).1 h
    rw [List.length_cons, split, value_cons_mod hx, value_cons_div hx, ih hxs, Scalar.ofNat_val]

/-- The value determines limbs of a given number. -/
theorem eq_of_value_eq {xs ys : Limbs} (hx : InRange width xs) (hy : InRange width ys)
    (hlength : xs.length = ys.length) (hvalue : value width xs = value width ys) : xs = ys := by
  rw [← split_value hx, ← split_value hy, hlength, hvalue]

theorem ofNat?_of_lt {count v : Nat} (h : v < pow2 (width * count)) :
    ofNat? width count v = .ok (split width count v) := if_pos ((bitLength_le_iff _ _).2 h)

theorem ofNat?_of_le {count v : Nat} (h : pow2 (width * count) ≤ v) :
    ofNat? width count v = .error (.overflow (bitLength v) width count) :=
  if_neg fun hle => absurd ((bitLength_le_iff _ _).1 hle) (Nat.not_lt.2 h)

/-! ## Leading zeros -/

theorem exists_trim_append (xs : Limbs) :
    ∃ count, xs = trim xs ++ List.replicate count 0 := by
  induction xs with
  | nil => exact ⟨0, rfl⟩
  | cons x xs ih =>
    obtain ⟨count, hxs⟩ := ih
    rw [trim]
    split
    · next htrim =>
      rw [htrim, List.nil_append] at hxs
      split
      · next hx => exact ⟨count + 1, by rw [hx, List.replicate_succ, ← hxs, List.nil_append]⟩
      · exact ⟨count, by rw [List.singleton_append, ← hxs]⟩
    · exact ⟨count, by rw [List.cons_append, ← hxs]⟩

theorem take_length_trim (xs : Limbs) : xs.take (trim xs).length = trim xs := by
  obtain ⟨count, hxs⟩ := exists_trim_append xs
  exact (congrArg (List.take _) hxs).trans List.take_left

theorem length_trim_le (xs : Limbs) : (trim xs).length ≤ xs.length := by
  obtain ⟨count, hxs⟩ := exists_trim_append xs
  have hlength := congrArg List.length hxs
  rw [List.length_append] at hlength
  omega

theorem inRange_trim {xs : Limbs} (h : InRange width xs) : InRange width (trim xs) := by
  obtain ⟨count, hxs⟩ := exists_trim_append xs
  rw [hxs] at h
  exact ((inRange_append _ _).1 h).1

theorem getLastD_trim_ne_zero {xs : Limbs} (h : trim xs ≠ []) : (trim xs).getLastD 0 ≠ 0 := by
  induction xs with
  | nil => exact absurd rfl h
  | cons x xs ih =>
    cases htrim : trim xs with
    | nil =>
      simp only [trim, htrim] at h ⊢
      by_cases hx : x = 0
      · exact absurd (if_pos hx) h
      · rw [if_neg hx]
        exact hx
    | cons y ys =>
      simp only [trim, htrim] at ih ⊢
      exact ih (List.cons_ne_nil y ys)

theorem trim_eq_nil_iff {xs : Limbs} : trim xs = [] ↔ value width xs = 0 := by
  constructor
  · intro h
    rw [← value_trim, h, value_nil]
  · intro h
    by_contra hne
    have hvalue : value width (trim xs) = 0 := by rw [value_trim, h]
    have hzero := eq_zero_of_value_eq_zero hvalue
    refine getLastD_trim_ne_zero hne (hzero _ ?_)
    rw [List.getLastD_eq_getLast?, List.getLast?_eq_some_getLast hne]
    exact List.getLast_mem hne

theorem value_eq_zero_iff {xs : Limbs} : value width xs = 0 ↔ ∀ x ∈ xs, x = 0 := by
  constructor
  · exact eq_zero_of_value_eq_zero
  · intro h
    have hxs : xs = List.replicate xs.length 0 := List.eq_replicate_of_mem h
    rw [hxs, value_replicate_zero]

end Limbs

end RsaCircuit
