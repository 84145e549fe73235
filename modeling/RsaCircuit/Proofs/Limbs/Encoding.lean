import RsaCircuit.Proofs.Limbs.Value
set_option autoImplicit false

/-!
# Encoding integers as limbs

Encoding shifts an integer down to each position and masks the digit that stands there
(`split_eq_map_range`); decoding shifts the limbs together again, from the most significant one down
(`value_eq_foldr`).  The two undo each other on limbs in range and on integers of at most
`width * count` bits, and encoding refuses every integer that is longer.
-/

namespace RsaCircuit

namespace Limbs

/-- The digit of an integer at a position. -/
theorem shiftRight_and_mask (width i v : Nat) :
    (v >>> (width * i)) &&& (pow2 width - 1) = v / pow2 (width * i) % pow2 width := by
  rw [Nat.shiftRight_eq_div_pow]
  exact Nat.and_two_pow_sub_one_eq_mod _ width

theorem split_eq_map_range (width count v : Nat) :
    split width count v = (List.range count).map fun i =>
      Scalar.ofNat ((v >>> (width * i)) &&& (pow2 width - 1)) := by
  simp only [shiftRight_and_mask]
  induction count generalizing v with
  | zero => rfl
  | succ count ih =>
    have hlowest : v / pow2 (width * 0) = v := by rw [Nat.mul_zero, pow2_zero, Nat.div_one]
    rw [split, ih, List.range_succ_eq_map, List.map_cons, List.map_map, hlowest]
    refine congrArg _ (List.map_congr_left fun i _ => ?_)
    rw [Function.comp_apply, pow2_mul_succ, Nat.div_div_eq_div_mul]

theorem value_eq_foldr (width : Nat) (xs : Limbs) :
    value width xs = xs.foldr (fun x higher => (higher <<< width) + x.val) 0 := by
  induction xs with
  | nil => rfl
  | cons x xs ih =>
    rw [value_cons, List.foldr_cons, ← ih, Nat.shiftLeft_eq, Nat.mul_comm, Nat.add_comm]
    rfl

theorem lt_of_ofNat?_eq_ok {width count v : Nat} {limbs : Limbs}
    (h : ofNat? width count v = .ok limbs) : v < pow2 (width * count) := by
  by_contra hlong
  rw [ofNat?_of_le (Nat.not_lt.1 hlong)] at h
  cases h

/-- An integer has limbs of a given width and number iff it fits into their bits, and the limbs are its
digits.  Limbs in range are the encoding of their value. -/
theorem ofNat?_inverts_value (width : Nat) (hwidth : width ≤ 253) :
    (∀ count v : Nat,
      ((∃ limbs, ofNat? width count v = .ok limbs) ↔ v < pow2 (width * count)) ∧
      (∀ limbs, ofNat? width count v = .ok limbs →
        limbs.length = count ∧ InRange width limbs ∧ value width limbs = v ∧
          limbs = (List.range count).map fun i =>
            Scalar.ofNat ((v >>> (width * i)) &&& (pow2 width - 1))) ∧
      (pow2 (width * count) ≤ v →
        ofNat? width count v = .error (.overflow (bitLength v) width count))) ∧
    (∀ limbs, InRange width limbs →
      ofNat? width limbs.length (value width limbs) = .ok limbs) ∧
    ∀ limbs, value width limbs = limbs.foldr (fun x higher => (higher <<< width) + x.val) 0 := by
  refine ⟨fun count v => ⟨⟨?_, ?_⟩, ?_, ofNat?_of_le⟩, ?_, value_eq_foldr width⟩
  · rintro ⟨limbs, hlimbs⟩
    exact lt_of_ofNat?_eq_ok hlimbs
  · intro hlt
    exact ⟨_, ofNat?_of_lt hlt⟩
  · intro limbs hlimbs
    have hlt := lt_of_ofNat?_eq_ok hlimbs
    rw [ofNat?_of_lt hlt] at hlimbs
    obtain rfl := Except.ok.inj hlimbs
    refine ⟨length_split width count v, inRange_split hwidth count v, ?_,
      split_eq_map_range width count v⟩
    rw [value_split hwidth, Nat.mod_eq_of_lt hlt]
  · intro limbs hrange
    rw [ofNat?_of_lt (value_lt width limbs hrange), split_value hrange]

/-- The largest integer of four limbs of 16 bits has an encoding, and the next one has none. -/
theorem ofNat?_inverts_value_sample :
    (∃ limbs, ofNat? 16 4 (2 ^ 64 - 1) = .ok limbs ∧ value 16 limbs = 2 ^ 64 - 1) ∧
    ofNat? 16 4 (2 ^ 64) = .error (.overflow 65 16 4) ∧
    ofNat? 16 2 (value 16 ([0x89ab, 0].map Scalar.ofNat)) =
      .ok ([0x89ab, 0].map Scalar.ofNat) := by
  obtain ⟨hencode, hdecode, _⟩ := ofNat?_inverts_value 16 (by decide)
  obtain ⟨hfits, hexact, _⟩ := hencode 4 (2 ^ 64 - 1)
  obtain ⟨_, _, hlong⟩ := hencode 4 (2 ^ 64)
  refine ⟨?_, ?_, hdecode _ (by decide)⟩
  · obtain ⟨limbs, hlimbs⟩ := hfits.2 (by decide)
    exact ⟨limbs, hlimbs, (hexact limbs hlimbs).2.2.1⟩
  · exact (hlong (by decide)).trans (by decide +kernel)

end Limbs

end RsaCircuit
