import RsaCircuit.Proofs.Limbs.Digit
set_option autoImplicit false

/-!
# Schoolbook division

The digit loop keeps the remainder below the divisor times the base to the number of digits that are
still to come.  With that, each window is what stands above the position of its digit, each digit is
a quotient by `digit?_eq`, and taking it out of the remainder restores the bound one position lower.
-/

namespace RsaCircuit

namespace Limbs

variable {width : Nat}

/-! ## One step -/

section Step

variable {divisor remainder : Limbs} {position : Nat}

theorem value_window (hd : InRange width divisor) (hr : InRange width remainder)
    (hlt : value width remainder < value width divisor * pow2 (width * (position + 1))) :
    value width (window divisor position remainder) =
        value width remainder / pow2 (width * position) ∧
      value width remainder / pow2 (width * position) < value width divisor * pow2 width := by
  have hquotient : value width remainder / pow2 (width * position) <
      value width divisor * pow2 width := by
    refine Nat.div_lt_of_lt_mul ?_
    rw [pow2_mul_succ] at hlt
    calc _ < value width divisor * (pow2 width * pow2 (width * position)) := hlt
      _ = pow2 (width * position) * (value width divisor * pow2 width) := by ring
  refine ⟨?_, hquotient⟩
  rw [window, value_resize (hr.drop position), value_drop hr, Nat.mod_eq_of_lt]
  calc _ < value width divisor * pow2 width := hquotient
    _ ≤ pow2 (width * divisor.length) * pow2 width :=
      Nat.mul_le_mul_right _ (Nat.le_of_lt (value_lt width divisor hd))
    _ = pow2 (width * (divisor.length + 1)) := by rw [pow2_mul_succ, Nat.mul_comm]

theorem inRange_window (hr : InRange width remainder) :
    InRange width (window divisor position remainder) := inRange_resize (hr.drop position) _

theorem length_window : (window divisor position remainder).length = divisor.length + 1 :=
  length_resize _ _

theorem length_reduce {width : Nat} {digit : Scalar} :
    (reduce width divisor position digit remainder).length = remainder.length :=
  length_sub width remainder _

/-- Taking the digit out of the remainder. -/
theorem value_reduce (hwidth : width ≤ 126) (hd : InRange width divisor)
    (hr : InRange width remainder) {digit : Scalar} (hdigit : digit.val < pow2 width)
    (hle : pow2 (width * position) * (digit.val * value width divisor) ≤ value width remainder) :
    InRange width (reduce width divisor position digit remainder) ∧
      value width (reduce width divisor position digit remainder) =
        value width remainder - pow2 (width * position) * (digit.val * value width divisor) := by
  have hfit : digit.val * pow2 width ≤ fieldOrder :=
    (Nat.mul_le_mul_right _ (Nat.le_of_lt hdigit)).trans
      (Nat.le_of_lt (pow2_two_mul_lt_fieldOrder hwidth))
  have hscaled := inRange_scale (by omega) hfit hd (Nat.le_of_lt hdigit)
  have htaken : InRange width (List.replicate position 0 ++ scale width digit divisor) :=
    (inRange_append _ _).2 ⟨inRange_replicate_zero position, hscaled⟩
  have hvalue : value width (List.replicate position 0 ++ scale width digit divisor) =
      pow2 (width * position) * (digit.val * value width divisor) := by
    rw [value_append, value_replicate_zero, List.length_replicate, Nat.zero_add,
      value_scale (by omega) hfit hd]
  refine ⟨inRange_sub (by omega) hr htaken, ?_⟩
  rw [reduce, value_sub (by omega) hr htaken (by rw [hvalue]; exact hle), hvalue]

end Step

/-! ## All digits -/

/-- The quotient above a position, taken out `unit` times, leaves less than a divisor there. -/
theorem remainder_step (r d unit : Nat) (hd : 0 < d) (hunit : 0 < unit) :
    unit * (r / unit / d * d) ≤ r ∧ r - unit * (r / unit / d * d) < d * unit ∧
      r / d = (r - unit * (r / unit / d * d)) / d + unit * (r / unit / d) ∧
      r % d = (r - unit * (r / unit / d * d)) % d := by
  have hhigh := Nat.div_add_mod r unit
  have hdigit := Nat.div_add_mod' (r / unit) d
  have hlow := Nat.mod_lt r hunit
  have hrest := Nat.mod_lt (r / unit) hd
  generalize r / unit / d = digit at *
  generalize r / unit % d = rest at *
  have hexpand : unit * (r / unit) = unit * (digit * d) + unit * rest := by
    rw [← hdigit, Nat.mul_add]
  have hle : unit * (digit * d) ≤ r := by omega
  have hunits : unit * (rest + 1) ≤ unit * d := Nat.mul_le_mul_left unit hrest
  rw [Nat.mul_add, Nat.mul_one] at hunits
  have hsplit : r = r - unit * (digit * d) + unit * digit * d := by
    rw [Nat.mul_assoc]
    omega
  refine ⟨hle, ?_, ?_, ?_⟩
  · rw [Nat.mul_comm d unit]
    omega
  · rw [← Nat.add_mul_div_right _ _ hd, ← hsplit]
  · rw [← Nat.add_mul_mod_self_right (r - unit * (digit * d)) (unit * digit) d, ← hsplit]

/-- What a division by `d` has to give: digits in range, a given number of each, and the quotient and
the remainder of `r`. -/
structure Division.Exact (width quotientLength remainderLength r d : Nat) (result : Division) :
    Prop where
  inRange_quotient : InRange width result.quotient
  length_quotient : result.quotient.length = quotientLength
  value_quotient : value width result.quotient = r / d
  inRange_remainder : InRange width result.remainder
  length_remainder : result.remainder.length = remainderLength
  value_remainder : value width result.remainder = r % d

theorem divideBelow_eq (hpos : 0 < width) (hwidth : width ≤ 126) {divisor : Limbs}
    (hd : InRange width divisor) (hlast : 0 < (divisor.getLastD 0).val) (count : Nat)
    {remainder : Limbs} (hr : InRange width remainder)
    (hlt : value width remainder < value width divisor * pow2 (width * count)) :
    ∃ result, divideBelow width divisor count remainder = .ok result ∧
      result.Exact width count remainder.length (value width remainder) (value width divisor) := by
  have hdpos := value_pos_of_getLastD hd hlast
  induction count generalizing remainder with
  | zero =>
    rw [Nat.mul_zero, pow2_zero, Nat.mul_one] at hlt
    exact ⟨⟨[], remainder⟩, rfl, inRange_nil width, rfl, (Nat.div_eq_of_lt hlt).symm, hr, rfl,
      (Nat.mod_eq_of_lt hlt).symm⟩
  | succ position ih =>
    obtain ⟨hwindow, hwindowlt⟩ := value_window hd hr hlt
    have hinRange : InRange width (window divisor position remainder) := inRange_window hr
    obtain ⟨digit, hdigit, hdigitval⟩ := digit?_eq hpos hwidth hinRange hd length_window hlast
      (by rw [hwindow]; exact hwindowlt)
    rw [hwindow] at hdigitval
    have hdigitlt : digit.val < pow2 width := by
      rw [hdigitval, Nat.div_lt_iff_lt_mul hdpos, Nat.mul_comm (pow2 width)]
      exact hwindowlt
    obtain ⟨hle, hlow, hquot, hrem⟩ := remainder_step (value width remainder)
      (value width divisor) (pow2 (width * position)) hdpos (pow2_pos _)
    rw [← hdigitval] at hle hlow hquot hrem
    obtain ⟨hrange, hvalue⟩ := value_reduce hwidth hd hr hdigitlt hle
    rw [← hvalue] at hlow hquot hrem
    obtain ⟨low, hlowok, hexact⟩ := ih hrange hlow
    refine ⟨⟨low.quotient ++ [digit], low.remainder⟩, ?_, ?_⟩
    · rw [divideBelow, hdigit]
      change (divideBelow width divisor position _).bind _ = _
      rw [hlowok]
      rfl
    · constructor
      · refine (inRange_append _ _).2 ⟨hexact.inRange_quotient, ?_⟩
        intro x hx
        rw [List.mem_singleton.1 hx]
        exact hdigitlt
      · rw [List.length_append, List.length_singleton, hexact.length_quotient]
      · rw [value_append, hexact.value_quotient, hexact.length_quotient, value_cons, value_nil,
          Nat.mul_zero, Nat.add_zero, hquot]
      · exact hexact.inRange_remainder
      · rw [hexact.length_remainder, length_reduce]
      · rw [hexact.value_remainder, hrem]

/-- A loop over so many positions leaves so many digits, whatever the limbs are. -/
theorem length_quotient_of_divideBelow {divisor : Limbs} {count : Nat} {remainder : Limbs}
    {result : Division} (h : divideBelow width divisor count remainder = .ok result) :
    result.quotient.length = count := by
  induction count generalizing remainder result with
  | zero =>
    obtain rfl := Except.ok.inj h
    rfl
  | succ position ih =>
    rw [divideBelow] at h
    obtain ⟨digit, _, h⟩ := bind_eq_ok.1 h
    obtain ⟨low, hlow, h⟩ := bind_eq_ok.1 h
    obtain rfl := Except.ok.inj h
    rw [List.length_append, List.length_singleton, ih hlow]

/-- A divisor that is not zero has a leading limb. -/
theorem trim_leading_pos {b : Limbs} (hb0 : value width b ≠ 0) :
    trim b ≠ [] ∧ 0 < ((trim b).getLastD 0).val := by
  have hne : trim b ≠ [] := fun h => hb0 (trim_eq_nil_iff.1 h)
  exact ⟨hne, Nat.pos_of_ne_zero fun h0 => getLastD_trim_ne_zero hne (Scalar.ext_val h0)⟩

/-- The divisor, moved up by a position for each digit, stands above the dividend. -/
theorem resize_lt_trim {a b : Limbs} (ha : InRange width a) (hb : InRange width b)
    (hb0 : value width b ≠ 0) (extra : Nat) :
    value width (resize (b.length + extra) a) <
      value width (trim b) * pow2 (width * (b.length + extra - (trim b).length + 1)) := by
  obtain ⟨hne, hlast⟩ := trim_leading_pos hb0
  have hlength := length_trim_le b
  have hpos : 0 < (trim b).length := List.length_pos_iff.2 hne
  have hleading : pow2 (width * ((trim b).length - 1)) ≤ value width (trim b) := by
    rw [← Nat.one_mul (pow2 (width * ((trim b).length - 1))),
      ← Nat.le_div_iff_mul_le (pow2_pos _), value_div_eq_getLastD (inRange_trim hb)]
    exact hlast
  rw [value_resize ha]
  calc value width a % pow2 (width * (b.length + extra))
      < pow2 (width * (b.length + extra)) := Nat.mod_lt _ (pow2_pos _)
    _ = pow2 (width * ((trim b).length - 1)) *
        pow2 (width * (b.length + extra - (trim b).length + 1)) := by
      rw [← pow2_add, ← Nat.mul_add]
      congr 2
      omega
    _ ≤ _ := Nat.mul_le_mul_right _ hleading

/-- Division by a divisor that is not zero is exact on the lowest limbs of the dividend. -/
theorem divide?_eq (hpos : 0 < width) (hwidth : width ≤ 126) {a b : Limbs} (ha : InRange width a)
    (hb : InRange width b) (hb0 : value width b ≠ 0) (extra : Nat) :
    ∃ result, divide? width extra a b = .ok result ∧
      result.Exact width (extra + 1 + leadingZeros b) b.length
        (value width a % pow2 (width * (b.length + extra))) (value width b) := by
  obtain ⟨hne, hlast⟩ := trim_leading_pos hb0
  have htrim := inRange_trim hb
  have hlength := length_trim_le b
  have hdividend := inRange_resize ha (b.length + extra)
  have hvalue := value_resize ha (b.length + extra)
  have hlt := resize_lt_trim ha hb hb0 extra
  obtain ⟨result, hresult, hexact⟩ := divideBelow_eq hpos hwidth htrim hlast _ hdividend hlt
  rw [hvalue, value_trim, length_resize] at hexact
  refine ⟨⟨result.quotient, result.remainder.take b.length⟩, ?_, ?_⟩
  · rw [divide?]
    dsimp only
    rw [if_neg hne, hresult]
    rfl
  · constructor
    · exact hexact.inRange_quotient
    · rw [hexact.length_quotient, leadingZeros]
      omega
    · exact hexact.value_quotient
    · exact hexact.inRange_remainder.take _
    · rw [List.length_take, hexact.length_remainder]
      omega
    · refine (value_take_of_lt hexact.inRange_remainder ?_).trans hexact.value_remainder
      rw [hexact.value_remainder]
      exact (Nat.mod_lt _ (Nat.pos_of_ne_zero hb0)).trans (value_lt width b hb)

/-- The quotient always has a limb more than the dividend has above the divisor's length. -/
theorem lt_length_quotient {extra : Nat} {a b : Limbs} {result : Division}
    (h : divide? width extra a b = .ok result) : extra < result.quotient.length := by
  have hlength := length_trim_le b
  unfold divide? at h
  dsimp only at h
  split at h
  · cases h
  · obtain ⟨below, hbelow, h⟩ := bind_eq_ok.1 h
    obtain rfl := Except.ok.inj h
    rw [length_quotient_of_divideBelow hbelow]
    omega

theorem divide?_of_value_eq_zero {a b : Limbs} (hb : value width b = 0) (extra : Nat) :
    divide? width extra a b = .error (.error .divisionByZero) := if_pos (trim_eq_nil_iff.2 hb)

/-- Division does not read the limbs of the dividend above its lowest `b.length + extra`. -/
theorem divide?_take (width extra : Nat) (a b : Limbs) :
    divide? width extra (a.take (b.length + extra)) b = divide? width extra a b := by
  rw [divide?, divide?]
  dsimp only
  rw [resize_take]

/-! ## Euclidean division -/

/-- What division drops from a divisor are the zeros at its most significant end. -/
theorem leadingZeros_eq (b : Limbs) : leadingZeros b = (b.reverse.takeWhile (· = 0)).length := by
  obtain ⟨count, hb⟩ := exists_trim_append b
  have hdropped : leadingZeros b = count := by
    have hlength := congrArg List.length hb
    rw [List.length_append, List.length_replicate] at hlength
    rw [leadingZeros, hlength, Nat.add_sub_cancel_left]
  have hstop : (trim b).reverse.takeWhile (· = 0) = [] := by
    rcases List.eq_nil_or_concat (trim b) with htrim | ⟨low, leading, htrim⟩
    · rw [htrim]
      rfl
    · rw [List.concat_eq_append] at htrim
      have hleading : leading ≠ 0 := by
        have hlast := getLastD_trim_ne_zero (htrim ▸ List.concat_ne_nil leading low)
        rwa [htrim, List.getLastD_concat] at hlast
      rw [htrim, List.reverse_concat, List.takeWhile_cons_of_neg (by simpa using hleading)]
  have hzeros : ∀ x ∈ List.replicate count (0 : Scalar), decide (x = 0) = true := by
    intro x hx
    exact decide_eq_true (List.eq_of_mem_replicate hx)
  rw [hdropped, hb, List.reverse_append, List.reverse_replicate,
    List.takeWhile_append_of_pos hzeros, hstop, List.append_nil, List.length_replicate]

/-- On digits that a field element can hold two of, division is Euclidean division of the lowest
limbs of the dividend: it has an answer for every divisor that is not zero.  A divisor without a
nonzero limb is refused whatever the dividend is. -/
theorem divide?_euclidean (width extra : Nat) (a b : Limbs) :
    (0 < width → pow2 (2 * width) ≤ fieldOrder → InRange width a → InRange width b →
      (∃ x ∈ b, x ≠ 0) →
      ∃ result, divide? width extra a b = .ok result ∧
        result.quotient.length = extra + 1 + (b.reverse.takeWhile (· = 0)).length ∧
        result.remainder.length = b.length ∧
        InRange width result.quotient ∧ InRange width result.remainder ∧
        value width result.quotient =
          value width (a.take (b.length + extra)) / value width b ∧
        value width result.remainder =
          value width (a.take (b.length + extra)) % value width b) ∧
    ((∀ x ∈ b, x = 0) → divide? width extra a b = .error (.error .divisionByZero)) := by
  refine ⟨fun hpos hfit ha hb hnonzero => ?_, fun hzero => ?_⟩
  · have hwidth := width_le_of_fits hfit
    have hdivisor : value width b ≠ 0 := by
      obtain ⟨x, hx, hne⟩ := hnonzero
      exact fun hzero => hne (value_eq_zero_iff.1 hzero x hx)
    obtain ⟨result, hresult, hexact⟩ := divide?_eq hpos hwidth ha hb hdivisor extra
    rw [← value_take ha, leadingZeros_eq] at hexact
    exact ⟨result, hresult, hexact.length_quotient, hexact.length_remainder,
      hexact.inRange_quotient, hexact.inRange_remainder, hexact.value_quotient,
      hexact.value_remainder⟩
  · have hdivisor : value width b = 0 := value_eq_zero_iff.2 hzero
    exact divide?_of_value_eq_zero hdivisor extra

theorem divide?_euclidean_sample :
    (∃ result, divide? 8 1 ([3, 2, 1, 99].map Scalar.ofNat) ([7, 0].map Scalar.ofNat) = .ok result ∧
      result.quotient.length = 3 ∧ result.remainder.length = 2 ∧
      value 8 result.quotient = 66051 / 7 ∧ value 8 result.remainder = 66051 % 7) ∧
    divide? 8 1 ([3, 2, 1, 99].map Scalar.ofNat) ([0, 0].map Scalar.ofNat) =
      .error (.error .divisionByZero) := by
  obtain ⟨result, hresult, hquotient, hremainder, _, _, hdiv, hmod⟩ :=
    (divide?_euclidean 8 1 ([3, 2, 1, 99].map Scalar.ofNat) ([7, 0].map Scalar.ofNat)).1
      (by decide) (by decide) (by decide) (by decide) ⟨Scalar.ofNat 7, by decide, by decide⟩
  refine ⟨⟨result, hresult, hquotient, hremainder, hdiv, hmod⟩, ?_⟩
  exact (divide?_euclidean 8 1 ([3, 2, 1, 99].map Scalar.ofNat) ([0, 0].map Scalar.ofNat)).2
    (by decide)

end Limbs

end RsaCircuit
