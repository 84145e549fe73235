import RsaCircuit.Limbs.Guarded
import RsaCircuit.Proofs.Limbs.Division
set_option autoImplicit false

/-!
# What division divides by and what it reads

Every divisor that schoolbook division computes is nonzero for limbs anywhere in the field, except
one: the successor of the leading limb is zero for a limb of minus one.  The remaining divisors are
powers of two, which are units of the field, and the leading limb of the scaled divisor, which is
tested.

Every limb that it reads is there.  The lengths follow from those of the operands alone: scaling adds
one limb, and the remainder keeps its length throughout, so a window has one limb more than the
divisor.

So guarded division is plain division (`Guarded.divide?_eq`), and it is misused for exactly the
divisors whose leading limb, zeros left out, is minus one (`divide?_eq_misuse_iff`).
-/

namespace RsaCircuit

namespace Limbs

namespace Guarded

variable {width : Nat}

theorem intMod?_of_ne_zero {x y : Scalar} (h : y ≠ 0) : x.intMod? y = .ok (x.intMod y) := if_neg h

theorem intDiv?_of_ne_zero {x y : Scalar} (h : y ≠ 0) : x.intDiv? y = .ok (x.intDiv y) := if_neg h

/-! ## Powers of two -/

theorem propagate?_eq {base : Scalar} (hbase : base ≠ 0) (carry : Scalar) (columns : List Scalar) :
    propagate? base carry columns = .ok (propagate base carry columns) := by
  induction columns generalizing carry with
  | nil => rfl
  | cons column columns ih =>
    rw [propagate?, intMod?_of_ne_zero hbase, intDiv?_of_ne_zero hbase]
    change (propagate? base _ columns).bind _ = _
    rw [ih]
    rfl

theorem scale?_eq (width : Nat) (factor : Scalar) (b : Limbs) :
    scale? width factor b = .ok (scale width factor b) :=
  propagate?_eq (Scalar.twoPow_ne_zero width) 0 _

theorem correct?_eq (width : Nat) (a b : Limbs) (guess : Scalar) :
    correct? width a b guess = .ok (correct width a b guess) := by
  rw [correct?, bind_of_ok (scale?_eq width guess b)]
  rfl

theorem reduce?_eq (width : Nat) (divisor : Limbs) (position : Nat) (digit : Scalar)
    (remainder : Limbs) :
    reduce? width divisor position digit remainder =
      .ok (reduce width divisor position digit remainder) := by
  rw [reduce?, bind_of_ok (scale?_eq width digit divisor)]
  rfl

/-! ## One digit -/

theorem step_of_ok {α : Type} {result : Except Misuse α} {value : α} (h : result = .ok value) :
    step result = .ok value := by
  rw [h]
  rfl

section Digit

variable {a b : Limbs}

theorem estimate?_eq (hlength : a.length = b.length + 1) (hleading : b.getLastD 0 ≠ 0) :
    estimate? width a b = .ok (estimate width a b) := by
  have hhigh : b.length < a.length := by omega
  have hnext : b.length - 1 < a.length := by omega
  rw [estimate?, bind_of_ok (elementAt?_of_lt hhigh 0), bind_of_ok (elementAt?_of_lt hnext 0),
    bind_of_ok (intDiv?_of_ne_zero hleading)]
  rfl

theorem normalizedDigit?_eq (width : Nat) (hlength : a.length = b.length + 1) :
    normalizedDigit? width a b = (Limbs.normalizedDigit? width a b).mapError .error := by
  unfold normalizedDigit? Limbs.normalizedDigit?
  rw [if_neg (not_not.2 hlength)]
  split
  · rfl
  · next hleading =>
    rw [bind_of_ok (step_of_ok (estimate?_eq hlength hleading)), correct?_eq]
    rfl

/-- The scaled divisor has a limb above those of the divisor, and what is cut off when it is zero lies
within the scaled operands. -/
theorem digit?_eq (width : Nat) (hlength : a.length = b.length + 1) :
    digit? width a b = Limbs.digit? width a b := by
  unfold digit? Limbs.digit?
  rw [if_neg (not_not.2 hlength)]
  cases b.getLast? with
  | none => rfl
  | some leading =>
    dsimp only
    by_cases hzero : leading + 1 = 0
    · rw [if_pos hzero, Scalar.intDiv?, Scalar.withDivisor, if_pos hzero]
      rfl
    · generalize hfactor : (Scalar.twoPow width).intDiv (leading + 1) = factor
      have hlengthA : (scale width factor a).length = b.length + 2 := by
        rw [length_scale, hlength]
      have hlengthB : (scale width factor b).length = b.length + 1 := length_scale width factor b
      rw [if_neg hzero, bind_of_ok (step_of_ok (intDiv?_of_ne_zero hzero)), hfactor,
        bind_of_ok (step_of_ok (scale?_eq width factor a)),
        bind_of_ok (step_of_ok (scale?_eq width factor b)),
        bind_of_ok (step_of_ok (elementAt?_of_lt (hlengthB ▸ Nat.lt_succ_self _) 0))]
      split
      · rw [bind_of_ok (step_of_ok (slice?_take (by omega))),
          bind_of_ok (step_of_ok (slice?_take (by omega)))]
        refine normalizedDigit?_eq width ?_
        rw [List.length_take, List.length_take]
        omega
      · exact normalizedDigit?_eq width (by omega)

end Digit

/-! ## All digits -/

section Digits

variable {divisor remainder : Limbs} {top : Nat}

/-- A window reads no limb that is missing but the one above the remainder. -/
theorem window?_eq (hlength : remainder.length = top + divisor.length) {position : Nat}
    (hposition : position ≤ top) :
    window? divisor top position remainder = .ok (window divisor position remainder) := by
  rw [window, resize_eq, List.length_drop]
  by_cases htop : position = top
  · rw [window?, if_pos htop, htop, bind_of_ok (slice?_drop (by omega)), List.take_of_length_le,
      show divisor.length + 1 - (remainder.length - top) = 1 by omega]
    · rfl
    · rw [List.length_drop]
      omega
  · rw [window?, if_neg htop, slice?_of_le (by omega) (by omega), List.drop_take,
      show divisor.length + 1 - (remainder.length - position) = 0 by omega,
      show position + divisor.length + 1 - position = divisor.length + 1 by omega,
      List.replicate_zero, List.append_nil]

theorem divideBelow?_eq (width : Nat) {count : Nat} (hcount : count ≤ top + 1)
    (hlength : remainder.length = top + divisor.length) :
    divideBelow? width divisor top count remainder =
      divideBelow width divisor count remainder := by
  induction count generalizing remainder with
  | zero => rfl
  | succ position ih =>
    have hposition : position ≤ top := Nat.le_of_succ_le_succ hcount
    rw [divideBelow?, divideBelow, bind_of_ok (step_of_ok (window?_eq hlength hposition)),
      digit?_eq width length_window]
    refine congrArg _ (funext fun digit => ?_)
    rw [bind_of_ok (step_of_ok (reduce?_eq width divisor position digit remainder)),
      ih (Nat.le_succ_of_le hposition) (length_reduce.trans hlength)]

end Digits

/-- Guarding every divisor, limb and part does not change division. -/
theorem divide?_eq (width extra : Nat) (a b : Limbs) :
    divide? width extra a b = Limbs.divide? width extra a b := by
  have hle := length_trim_le b
  unfold divide? Limbs.divide?
  dsimp only
  by_cases hnil : trim b = []
  · rw [if_pos hnil, if_pos (List.length_eq_zero_iff.2 hnil)]
  · rw [if_neg hnil, if_neg (mt List.length_eq_zero_iff.1 hnil),
      bind_of_ok (step_of_ok (slice?_take hle)), take_length_trim,
      divideBelow?_eq width (Nat.le_refl _) (by rw [length_resize]; omega)]

end Guarded

/-! ## Leading limbs -/

theorem trim_cons_of_ne_nil {xs : Limbs} (x : Scalar) (h : trim xs ≠ []) :
    trim (x :: xs) = x :: trim xs := by
  rw [trim]
  split
  · next hnil => exact absurd hnil h
  · rfl

theorem trim_append_leading (low : Limbs) {x : Scalar} (hx : x ≠ 0) (zeros : Nat) :
    trim (low ++ x :: List.replicate zeros 0) = low ++ [x] := by
  have hzeros : trim (List.replicate zeros 0) = [] :=
    (@trim_eq_nil_iff 0 _).2 (value_replicate_zero zeros)
  induction low with
  | nil =>
    rw [List.nil_append, trim, hzeros]
    exact if_neg hx
  | cons y low ih =>
    rw [List.cons_append, trim_cons_of_ne_nil y, ih, List.cons_append]
    rw [ih]
    exact List.append_ne_nil_of_right_ne_nil low (List.cons_ne_nil x [])

/-- The most significant limb of `b` is `x`, zero limbs above it left out. -/
def LedBy (x : Scalar) (b : Limbs) : Prop := ∃ low zeros, b = low ++ x :: List.replicate zeros 0

theorem getLast?_trim_eq_some_iff {b : Limbs} {x : Scalar} (hx : x ≠ 0) :
    (trim b).getLast? = some x ↔ LedBy x b := by
  constructor
  · intro h
    obtain ⟨zeros, hb⟩ := exists_trim_append b
    obtain ⟨low, hlow⟩ := List.getLast?_eq_some_iff.1 h
    refine ⟨low, zeros, ?_⟩
    rwa [hlow, List.append_assoc, List.singleton_append] at hb
  · rintro ⟨low, zeros, rfl⟩
    rw [trim_append_leading low hx]
    exact List.getLast?_concat

/-! ## Misuse -/

section Misuse

variable {width : Nat} {m : Misuse}

/-- A sequence stops for a reason only if one of its parts does. -/
theorem bind_ne_error {ε α β : Type} {x : Except ε α} {f : α → Except ε β} {e : ε}
    (hx : x ≠ .error e) (hf : ∀ value, f value ≠ .error e) : (x >>= f) ≠ .error e := by
  cases x with
  | error e' => exact fun h => hx (congrArg _ (Except.error.inj h))
  | ok value => exact hf value

theorem mapError_error_ne_misuse {α : Type} (result : Except ArithmeticError α) :
    result.mapError Stop.error ≠ .error (.misuse m) := by
  cases result with
  | error e => exact fun h => nomatch h
  | ok value => exact fun h => nomatch h

theorem digit?_of_minus_one {b : Limbs} (h : b.getLast? = some (-1)) (a : Limbs) :
    digit? width a b = .error (.misuse .zeroDivisor) := by
  unfold digit?
  rw [h]
  exact if_pos (neg_add_cancel 1)

theorem digit?_ne_misuse {b : Limbs} (h : b.getLast? ≠ some (-1)) (a : Limbs) :
    digit? width a b ≠ .error (.misuse m) := by
  unfold digit?
  cases hlast : b.getLast? with
  | none => exact fun heq => nomatch heq
  | some leading =>
    have hleading : leading + 1 ≠ 0 := fun hzero =>
      h (hlast.trans (congrArg some (eq_neg_of_add_eq_zero_left hzero)))
    dsimp only
    rw [if_neg hleading]
    exact mapError_error_ne_misuse _

theorem divideBelow_of_minus_one {divisor : Limbs} (h : divisor.getLast? = some (-1)) (count : Nat)
    (remainder : Limbs) :
    divideBelow width divisor (count + 1) remainder = .error (.misuse .zeroDivisor) := by
  rw [divideBelow, digit?_of_minus_one h]
  rfl

theorem divideBelow_ne_misuse {divisor : Limbs} (h : divisor.getLast? ≠ some (-1)) (count : Nat)
    (remainder : Limbs) : divideBelow width divisor count remainder ≠ .error (.misuse m) := by
  induction count generalizing remainder with
  | zero =>
    intro heq
    cases heq
  | succ position ih =>
    rw [divideBelow]
    refine bind_ne_error (digit?_ne_misuse h _) fun digit => ?_
    refine bind_ne_error (ih _) fun low heq => ?_
    cases heq

/-- Division is misused iff the leading limb of the divisor, zeros left out, is minus one. -/
theorem divide?_eq_misuse_iff (extra : Nat) (a b : Limbs) :
    divide? width extra a b = .error (.misuse m) ↔
      m = .zeroDivisor ∧ LedBy (-1) b := by
  rw [← getLast?_trim_eq_some_iff (neg_ne_zero.2 one_ne_zero)]
  unfold divide?
  dsimp only
  by_cases hnil : trim b = []
  · rw [if_pos hnil, hnil]
    exact ⟨fun heq => (nomatch heq), fun h => (nomatch h.2)⟩
  · rw [if_neg hnil]
    by_cases hleading : (trim b).getLast? = some (-1)
    · rw [divideBelow_of_minus_one hleading]
      constructor
      · intro heq
        exact ⟨(Stop.misuse.inj (Except.error.inj heq)).symm, hleading⟩
      · rintro ⟨rfl, _⟩
        rfl
    · refine ⟨fun heq => ?_, fun h => absurd h.2 hleading⟩
      refine absurd heq (bind_ne_error (divideBelow_ne_misuse hleading _ _) fun result heq => ?_)
      cases heq

end Misuse

end Limbs

end RsaCircuit
