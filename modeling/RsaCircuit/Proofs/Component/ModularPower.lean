import RsaCircuit.Component.ModularPower
import RsaCircuit.Proofs.Component.ModularProduct
set_option autoImplicit false

/-!
# The modular power is exact

Only the first squaring can fail: from then on the power is reduced, and a product of a reduced
factor with any integer of the layout has a quotient that fits.  So a power has a result iff the
quotient of the base's square fits (`ModularPower.power_exact`).
-/

namespace RsaCircuit

namespace Limbs

/-- The limbs are digits of a layout and stand for `v`. -/
structure Holds (layout : Layout) (v : Nat) (xs : Limbs) : Prop where
  inRange : InRange layout.limbBits xs
  length_eq : xs.length = layout.limbCount
  value_eq : value layout.limbBits xs = v

theorem Holds.lt {layout : Layout} {v : Nat} {xs : Limbs} (h : Holds layout v xs) :
    v < pow2 layout.totalBits := by
  have hlt := value_lt _ _ h.inRange
  rwa [h.length_eq, h.value_eq] at hlt

theorem Holds.eq {layout : Layout} {v : Nat} {xs ys : Limbs} (hx : Holds layout v xs)
    (hy : Holds layout v ys) : xs = ys :=
  eq_of_value_eq hx.inRange hy.inRange (hx.length_eq.trans hy.length_eq.symm)
    (hx.value_eq.trans hy.value_eq.symm)

theorem Holds.split {layout : Layout} {v : Nat} (h : v < pow2 layout.totalBits) :
    Holds layout v (split layout.limbBits layout.limbCount v) where
  inRange := inRange_split layout.limbBits_le_253 _ _
  length_eq := length_split _ _ _
  value_eq := by
    rw [value_split layout.limbBits_le_253]
    exact Nat.mod_eq_of_lt h

end Limbs

namespace ModularPower

open Limbs

variable {product : ModularProduct} {modulus : Limbs} {m : Nat}

theorem pos_of_fits {layout : Layout} {v : Nat} (h : v < m * pow2 layout.totalBits) : 0 < m := by
  rcases Nat.eq_zero_or_pos m with hzero | hpos
  · rw [hzero, Nat.zero_mul] at h
    exact absurd h (Nat.not_lt_zero _)
  · exact hpos

/-- A product of limbs in range has an answer iff its quotient fits. -/
theorem product_decides {left right : Limbs} {v w : Nat} (hleft : Holds product.layout v left)
    (hright : Holds product.layout w right) (hmodulus : Holds product.layout m modulus) :
    (product.component.run ⟨left, right, modulus⟩).Decides (v * w < m * pow2 product.layout.totalBits)
      fun witness => Holds product.layout (v * w % m) witness.out := by
  have hdecides := ModularProduct.decides ⟨left, right, modulus⟩
    ⟨hleft.length_eq, hright.length_eq, hmodulus.length_eq⟩ hmodulus.inRange
  dsimp only at hdecides
  rw [hleft.value_eq, hright.value_eq, hmodulus.value_eq] at hdecides
  refine (hdecides.congr ⟨fun h => ?_, fun h => ?_⟩).weaken fun _ witness hexact => ?_
  · have hquotient := h.quotient
    dsimp only at hquotient
    rwa [hleft.value_eq, hright.value_eq, hmodulus.value_eq] at hquotient
  · refine ⟨hleft.inRange, hright.inRange, ?_, ?_⟩
    · dsimp only
      rw [hmodulus.value_eq]
      exact Nat.ne_of_gt (pos_of_fits h)
    · dsimp only
      rwa [hleft.value_eq, hright.value_eq, hmodulus.value_eq]
  · exact ⟨hexact.inRange_out, hexact.length_out, hexact.value_out⟩

/-- A reduced factor makes every quotient fit. -/
theorem reduced_mul_lt {layout : Layout} {v w : Nat} (hv : v < m) (hw : w < pow2 layout.totalBits) :
    v * w < m * pow2 layout.totalBits := Nat.mul_lt_mul'' hv hw

/-- The squarings in order are the powers `2 ^ 1`, `2 ^ 2` and so on of the first factor. -/
structure Squares (layout : Layout) (m v count : Nat) (squares : List ModularProduct.Witness) :
    Prop where
  length_eq : squares.length = count
  holds : ∀ i square, squares[i]? = some square → Holds layout (v ^ pow2 (i + 1) % m) square.out

theorem Squares.cons {layout : Layout} {v count : Nat} {square : ModularProduct.Witness}
    {squares : List ModularProduct.Witness} (hsquare : Holds layout (v * v % m) square.out)
    (h : Squares layout m (v * v % m) count squares) :
    Squares layout m v (count + 1) (square :: squares) where
  length_eq := congrArg (· + 1) h.length_eq
  holds i square' hi := by
    cases i with
    | zero =>
      obtain rfl : square = square' := Option.some.inj hi
      have hpow : v ^ pow2 (0 + 1) = v * v := Nat.pow_two v
      rwa [hpow]
    | succ i =>
      have hpow : v ^ pow2 (i + 1 + 1) = (v * v) ^ pow2 (i + 1) := by
        rw [pow2_succ (i + 1), pow_mul, pow_two]
      rw [hpow, Nat.pow_mod]
      exact h.holds i square' hi

theorem squareFrom_decides (hmodulus : Holds product.layout m modulus) (count i : Nat)
    {power : Limbs} {v : Nat} (hpower : Holds product.layout v power) :
    (squareFrom product modulus i count power).Decides
      (count ≠ 0 → v * v < m * pow2 product.layout.totalBits)
      (Squares product.layout m v count) := by
  induction count generalizing i power v with
  | zero =>
    refine (Run.Decides.done ⟨rfl, ?_⟩).congr (by simp)
    intro i square hi
    rw [List.getElem?_nil] at hi
    cases hi
  | succ count ih =>
    have hall : (squareFrom product modulus i (count + 1) power).Decides
        (v * v < m * pow2 product.layout.totalBits) (Squares product.layout m v (count + 1)) := by
      apply (product_decides hpower hpower hmodulus).place.bind_done
      intro hfits square hsq
      have hreduced := reduced_mul_lt (Nat.mod_lt (v * v) (pos_of_fits hfits)) hsq.lt
      have hrest := (ih (i + 1) hsq).congr (iff_true_intro fun _ => hreduced)
      exact hrest.bind_done fun _ squares hsquares => Run.Decides.done (Squares.cons hsq hsquares)
    exact hall.congr (by simp)

/-- The last square, and the base itself if there is none. -/
theorem Squares.last {layout : Layout} {v count : Nat} {squares : List ModularProduct.Witness}
    (h : Squares layout m v count squares) (hcount : count ≠ 0) (base : Limbs) :
    Holds layout (v ^ pow2 count % m) ((squares.getLast?.map (·.out)).getD base) := by
  have hne : squares ≠ [] := by
    rintro rfl
    exact hcount h.length_eq.symm
  obtain ⟨init, square, hsplit⟩ := (List.eq_nil_or_concat squares).resolve_left hne
  rw [List.concat_eq_append] at hsplit
  have hlength : init.length + 1 = count := by
    rw [← h.length_eq, hsplit, List.length_append, List.length_singleton]
  have hholds := h.holds init.length square (by rw [hsplit, List.getElem?_concat_length])
  rw [hlength] at hholds
  rw [hsplit, List.getLast?_concat, Option.map_some, Option.getD_some]
  exact hholds

/-- The component raises any base in range whose square has a quotient that fits, as every reduced
base has. -/
theorem decides {base : Limbs} {v : Nat} (hbase : Holds product.layout v base)
    (hmodulus : Holds product.layout m modulus) :
    ((component product).run ⟨base, modulus⟩).Decides (v * v < m * pow2 product.layout.totalBits)
      fun w => Holds product.layout (v ^ publicExponent % m) w.out ∧
        Squares product.layout m v squarings w.squares := by
  have hsquarings : squarings ≠ 0 := by decide
  have hsquares := (squareFrom_decides hmodulus squarings 0 hbase).congr
    ⟨fun h => h hsquarings, fun h _ => h⟩
  apply hsquares.bind_done
  intro hfits squares hsq
  have hlast := hsq.last hsquarings base
  have hreduced := reduced_mul_lt (Nat.mod_lt (v ^ pow2 squarings) (pos_of_fits hfits)) hbase.lt
  have hproduct := (product_decides hlast hbase hmodulus).congr (iff_true_intro hreduced)
  apply hproduct.place.bind_total
  intro last hout
  have hnote : (Run.note (fun path => .powerComputed publicExponent path) (.done ())).Decides True
      fun _ => True := ⟨fun _ => ⟨(), rfl, trivial⟩, fun h => absurd trivial h⟩
  refine hnote.bind_total fun _ _ => Run.Decides.done ⟨?_, hsq⟩
  have hpow : v ^ publicExponent = v ^ pow2 squarings * v := by
    rw [← pow2_squarings_add_one, pow_succ]
  rwa [hpow, ← Nat.mod_mul_mod]

/-! ## Failures -/

/-- If the quotient of the first square does not fit, the first squaring fails. -/
theorem squareFrom_fails {power : Limbs} {v : Nat} (hpower : Holds product.layout v power)
    (hmodulus : Holds product.layout m modulus) (hlong : ¬ v * v < m * pow2 product.layout.totalBits)
    (i count : Nat) :
    (squareFrom product modulus i (count + 1) power).FailsWith fun failure =>
      ∃ inner, failure.place = inner ++ [s!"doublers[{i}]"] := by
  apply Run.FailsWith.bind_left
  exact Run.FailsWith.place_of_decides (product_decides hpower hpower hmodulus) hlong _

/-- For base and modulus in range a power has a result iff the square of the base has a quotient that
fits into the limbs of the layout, as that of a reduced base has.  The result then holds the power
and all squares before it.  Otherwise, and for the modulus zero, the first squaring fails. -/
theorem power_exact (layout : Layout) (base modulus : Limbs) (context : Context)
    (hbaseLength : base.length = layout.limbCount)
    (hmodulusLength : modulus.length = layout.limbCount) (hbase : InRange layout.limbBits base)
    (hmodulus : InRange layout.limbBits modulus) :
    let b := value layout.limbBits base
    let m := value layout.limbBits modulus
    let result := (((component (.ofLayout layout)).run ⟨base, modulus⟩).exec context).1
    ((∃ w, result = .ok w) ↔ b ^ 2 < m * pow2 (layout.limbBits * layout.limbCount)) ∧
      (b < m → ∃ w, result = .ok w) ∧
      (∀ w, result = .ok w → InRange layout.limbBits w.out ∧
        value layout.limbBits w.out = b ^ 65537 % m ∧ w.squares.length = 16 ∧
        ∀ i, i < 16 → ∃ square, w.squares[i]? = some square ∧
          value layout.limbBits square.out = b ^ 2 ^ (i + 1) % m) ∧
      ∀ stop, result = .error stop → m ≤ b ∧
        ∃ e inner, stop = .error e ∧ e.path = inner ++ "doublers[0]" :: context.path := by
  intro b m result
  have hholdsBase : Holds (ModularProduct.ofLayout layout).layout b base :=
    ⟨hbase, hbaseLength, rfl⟩
  have hholdsModulus : Holds (ModularProduct.ofLayout layout).layout m modulus :=
    ⟨hmodulus, hmodulusLength, rfl⟩
  have hdecides := decides hholdsBase hholdsModulus
  have hiff : (∃ w, result = .ok w) ↔ b * b < m * pow2 layout.totalBits :=
    hdecides.exec_ok_iff context
  have hreduced : b < m → b * b < m * pow2 layout.totalBits := fun hlt =>
    reduced_mul_lt hlt hholdsBase.lt
  refine ⟨?_, fun hlt => hiff.2 (hreduced hlt), ?_, ?_⟩
  · rw [Nat.pow_two]
    exact hiff
  · intro w hw
    obtain ⟨_, hout, hsquares⟩ := hdecides.of_exec_ok hw
    have hexponent : publicExponent = 65537 := rfl
    rw [hexponent] at hout
    refine ⟨hout.inRange, hout.value_eq, hsquares.length_eq, ?_⟩
    intro i hi
    have hlength : i < w.squares.length := by
      rw [hsquares.length_eq]
      exact hi
    have hsquare := List.getElem?_eq_getElem hlength
    exact ⟨w.squares[i], hsquare, (hsquares.holds i w.squares[i] hsquare).value_eq⟩
  · intro stop hstop
    have hlong : ¬ b * b < m * pow2 layout.totalBits := by
      intro hfits
      obtain ⟨w, hw⟩ := hiff.2 hfits
      rw [hw] at hstop
      cases hstop
    have hfails : ((component (.ofLayout layout)).run ⟨base, modulus⟩).FailsWith fun failure =>
        ∃ inner, failure.place = inner ++ ["doublers[0]"] :=
      (squareFrom_fails hholdsBase hholdsModulus hlong 0 15).bind_left
    obtain ⟨e, failure, hexec, ⟨inner, hinner⟩, hpath, _⟩ := hfails.exec context
    refine ⟨Nat.le_of_not_lt fun hlt => hlong (hreduced hlt), e, inner, ?_, ?_⟩
    · exact Except.error.inj (hstop.symm.trans hexec)
    · rw [hpath, hinner, List.append_assoc, List.singleton_append]

theorem power_exact_sample :
    (∃ w, (((component (.ofLayout .standard)).run
        ⟨split 121 32 (2 ^ 3000 + 3), split 121 32 (2 ^ 3500 + 1)⟩).exec
          (Context.ofRoot "main")).1 = .ok w ∧
      value 121 w.out = (2 ^ 3000 + 3) ^ 65537 % (2 ^ 3500 + 1)) ∧
    ∃ e inner, (((component (.ofLayout .standard)).run
        ⟨split 121 32 (2 ^ 3000), split 121 32 7⟩).exec (Context.ofRoot "main")).1 =
          .error (.error e) ∧ e.path = inner ++ ["doublers[0]", "main"] := by
  have hrange : ∀ v, InRange 121 (split 121 32 v) := inRange_split (by decide) 32
  have hlength := fun v => length_split 121 32 v
  constructor
  · obtain ⟨_, hreduced, hok, _⟩ := power_exact .standard (split 121 32 (2 ^ 3000 + 3))
      (split 121 32 (2 ^ 3500 + 1)) (Context.ofRoot "main") (hlength _) (hlength _) (hrange _)
      (hrange _)
    obtain ⟨w, hw⟩ := hreduced (by decide +kernel)
    obtain ⟨_, hout, _⟩ := hok w hw
    have hbase : value Layout.standard.limbBits (split 121 32 (2 ^ 3000 + 3)) = 2 ^ 3000 + 3 := by
      decide +kernel
    have hmodulus : value Layout.standard.limbBits (split 121 32 (2 ^ 3500 + 1)) = 2 ^ 3500 + 1 := by
      decide +kernel
    rw [hbase, hmodulus] at hout
    exact ⟨w, hw, hout⟩
  · obtain ⟨hiff, _, _, hfails⟩ := power_exact .standard (split 121 32 (2 ^ 3000)) (split 121 32 7)
      (Context.ofRoot "main") (hlength _) (hlength _) (hrange _) (hrange _)
    cases hresult : (((component (.ofLayout .standard)).run
        ⟨split 121 32 (2 ^ 3000), split 121 32 7⟩).exec (Context.ofRoot "main")).1 with
    | ok w => exact absurd (hiff.1 ⟨w, hresult⟩) (by decide +kernel)
    | error stop =>
      obtain ⟨_, e, inner, rfl, hpath⟩ := hfails stop hresult
      exact ⟨e, inner, rfl, hpath⟩

end ModularPower

end RsaCircuit
