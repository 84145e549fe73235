import RsaCircuit.Component.LimbComparison
import RsaCircuit.Proofs.Component.Comparison
import RsaCircuit.Proofs.Limbs.Arithmetic
set_option autoImplicit false

/-!
# Comparisons of big integers are exact

On limbs in range the fold of a comparison answers for the integers that the limbs from a position up
stand for, so its last answer is the order of the two values.  The gates of a position keep these
answers, and stand by position in the witness.
-/

namespace RsaCircuit

/-! ## Gates by position -/

/-- One gate for each position below `count`, with the answer for its position. -/
structure Gate.Answers (gates : List Gate.Witness) (count : Nat) (answer : Nat → Bool) : Prop where
  length_eq : gates.length = count
  out_eq : ∀ i gate, gates[i]? = some gate → gate.out = Scalar.ofBool (answer i)

theorem Gate.Answers.nil (answer : Nat → Bool) : Gate.Answers [] 0 answer where
  length_eq := rfl
  out_eq _ _ h := by cases h

/-- A gate below the others moves them up by one position. -/
theorem Gate.Answers.cons {gate : Gate.Witness} {gates : List Gate.Witness} {count : Nat}
    {answer : Nat → Bool} (h : Gate.Answers gates count fun i => answer (i + 1))
    (hgate : gate.out = Scalar.ofBool (answer 0)) : Gate.Answers (gate :: gates) (count + 1) answer where
  length_eq := congrArg (· + 1) h.length_eq
  out_eq i gate' hget := by
    cases i with
    | zero =>
      obtain rfl : gate = gate' := Option.some.inj hget
      exact hgate
    | succ i => exact h.out_eq i gate' hget

theorem Gate.Answers.exists_gate {gates : List Gate.Witness} {count i : Nat} {answer : Nat → Bool}
    (h : Gate.Answers gates count answer) (hi : i < count) :
    ∃ gate, gates[i]? = some gate ∧ gate.out = Scalar.ofBool (answer i) := by
  have hget := List.getElem?_eq_getElem (h.length_eq.symm ▸ hi)
  exact ⟨_, hget, h.out_eq i _ hget⟩

namespace LimbComparison

variable {width : Nat}

/-- The answers for pairs of limbs: whether the left one is below the right one, and whether they are
equal. -/
def answers (pairs : List (Scalar × Scalar)) : List (Scalar × Scalar) :=
  pairs.map fun pair =>
    (Scalar.ofBool (decide (pair.1.val < pair.2.val)), Scalar.ofBool (decide (pair.1 = pair.2)))

/-- What a suffix says about the two integers that the limbs from a position up stand for. -/
structure Suffix.Answers (suffix : Suffix) (left right : Nat) : Prop where
  equal : suffix.equal = Scalar.ofBool (decide (left = right))
  less : suffix.less = Scalar.ofBool (decide (left < right))

theorem digit_order {base x y : Nat} (hx : x < base) (hy : y < base) (v w : Nat) :
    (x + base * v = y + base * w ↔ v = w ∧ x = y) ∧
      (x + base * v < y + base * w ↔ v < w ∨ (v = w ∧ x < y)) := by
  have horder := Limbs.compare_digit hx hy v w
  constructor
  · rw [← compare_eq_iff_eq, horder, Ordering.then_eq_eq, compare_eq_iff_eq, compare_eq_iff_eq]
  · rw [← compare_lt_iff_lt, horder, Ordering.then_eq_lt, compare_lt_iff_lt, compare_lt_iff_lt,
      compare_eq_iff_eq]

/-- Going down one limb. -/
theorem Suffix.Answers.cons {suffix : Suffix} {x y : Scalar} {v w : Nat}
    (h : suffix.Answers v w) (hx : x.val < pow2 width) (hy : y.val < pow2 width)
    {ors ands equalAnds : List Gate.Witness} :
    (Suffix.mk (Gate.and.eval suffix.equal (Scalar.ofBool (decide (x = y))))
      (Gate.or.eval suffix.less
        (Gate.and.eval suffix.equal (Scalar.ofBool (decide (x.val < y.val)))))
      ors ands equalAnds).Answers (x.val + pow2 width * v) (y.val + pow2 width * w) := by
  obtain ⟨hequal, hless⟩ := digit_order hx hy v w
  have hval : x.val = y.val ↔ x = y := ⟨Scalar.ext_val, congrArg Scalar.val⟩
  rw [h.equal, h.less, Gate.eval_and, Gate.eval_and, Gate.eval_or, ← Bool.decide_and,
    ← Bool.decide_and, ← Bool.decide_or]
  constructor
  · exact congrArg Scalar.ofBool (decide_eq_decide.2 (by rw [hequal, hval]))
  · exact congrArg Scalar.ofBool (decide_eq_decide.2 hless.symm)

/-- What the gates at the positions below `count` say, each about the limbs from its position up: whether
the left ones are below the right ones, whether that is decided at this very position, and whether both
are equal. -/
structure Records (width count : Nat) (left right : Limbs) (ors ands equalAnds : List Gate.Witness) :
    Prop where
  ors : Gate.Answers ors count fun i =>
    decide (Limbs.value width (left.drop i) < Limbs.value width (right.drop i))
  ands : Gate.Answers ands count fun i =>
    decide (Limbs.value width (left.drop (i + 1)) = Limbs.value width (right.drop (i + 1))) &&
      decide ((left.getD i 0).val < (right.getD i 0).val)
  equalAnds : Gate.Answers equalAnds count fun i =>
    decide (Limbs.value width (left.drop i) = Limbs.value width (right.drop i))

theorem Records.nil (left right : Limbs) : Records width 0 left right [] [] [] :=
  ⟨Gate.Answers.nil _, Gate.Answers.nil _, Gate.Answers.nil _⟩

/-- The gates of one more limb at the least significant end. -/
theorem Records.cons {count : Nat} {left right : Limbs} {ors ands equalAnds : List Gate.Witness}
    (h : Records width count left right ors ands equalAnds) {x y : Scalar}
    {or and equalAnd : Gate.Witness}
    (hor : or.out = Scalar.ofBool
      (decide (Limbs.value width (x :: left) < Limbs.value width (y :: right))))
    (hand : and.out = Scalar.ofBool
      (decide (Limbs.value width left = Limbs.value width right) && decide (x.val < y.val)))
    (hequalAnd : equalAnd.out = Scalar.ofBool
      (decide (Limbs.value width (x :: left) = Limbs.value width (y :: right)))) :
    Records width (count + 1) (x :: left) (y :: right) (or :: ors) (and :: ands)
      (equalAnd :: equalAnds) :=
  ⟨h.ors.cons hor, h.ands.cons hand, h.equalAnds.cons hequalAnd⟩

/-- The fold answers for the limbs from its position up, and records the answers on the way. -/
theorem fold_decides {pairs : List (Scalar × Scalar)} (hne : pairs ≠ [])
    (hpairs : ∀ pair ∈ pairs, pair.1.val < pow2 width ∧ pair.2.val < pow2 width) (i : Nat) :
    (fold i (answers pairs)).Decides True fun suffix =>
      suffix.Answers (Limbs.value width (pairs.map Prod.fst))
          (Limbs.value width (pairs.map Prod.snd)) ∧
        Records width (pairs.length - 1) (pairs.map Prod.fst) (pairs.map Prod.snd) suffix.ors
          suffix.ands suffix.equalAnds := by
  induction pairs generalizing i with
  | nil => exact absurd rfl hne
  | cons pair pairs ih =>
    obtain ⟨hx, hy⟩ := hpairs pair List.mem_cons_self
    cases pairs with
    | nil =>
      have hval : pair.1.val = pair.2.val ↔ pair.1 = pair.2 :=
        ⟨Scalar.ext_val, congrArg Scalar.val⟩
      refine Run.Decides.done ⟨⟨?_, ?_⟩, Records.nil _ _⟩
      · exact congrArg Scalar.ofBool (decide_eq_decide.2 hval.symm)
      · rfl
    | cons next rest =>
      have hhigher := ih (List.cons_ne_nil next rest)
        (fun p hp => hpairs p (List.mem_cons_of_mem pair hp)) (i + 1)
      apply hhigher.bind_total
      intro above ⟨habove, hrecords⟩
      apply (Gate.decides .and _ _).place.bind_total
      intro and hand
      apply (Gate.decides .and _ _).place.bind_total
      intro equalAnd hequalAnd
      refine (Gate.decides .or _ _).place.bind_total fun or hor => Run.Decides.done ?_
      rw [hand] at hor
      have hanswers := @habove.cons _ _ _ _ _ _ hx hy (or :: above.ors) (and :: above.ands)
        (equalAnd :: above.equalAnds)
      rw [← hor, ← hequalAnd] at hanswers
      refine ⟨hanswers, hrecords.cons hanswers.less ?_ hanswers.equal⟩
      rw [hand, habove.equal, Gate.eval_and]

/-- Limbs of the layout's number are compared in pairs. -/
theorem run_eq (layout : Layout) {left right : Limbs} (hleft : left.length = layout.limbCount)
    (hright : right.length = layout.limbCount) :
    (component layout).run (left, right) = do
      let comparisons ← (limbComparison layout).component.placeEach "lt" (left.zip right)
      let equalities ← EqualityTest.component.placeEach "eq" (left.zip right)
      let answers ← Run.ofDomain (zip? (comparisons.map (·.out)) (equalities.map (·.out)))
      let suffix ← fold 0 answers
      return { out := suffix.less, left, right, comparisons, equalities,
               ors := suffix.ors, ands := suffix.ands, equalAnds := suffix.equalAnds } := by
  refine ((if_neg (not_not.2 hleft)).trans (if_neg (not_not.2 hright))).trans ?_
  exact Run.ofDomain_bind (zip?_of_length (hleft.trans hright.symm)) _

theorem length_pairs {layout : Layout} {left right : Limbs} (hleft : left.length = layout.limbCount)
    (hright : right.length = layout.limbCount) : (left.zip right).length = layout.limbCount := by
  rw [List.length_zip, hleft, hright, Nat.min_self]

/-- The comparison of limbs in range compares their values, with the gates of every position on record,
and none of its checks fails. -/
theorem decides_records (layout : Layout) {left right : Limbs}
    (hleft : Limbs.InRange layout.limbBits left) (hright : Limbs.InRange layout.limbBits right)
    (hlengthLeft : left.length = layout.limbCount)
    (hlengthRight : right.length = layout.limbCount) :
    ((component layout).run (left, right)).Decides True fun w =>
      w.out = Scalar.ofBool
          (decide (Limbs.value layout.limbBits left < Limbs.value layout.limbBits right)) ∧
        Records layout.limbBits (layout.limbCount - 1) left right w.ors w.ands w.equalAnds := by
  have hpairs : ∀ pair ∈ left.zip right,
      pair.1.val < pow2 layout.limbBits ∧ pair.2.val < pow2 layout.limbBits := by
    intro pair hpair
    obtain ⟨hx, hy⟩ := List.of_mem_zip hpair
    exact ⟨hleft _ hx, hright _ hy⟩
  have hlength : left.length = right.length := hlengthLeft.trans hlengthRight.symm
  have hcount := length_pairs hlengthLeft hlengthRight
  have hne : left.zip right ≠ [] := by
    have htwo := layout.two_le_limbCount
    exact List.ne_nil_of_length_pos (by omega)
  have hcomparisons : ((limbComparison layout).component.placeEach "lt" (left.zip right)).Decides
      True fun ws => ws.map (·.out) =
        (left.zip right).map fun pair => Scalar.ofBool (decide (pair.1.val < pair.2.val)) :=
    Run.Decides.placeEach_map fun pair hpair =>
      (limbComparison layout).decides (hpairs pair hpair).1 (hpairs pair hpair).2
  have hequalities : (EqualityTest.component.placeEach "eq" (left.zip right)).Decides
      True fun ws => ws.map (·.out) =
        (left.zip right).map fun pair => Scalar.ofBool (decide (pair.1 = pair.2)) :=
    Run.Decides.placeEach_map fun pair _ => EqualityTest.decides pair.1 pair.2
  rw [run_eq layout hlengthLeft hlengthRight]
  apply hcomparisons.bind_total
  intro comparisons hless
  apply hequalities.bind_total
  intro equalities hequal
  have hanswers : zip? (comparisons.map (·.out)) (equalities.map (·.out)) =
      .ok (answers (left.zip right)) := by
    rw [hless, hequal, zip?_of_length (by rw [List.length_map, List.length_map])]
    exact congrArg Except.ok List.zip_map'
  rw [Run.ofDomain_bind hanswers]
  refine (fold_decides hne hpairs 0).bind_total fun suffix hsuffix => Run.Decides.done ?_
  obtain ⟨hvalues, hrecords⟩ := hsuffix
  rw [List.map_fst_zip (by omega), List.map_snd_zip (by omega)] at hvalues hrecords
  rw [hcount] at hrecords
  exact ⟨hvalues.less, hrecords⟩

/-- The answer of the comparison alone. -/
theorem decides (layout : Layout) {left right : Limbs}
    (hleft : Limbs.InRange layout.limbBits left) (hright : Limbs.InRange layout.limbBits right)
    (hlengthLeft : left.length = layout.limbCount)
    (hlengthRight : right.length = layout.limbCount) :
    ((component layout).run (left, right)).Decides True fun w =>
      w.out = Scalar.ofBool
        (decide (Limbs.value layout.limbBits left < Limbs.value layout.limbBits right)) :=
  (decides_records layout hleft hright hlengthLeft hlengthRight).weaken fun _ _ h => h.1

/-! ## Exactness -/

/-- Limbs in range are equal iff their values are, from any position up. -/
theorem value_drop_eq_iff {left right : Limbs} (hleft : Limbs.InRange width left)
    (hright : Limbs.InRange width right) (hlength : left.length = right.length) (i : Nat) :
    Limbs.value width (left.drop i) = Limbs.value width (right.drop i) ↔
      left.drop i = right.drop i := by
  constructor
  · intro h
    refine Limbs.eq_of_value_eq (hleft.drop i) (hright.drop i) ?_ h
    rw [List.length_drop, List.length_drop, hlength]
  · intro h
    rw [h]

/-- On limbs in range the comparison has a result, and its answer is a truth value: the order of the
values, which is also the order of the limb lists.  The gates stand by position.  Each says about the
limbs from its position up whether the left ones are below the right ones, whether this is decided at
its position, and whether both are equal. -/
theorem compares_exactly (layout : Layout) (left right : Limbs) (context : Context)
    (hlengthLeft : left.length = layout.limbCount)
    (hlengthRight : right.length = layout.limbCount)
    (hleft : Limbs.InRange layout.limbBits left) (hright : Limbs.InRange layout.limbBits right) :
    let value := Limbs.value layout.limbBits
    ∃ w, (((component layout).run (left, right)).exec context).1 = .ok w ∧
      (w.out = 0 ∨ w.out = 1) ∧ (w.out = 1 ↔ value left < value right) ∧
      (value left < value right ↔ Limbs.compare left right = .lt) ∧
      w.ors.length = layout.limbCount - 1 ∧ w.ands.length = layout.limbCount - 1 ∧
      w.equalAnds.length = layout.limbCount - 1 ∧
      ∀ i, i < layout.limbCount - 1 → ∃ or and equalAnd, w.ors[i]? = some or ∧
        w.ands[i]? = some and ∧ w.equalAnds[i]? = some equalAnd ∧
        or.out = (if value (left.drop i) < value (right.drop i) then 1 else 0) ∧
        and.out = (if left.drop (i + 1) = right.drop (i + 1) ∧
          (left.getD i 0).val < (right.getD i 0).val then 1 else 0) ∧
        equalAnd.out = if left.drop i = right.drop i then 1 else 0 := by
  intro value
  have hlength : left.length = right.length := hlengthLeft.trans hlengthRight.symm
  obtain ⟨w, houtcome, hout, hrecords⟩ :=
    (decides_records layout hleft hright hlengthLeft hlengthRight).answers trivial
  have hwidth : layout.limbBits ≤ 252 := (limbComparison layout).bits_le
  have horder : Limbs.compare left right = .lt ↔ value left < value right := by
    rw [Limbs.compare_eq_compare_value hwidth hleft hright, compare_lt_iff_lt]
  refine ⟨w, Run.exec_of_outcome_ok houtcome context, ?_, ?_, horder.symm,
    hrecords.ors.length_eq, hrecords.ands.length_eq, hrecords.equalAnds.length_eq, ?_⟩
  · rw [hout, Scalar.ofBool_decide]
    split
    · exact Or.inr rfl
    · exact Or.inl rfl
  · rw [hout, Scalar.ofBool_eq_one_iff, decide_eq_true_iff]
  · intro i hi
    obtain ⟨or, hor, horout⟩ := hrecords.ors.exists_gate hi
    obtain ⟨and, hand, handout⟩ := hrecords.ands.exists_gate hi
    obtain ⟨equalAnd, hequal, hequalout⟩ := hrecords.equalAnds.exists_gate hi
    rw [Scalar.ofBool_decide] at horout hequalout
    rw [← Bool.decide_and, Scalar.ofBool_decide] at handout
    simp only [value_drop_eq_iff hleft hright hlength] at handout hequalout
    exact ⟨or, and, equalAnd, hor, hand, hequal, horout, handout, hequalout⟩

/-- Four limbs of 16 bits. -/
def sampleLayout : Layout where
  limbBits := 16
  limbCount := 4
  two_le_limbCount := by decide
  limbBits_pos := by decide
  carries_fit := by decide

/-- The top limbs agree, and the limbs below decide one way or the other. -/
theorem compares_exactly_sample :
    ∃ w or equalAnd, (((component sampleLayout).run
        ([1, 7, 3, 9].map Scalar.ofNat, [1, 2, 4, 9].map Scalar.ofNat)).exec
          (Context.ofRoot "main")).1 = .ok w ∧ w.out = 1 ∧
      w.ors[1]? = some or ∧ or.out = 1 ∧ w.equalAnds[2]? = some equalAnd ∧ equalAnd.out = 0 := by
  obtain ⟨w, hw, _, hout, _, _, _, _, hgates⟩ := compares_exactly sampleLayout
    ([1, 7, 3, 9].map Scalar.ofNat) ([1, 2, 4, 9].map Scalar.ofNat) (Context.ofRoot "main") rfl rfl
    (by decide) (by decide)
  obtain ⟨or, _, _, hor, _, _, horout, _⟩ := hgates 1 (by decide)
  obtain ⟨_, _, equalAnd, _, _, hequal, _, _, hequalout⟩ := hgates 2 (by decide)
  refine ⟨w, or, equalAnd, hw, hout.2 (by decide), hor, ?_, hequal, ?_⟩
  · rw [horout, if_pos (by decide)]
  · rw [hequalout, if_neg (by decide)]

end LimbComparison

end RsaCircuit
