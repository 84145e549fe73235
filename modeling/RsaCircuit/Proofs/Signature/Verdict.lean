import RsaCircuit.Signature.Verifier
import RsaCircuit.Proofs.Component.LimbComparison
import RsaCircuit.Proofs.Component.Padding
set_option autoImplicit false

/-!
# The verdict on a signature

What a check answers depends on its inputs alone: their shape, whether they are well formed, and
whether the signature decrypts to the padded digest.  Each stage of the verifier decides one of these
questions, and what the later stages rely on has been decided by the earlier ones, so no stage is ever
misused and no check that is classified as internal fails.  The stages guard every divisor they divide
by and every list they cut, read or pair up; that no guard refuses anything is part of what is proved
of them.
-/

namespace RsaCircuit

/-! ## What is asked of inputs -/

namespace Inputs

/-- The first signal whose array does not have one limb per limb of the layout. -/
def misshapen? (layout : Layout) (inputs : Inputs) : Option InputSignal :=
  if inputs.signature.length ≠ layout.limbCount then some .signature
  else if inputs.modulus.length ≠ layout.limbCount then some .modulus
  else if inputs.digest.length ≠ layout.limbCount then some .digest
  else none

/-- The limbs are digits, the digest has at most 256 bits and the modulus at least 489. -/
structure WellFormed (layout : Layout) (inputs : Inputs) : Prop where
  digest_inRange : Limbs.InRange layout.limbBits inputs.digest
  modulus_inRange : Limbs.InRange layout.limbBits inputs.modulus
  signature_inRange : Limbs.InRange layout.limbBits inputs.signature
  digest_lt : Limbs.value layout.limbBits inputs.digest < pow2 256
  le_modulus : pow2 488 ≤ Limbs.value layout.limbBits inputs.modulus

/-- The signature is reduced and decrypts to the encoded message. -/
structure Genuine (layout : Layout) (inputs : Inputs) : Prop where
  signature_lt :
    Limbs.value layout.limbBits inputs.signature < Limbs.value layout.limbBits inputs.modulus
  decrypts : Limbs.value layout.limbBits inputs.signature ^ publicExponent %
      Limbs.value layout.limbBits inputs.modulus =
    Padding.encoded (Limbs.value layout.limbBits inputs.modulus)
      (Limbs.value layout.limbBits inputs.digest)

theorem shapeError?_eq (layout : Layout) (inputs : Inputs) :
    inputs.shapeError? layout = (inputs.misshapen? layout).map fun signal =>
      .inputLength signal layout.limbCount (inputs.limbs signal).length := by
  unfold shapeError? misshapen? InputSignal.all
  by_cases hsignature : inputs.signature.length = layout.limbCount
  · by_cases hmodulus : inputs.modulus.length = layout.limbCount
    · by_cases hdigest : inputs.digest.length = layout.limbCount <;>
        simp [limbs, hsignature, hmodulus, hdigest]
    · simp [limbs, hsignature, hmodulus]
  · simp [limbs, hsignature]

theorem misshapen?_eq_none_iff (layout : Layout) (inputs : Inputs) :
    inputs.misshapen? layout = none ↔ inputs.signature.length = layout.limbCount ∧
      inputs.modulus.length = layout.limbCount ∧ inputs.digest.length = layout.limbCount := by
  unfold misshapen?
  split_ifs <;> simp_all

section Integers

variable {layout : Layout} {s m d : Nat}

/-- The limbs of three integers. -/
def ofSplits (layout : Layout) (s m d : Nat) : Inputs where
  signature := Limbs.split layout.limbBits layout.limbCount s
  modulus := Limbs.split layout.limbBits layout.limbCount m
  digest := Limbs.split layout.limbBits layout.limbCount d

theorem misshapen?_ofSplits : (ofSplits layout s m d).misshapen? layout = none :=
  (misshapen?_eq_none_iff layout _).2
    ⟨Limbs.length_split _ _ _, Limbs.length_split _ _ _, Limbs.length_split _ _ _⟩

theorem wellFormed_ofSplits_iff (hm : m < pow2 layout.totalBits) (hd : d < pow2 layout.totalBits) :
    (ofSplits layout s m d).WellFormed layout ↔ d < pow2 256 ∧ pow2 488 ≤ m := by
  have hdigest : Limbs.value layout.limbBits (ofSplits layout s m d).digest = d :=
    (Limbs.Holds.split hd).value_eq
  have hmodulus : Limbs.value layout.limbBits (ofSplits layout s m d).modulus = m :=
    (Limbs.Holds.split hm).value_eq
  constructor
  · rintro ⟨_, _, _, hlt, hle⟩
    rw [hdigest] at hlt
    rw [hmodulus] at hle
    exact ⟨hlt, hle⟩
  · rintro ⟨hlt, hle⟩
    have hrange : ∀ v, Limbs.InRange layout.limbBits
        (Limbs.split layout.limbBits layout.limbCount v) :=
      Limbs.inRange_split layout.limbBits_le_253 layout.limbCount
    exact ⟨hrange d, hrange m, hrange s, by rwa [hdigest], by rwa [hmodulus]⟩

theorem genuine_ofSplits_iff (hs : s < pow2 layout.totalBits) (hm : m < pow2 layout.totalBits)
    (hd : d < pow2 layout.totalBits) :
    (ofSplits layout s m d).Genuine layout ↔
      s < m ∧ s ^ publicExponent % m = Padding.encoded m d := by
  have hsignature : Limbs.value layout.limbBits (ofSplits layout s m d).signature = s :=
    (Limbs.Holds.split hs).value_eq
  have hdigest : Limbs.value layout.limbBits (ofSplits layout s m d).digest = d :=
    (Limbs.Holds.split hd).value_eq
  have hmodulus : Limbs.value layout.limbBits (ofSplits layout s m d).modulus = m :=
    (Limbs.Holds.split hm).value_eq
  constructor
  · rintro ⟨hlt, hdecrypts⟩
    rw [hsignature, hmodulus] at hlt
    rw [hsignature, hmodulus, hdigest] at hdecrypts
    exact ⟨hlt, hdecrypts⟩
  · rintro ⟨hlt, hdecrypts⟩
    refine ⟨?_, ?_⟩
    · rwa [hsignature, hmodulus]
    · rwa [hsignature, hmodulus, hdigest]

end Integers

end Inputs

/-! ## Sessions -/

namespace Session

variable {α β : Type} {result : Except (Stop WitnessError) α → Prop}

/-- In every context the session ends with a result of the given kind. -/
def Yields (session : Session α) (result : Except (Stop WitnessError) α → Prop) : Prop :=
  ∀ context, result (session.run.run context).1

theorem yields_pure {value : α} (h : result (.ok value)) : (pure value : Session α).Yields result :=
  fun _ => h

theorem perform_bind (classify : ConstraintError → WitnessError) (run : Run β)
    (rest : β → Session α) (context : Context) :
    (perform classify run >>= rest).run.run context =
      match (run.exec context).1 with
      | .ok value => (rest value).run.run (run.exec context).2
      | .error stop => (.error (stop.map classify), (run.exec context).2) := by
  have hperform : (perform classify run).run.run context =
      ((run.exec context).1.mapError (Stop.map classify), (run.exec context).2) := rfl
  rw [ExceptT.run_bind, StateT.run_bind, hperform]
  cases (run.exec context).1 <;> rfl

/-- A run in front: its failure is classified, and the rest can rely on what it decided. -/
theorem yields_perform {classify : ConstraintError → WitnessError} {run : Run β} {cond : Prop}
    {post : β → Prop} {rest : β → Session α} (h : run.Decides cond post)
    (hanswer : cond → ∀ value, post value → (rest value).Yields result)
    (hfail : ¬ cond → ∀ e, result (.error (.error (classify e)))) :
    (perform classify run >>= rest).Yields result := by
  intro context
  rw [perform_bind]
  by_cases hc : cond
  · obtain ⟨value, houtcome, hpost⟩ := h.answers hc
    rw [Run.exec_of_outcome_ok houtcome context]
    exact hanswer hc value hpost (run.exec context).2
  · obtain ⟨failure, houtcome⟩ := h.fails hc
    obtain ⟨e, hexec, _⟩ := Run.exec_of_outcome_error houtcome context
    rw [hexec]
    exact hfail hc e

end Session

/-! ## The verifier -/

/-- The results that inputs of the right shape call for. -/
def Inputs.Verdict (layout : Layout) (inputs : Inputs) :
    Except (Stop WitnessError) Verifier.Witness → Prop
  | .ok _ => inputs.WellFormed layout ∧ inputs.Genuine layout
  | .error (.error (.malformedInput _)) => ¬ inputs.WellFormed layout
  | .error (.error (.invalidSignature _)) => inputs.WellFormed layout ∧ ¬ inputs.Genuine layout
  | .error _ => False

namespace Verifier

open Limbs

/-- An accepted layout is the verifier's own, in each of its parts, and reaches beyond the lowest bits
of the padding. -/
structure For (verifier : Verifier) (layout : Layout) : Prop where
  layout_eq : verifier.layout = layout
  padding_layout : verifier.padding.layout = layout
  product_layout : verifier.product.layout = layout
  fits : minModulusBits ≤ layout.totalBits

theorem for_of_ofLayout? {layout : Layout} {verifier : Verifier}
    (h : ofLayout? layout = .ok verifier) : verifier.For layout := by
  unfold ofLayout? at h
  rw [Padding.ofLayout?] at h
  split at h
  · next hfits =>
    obtain rfl := Except.ok.inj h
    exact ⟨rfl, rfl, rfl, hfits⟩
  · cases h

theorem exists_ofLayout? {layout : Layout} (h : minModulusBits ≤ layout.totalBits) :
    ∃ verifier, ofLayout? layout = .ok verifier := by
  unfold ofLayout?
  rw [Padding.ofLayout?, dif_pos h]
  exact ⟨_, rfl⟩

theorem zip_eq_iff {xs ys : List Scalar} (h : xs.length = ys.length) :
    (∀ pair ∈ xs.zip ys, pair.1 = pair.2) ↔ xs = ys := by
  induction xs generalizing ys with
  | nil =>
    have hys : ys = [] := List.length_eq_zero_iff.1 h.symm
    rw [hys]
    exact iff_of_true (by simp) rfl
  | cons x xs ih =>
    cases ys with
    | nil => cases h
    | cons y ys =>
      rw [List.zip_cons_cons, List.forall_mem_cons, ih (Nat.succ.inj h), List.cons.injEq]

theorem assertDecryptsTo_eq {power message : Limbs} (h : power.length = message.length) :
    assertDecryptsTo power message = Run.each assertDecrypted (power.zip message) :=
  Run.ofDomain_bind (zip?_of_length h) _

/-- Comparing the power with the padded message limb by limb compares the integers. -/
theorem assertDecryptsTo_decides {layout : Layout} {power message : Limbs} {v w : Nat}
    (hpower : Holds layout v power) (hmessage : Holds layout w message) :
    (assertDecryptsTo power message).Decides (v = w) fun _ => True := by
  have hlengths : power.length = message.length :=
    hpower.length_eq.trans hmessage.length_eq.symm
  rw [assertDecryptsTo_eq hlengths]
  have heach : (Run.each assertDecrypted (power.zip message)).Decides
      (∀ pair ∈ power.zip message, pair.1 = pair.2) fun _ => True :=
    Run.Decides.each fun _ _ => Run.Decides.check
  refine heach.congr ?_
  rw [zip_eq_iff hlengths]
  constructor
  · rintro rfl
    exact hpower.value_eq.symm.trans hmessage.value_eq
  · rintro rfl
    exact hpower.eq hmessage

section Stages

variable {layout : Layout} {verifier : Verifier} {signature modulus digest : Limbs} {s m : Nat}

theorem padder_decides (h : verifier.For layout) (hmodulus : modulus.length = layout.limbCount)
    (hdigest : digest.length = layout.limbCount) :
    (verifier.padding.component.place "padder" ⟨modulus, digest⟩).Decides
      ((⟨modulus, digest⟩ : Padding.Input).Paddable layout) fun w =>
        Holds layout (Padding.encoded (value layout.limbBits modulus) (value layout.limbBits digest))
          w.paddedMessage := by
  have hrun : (Padding.run layout ⟨modulus, digest⟩).Decides _ _ :=
    Padding.run_decides h.fits hmodulus hdigest
  rw [← h.padding_layout] at hrun ⊢
  exact hrun.place

theorem range_decides (h : verifier.For layout) (signature : Limbs) :
    ((BitSplit.component verifier.layout.limbBits).placeEach "signature_range_check"
      signature).Decides (InRange layout.limbBits signature) fun _ => True := by
  rw [← h.layout_eq]
  exact (BitSplit.decides_each _ _ signature).weaken fun _ _ _ => trivial

theorem comparison_decides (h : verifier.For layout) (hsignature : Holds layout s signature)
    (hmodulus : Holds layout m modulus) :
    ((LimbComparison.component verifier.layout).place "big_less_than" (signature, modulus)).Decides
      True fun w => w.out = Scalar.ofBool (decide (s < m)) := by
  have hrun := LimbComparison.decides layout hsignature.inRange hmodulus.inRange
    hsignature.length_eq hmodulus.length_eq
  rw [hsignature.value_eq, hmodulus.value_eq] at hrun
  rw [h.layout_eq]
  exact hrun.place

/-- A reduced signature has a power. -/
theorem power_decides (h : verifier.For layout) (hsignature : Holds layout s signature)
    (hmodulus : Holds layout m modulus) (hlt : s < m) :
    ((ModularPower.component verifier.product).place "big_pow" ⟨signature, modulus⟩).Decides True
      fun w => Holds layout (s ^ publicExponent % m) w.out := by
  have hreduced := ModularPower.reduced_mul_lt hlt hsignature.lt
  rw [← h.product_layout] at hsignature hmodulus hreduced ⊢
  have hrun := (ModularPower.decides hsignature hmodulus).congr (iff_true_intro hreduced)
  exact (hrun.weaken fun _ _ hw => hw.1).place

end Stages

/-- Inputs of the right shape get the verdict they call for. -/
theorem generate_verdict {layout : Layout} {verifier : Verifier} (h : verifier.For layout)
    {inputs : Inputs} (hshape : inputs.misshapen? layout = none) :
    (verifier.generate inputs).Yields (inputs.Verdict layout) := by
  obtain ⟨hsignature, hmodulus, hdigest⟩ := (Inputs.misshapen?_eq_none_iff layout inputs).1 hshape
  have herror : inputs.shapeError? verifier.layout = none := by
    rw [h.layout_eq, Inputs.shapeError?_eq, hshape]
    rfl
  obtain ⟨signature, modulus, digest⟩ := inputs
  dsimp only at hsignature hmodulus hdigest
  unfold generate
  rw [herror]
  refine Session.yields_perform (padder_decides h hmodulus hdigest)
    (fun hpaddable padding hmessage => ?_) fun hnot e hwell =>
      hnot ⟨hwell.digest_inRange, hwell.modulus_inRange, hwell.digest_lt, hwell.le_modulus⟩
  refine Session.yields_perform (range_decides h signature) (fun hsigRange _ _ => ?_) fun hnot e hwell =>
    hnot hwell.signature_inRange
  have hwell : (⟨signature, modulus, digest⟩ : Inputs).WellFormed layout :=
    ⟨hpaddable.digest_inRange, hpaddable.modulus_inRange, hsigRange, hpaddable.digest_lt,
      hpaddable.le_modulus⟩
  have hholdsSignature : Holds layout _ signature := ⟨hsigRange, hsignature, rfl⟩
  have hholdsModulus : Holds layout _ modulus := ⟨hpaddable.modulus_inRange, hmodulus, rfl⟩
  refine Session.yields_perform (comparison_decides h hholdsSignature hholdsModulus)
    (fun _ comparison hout => ?_) fun hnot => absurd trivial hnot
  have hbelow : (Run.assertEqual comparison.out 1 "signature is below the modulus").Decides
      (value layout.limbBits signature < value layout.limbBits modulus) fun _ => True := by
    refine Run.Decides.check.congr ?_
    rw [hout, Scalar.ofBool_eq_one_iff, decide_eq_true_iff]
  refine Session.yields_perform hbelow (fun hlt _ _ => ?_)
    fun hnot e => ⟨hwell, fun hgenuine => hnot hgenuine.signature_lt⟩
  refine Session.yields_perform (power_decides h hholdsSignature hholdsModulus hlt)
    (fun _ power hpower => ?_) fun hnot => absurd trivial hnot
  refine Session.yields_perform (assertDecryptsTo_decides hpower hmessage)
    (fun heq _ _ => ?_) fun hnot e => ⟨hwell, fun hgenuine => hnot hgenuine.decrypts⟩
  exact Session.yields_pure ⟨hwell, ⟨hlt, heq⟩⟩

/-- A misshapen array ends the check before it starts. -/
theorem generate_of_misshapen {layout : Layout} {verifier : Verifier} (h : verifier.For layout)
    {inputs : Inputs} {signal : InputSignal} (hshape : inputs.misshapen? layout = some signal)
    (context : Context) :
    (verifier.generate inputs).run.run context =
      (.error (.error (.inputLength signal layout.limbCount (inputs.limbs signal).length)),
        context) := by
  unfold generate
  rw [h.layout_eq, Inputs.shapeError?_eq, hshape]
  rfl

/-- A check accepts inputs of the right shape that are well formed and genuine, and no others. -/
theorem accepts_iff {layout : Layout} {verifier : Verifier} (h : verifier.For layout)
    (inputs : Inputs) (context : Context) :
    (∃ w, ((verifier.generate inputs).run.run context).1 = .ok w) ↔
      inputs.misshapen? layout = none ∧ inputs.WellFormed layout ∧ inputs.Genuine layout := by
  cases hshape : inputs.misshapen? layout with
  | some signal =>
    rw [generate_of_misshapen h hshape context]
    refine iff_of_false ?_ fun hnone => ?_
    · rintro ⟨w, hw⟩
      cases hw
    · cases hnone.1
  | none =>
    have hverdict := generate_verdict h hshape context
    constructor
    · rintro ⟨w, hw⟩
      rw [hw] at hverdict
      exact ⟨rfl, hverdict⟩
    · rintro ⟨_, hwell, hgenuine⟩
      cases hresult : ((verifier.generate inputs).run.run context).1 with
      | ok w => exact ⟨w, rfl⟩
      | error stop =>
        rw [hresult] at hverdict
        unfold Inputs.Verdict at hverdict
        split at hverdict
        · next heq => cases heq
        · exact absurd hwell hverdict
        · exact absurd hgenuine hverdict.2
        · exact absurd hverdict id

/-- A check ends with the result that its inputs call for and is never misused.  It is about lengths
iff some array is misshapen, and then no constraint is counted; it is malformed iff the arrays have
their lengths and are not well formed, and invalid iff they are well formed and not genuine. -/
theorem generate_classified {layout : Layout} {verifier : Verifier}
    (h : ofLayout? layout = .ok verifier) (inputs : Inputs) (context : Context) :
    let result := (verifier.generate inputs).run.run context
    (∀ m, result.1 ≠ .error (.misuse m)) ∧
      (∀ e, result.1 ≠ .error (.error (.internal e))) ∧
      (∀ signal expected actual,
        result.1 = .error (.error (.inputLength signal expected actual)) ↔
          inputs.misshapen? layout = some signal ∧ expected = layout.limbCount ∧
            actual = (inputs.limbs signal).length) ∧
      (inputs.misshapen? layout ≠ none → result.2 = context) ∧
      ((∃ e, result.1 = .error (.error (.malformedInput e))) ↔
        inputs.misshapen? layout = none ∧ ¬ inputs.WellFormed layout) ∧
      ((∃ e, result.1 = .error (.error (.invalidSignature e))) ↔
        inputs.misshapen? layout = none ∧ inputs.WellFormed layout ∧ ¬ inputs.Genuine layout) ∧
      ((∃ w, result.1 = .ok w) ↔
        inputs.misshapen? layout = none ∧ inputs.WellFormed layout ∧ inputs.Genuine layout) := by
  have hfor := for_of_ofLayout? h
  intro result
  cases hshape : inputs.misshapen? layout with
  | some signal =>
    have hresult : result = _ := generate_of_misshapen hfor hshape context
    rw [hresult]
    simp only [Except.error.injEq, Stop.error.injEq, WitnessError.inputLength.injEq,
      Option.some.injEq, reduceCtorEq, exists_false, false_and, ne_eq, not_false_eq_true,
      implies_true, true_and, and_true]
    intro signal' expected actual
    constructor
    · rintro ⟨rfl, rfl, rfl⟩
      exact ⟨rfl, rfl, rfl⟩
    · rintro ⟨rfl, rfl, rfl⟩
      exact ⟨rfl, rfl, rfl⟩
  | none =>
    have hverdict : inputs.Verdict layout result.1 := generate_verdict hfor hshape context
    generalize result.1 = outcome at hverdict ⊢
    cases outcome with
    | ok w =>
      obtain ⟨hwell, hgenuine⟩ := hverdict
      simp [hwell, hgenuine]
    | error stop =>
      cases stop with
      | misuse m => exact absurd hverdict id
      | error e =>
        cases e with
        | malformedInput e =>
          have hnot : ¬ inputs.WellFormed layout := hverdict
          simp [hnot]
        | invalidSignature e =>
          obtain ⟨hwell, hnot⟩ := hverdict
          simp [hwell, hnot]
        | missingInput => exact absurd hverdict id
        | inputLength => exact absurd hverdict id
        | inputOverflow => exact absurd hverdict id
        | internal => exact absurd hverdict id
        | layout => exact absurd hverdict id

/-- The product of the primes below 368. -/
def sampleModulus : Nat :=
  12164225777291775545094262227518041831435735609411974226225152299039532954922737365042617099319896354948428967312205572919655268168725818308532229330

/-- A signature of the digest 1. -/
def sampleSignature : Nat :=
  10865027788447444356610692039531846225187613348808215427619470569374104225537454036454549081598732204606881493272331254960682611302121873019898964565

theorem sampleSignature_decrypts :
    sampleSignature ^ publicExponent % sampleModulus = Padding.encoded sampleModulus 1 := by
  decide +kernel

theorem sampleModulus_lt : sampleModulus < pow2 Layout.standard.totalBits := by decide +kernel

theorem sampleSignature_lt : sampleSignature < sampleModulus := by decide +kernel

theorem sample_wellFormed :
    (Inputs.ofSplits .standard sampleSignature sampleModulus 1).WellFormed .standard :=
  (Inputs.wellFormed_ofSplits_iff sampleModulus_lt (by decide +kernel)).2
    ⟨by decide +kernel, by decide +kernel⟩

theorem sample_genuine :
    (Inputs.ofSplits .standard sampleSignature sampleModulus 1).Genuine .standard :=
  (Inputs.genuine_ofSplits_iff (sampleSignature_lt.trans sampleModulus_lt) sampleModulus_lt
    (by decide +kernel)).2 ⟨sampleSignature_lt, sampleSignature_decrypts⟩

theorem generate_classified_sample :
    ∃ verifier, ofLayout? .standard = .ok verifier ∧
      ∃ w, ((verifier.generate (.ofSplits .standard sampleSignature sampleModulus 1)).run.run
        (Context.ofRoot "main")).1 = .ok w := by
  obtain ⟨verifier, hverifier⟩ := @exists_ofLayout? .standard (by decide)
  obtain ⟨_, _, _, _, _, _, haccepts⟩ := generate_classified hverifier
    (.ofSplits .standard sampleSignature sampleModulus 1) (Context.ofRoot "main")
  exact ⟨verifier, hverifier, haccepts.2 ⟨Inputs.misshapen?_ofSplits, sample_wellFormed,
    sample_genuine⟩⟩

end Verifier

end RsaCircuit
