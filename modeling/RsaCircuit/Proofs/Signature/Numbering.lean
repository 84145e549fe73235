import RsaCircuit.Proofs.Component.PaddingPlan
import RsaCircuit.Proofs.Component.ProductPlan
import RsaCircuit.Proofs.Signature.Verdict
import RsaCircuit.Signature.Generator
set_option autoImplicit false

/-!
# The numbering of constraints

A check follows one plan for all inputs of a layout, up to the first check that fails.  So the number
of a constraint says which equation it is and in which instance, whatever the inputs are, and all
accepted inputs have the same constraints, instances and signals.

The verifier classifies the errors of its stages one by one.  Apart from that its stages are one run
(`Verifier.stages`), and classifying an error keeps its constraint.
-/

namespace RsaCircuit

namespace WitnessError

/-- The constraint that failed, if the generation has come to a constraint. -/
def constraint? : WitnessError → Option ConstraintError
  | malformedInput e => some e
  | invalidSignature e => some e
  | internal e => some e
  | missingInput _ => none
  | inputLength _ _ _ => none
  | inputOverflow _ _ => none
  | layout _ => none

end WitnessError

/-! ## Sessions as runs -/

namespace Session

variable {α β : Type}

/-- The session does what the run does, but classifies the constraint that fails. -/
def Performs (session : Session α) (run : Run α) : Prop :=
  ∀ context, ∃ classify : ConstraintError → WitnessError,
    (∀ e, (classify e).constraint? = some e) ∧
      session.run.run context =
        ((run.exec context).1.mapError (Stop.map classify), (run.exec context).2)

theorem performs_pure (value : α) : (pure value : Session α).Performs (pure value) :=
  fun _ => ⟨.internal, fun _ => rfl, rfl⟩

theorem performs_bind {classify : ConstraintError → WitnessError}
    (hclassify : ∀ e, (classify e).constraint? = some e) {run : Run β} {rest : β → Session α}
    {next : β → Run α} (h : ∀ value, (rest value).Performs (next value)) :
    (perform classify run >>= rest).Performs (run >>= next) := by
  intro context
  have hexec : (run >>= next).exec context = _ := Run.exec_bind run next context
  rw [perform_bind, hexec]
  cases run.exec context with
  | mk result after =>
    cases result with
    | ok value => exact h value after
    | error stop => exact ⟨classify, hclassify, rfl⟩

end Session

/-! ## The plan of a check -/

namespace Verifier

variable {verifier : Verifier} {inputs : Inputs}

/-- The stages of a check as one run. -/
def stages (verifier : Verifier) (inputs : Inputs) : Run Witness := do
  let ⟨signature, modulus, digest⟩ := inputs
  let padding ← verifier.padding.component.place "padder" ⟨modulus, digest⟩
  let signatureRange ← (BitSplit.component verifier.layout.limbBits).placeEach
    "signature_range_check" signature
  let comparison ← (LimbComparison.component verifier.layout).place "big_less_than"
    (signature, modulus)
  Run.assertEqual comparison.out 1 "signature is below the modulus"
  let power ← (ModularPower.component verifier.product).place "big_pow" ⟨signature, modulus⟩
  assertDecryptsTo power.out padding.paddedMessage
  return { signature, modulus, digest, padding, signatureRange, comparison, power }

theorem generate_performs (h : inputs.misshapen? verifier.layout = none) :
    (verifier.generate inputs).Performs (verifier.stages inputs) := by
  have hshape : inputs.shapeError? verifier.layout = none := by
    rw [Inputs.shapeError?_eq, h]
    rfl
  unfold generate stages
  rw [hshape]
  refine Session.performs_bind (fun _ => rfl) fun padding => ?_
  refine Session.performs_bind (fun _ => rfl) fun signatureRange => ?_
  refine Session.performs_bind (fun _ => rfl) fun comparison => ?_
  refine Session.performs_bind (fun _ => rfl) fun _ => ?_
  refine Session.performs_bind (fun _ => rfl) fun power => ?_
  exact Session.performs_bind (fun _ => rfl) fun _ => Session.performs_pure _

def plan (verifier : Verifier) : Plan :=
  verifier.padding.component.placePlan (Padding.plan verifier.layout) "padder" ++
    (BitSplit.eachPlan verifier.layout.limbBits "signature_range_check" verifier.layout.limbCount ++
      ((LimbComparison.component verifier.layout).placePlan (LimbComparison.plan verifier.layout)
          "big_less_than" ++
        (Plan.check "signature is below the modulus" ++
          ((ModularPower.component verifier.product).placePlan (ModularPower.plan verifier.product)
              "big_pow" ++
            Plan.repeated verifier.layout.limbCount
              (Plan.check "signature decrypts to the padded message")))))

/-- Number of constraints of a check. -/
def constraintCount (layout : Layout) : Nat :=
  (2 * layout.limbCount * (layout.limbBits + 1) + (layout.totalBits - 256) +
      (layout.totalBits - 424 + 7) / 8 + 65) +
    layout.limbCount * (layout.limbBits + 1) + layout.limbCount * (layout.limbBits + 3) + 1 +
    17 * ModularProduct.constraintCount layout + layout.limbCount

theorem constraintCount_plan (verifier : Verifier) :
    verifier.plan.constraintCount = constraintCount verifier.layout := by
  have hproduct : verifier.product.layout = verifier.layout := verifier.product_layout
  have hbytes : Padding.byteCount verifier.layout = (verifier.layout.totalBits - 424 + 7) / 8 := rfl
  simp only [plan, Plan.constraintCount_append, Component.constraintCount_placePlan,
    Padding.constraintCount_plan, BitSplit.constraintCount_eachPlan,
    LimbComparison.constraintCount_plan, Plan.constraintCount_check,
    ModularPower.constraintCount_plan, Plan.constraintCount_repeated, hproduct, hbytes,
    constraintCount]
  ring

/-- Number of signals of a check. -/
def signalCount (layout : Layout) : Nat :=
  3 * layout.limbCount + Padding.signalCount layout + layout.limbCount * (layout.limbBits + 1) +
    LimbComparison.signalCount layout + ModularPower.signalCount layout

theorem assertDecryptsTo_follows {power message : Limbs} {count : Nat}
    (hpower : power.length = count) (hmessage : message.length = count) :
    (assertDecryptsTo power message).Follows
      (Plan.repeated count (Plan.check "signature decrypts to the padded message"))
      fun _ => True := by
  rw [assertDecryptsTo_eq (hpower.trans hmessage.symm)]
  have heach : (Run.each assertDecrypted (power.zip message)).Follows
      (Plan.repeated (power.zip message).length
        (Plan.check "signature decrypts to the padded message")) fun _ => True :=
    Run.Follows.each (fun _ => rfl) _
  rwa [List.length_zip, hpower, hmessage, Nat.min_self] at heach

/-- The stages follow the plan for all inputs of the right shape. -/
theorem stages_follows (h : inputs.misshapen? verifier.layout = none) :
    (verifier.stages inputs).Follows verifier.plan fun w =>
      w.signals.length = signalCount verifier.layout := by
  obtain ⟨hsignature, hmodulus, hdigest⟩ :=
    (Inputs.misshapen?_eq_none_iff verifier.layout inputs).1 h
  obtain ⟨signature, modulus, digest⟩ := inputs
  dsimp only at hsignature hmodulus hdigest
  have hproduct : verifier.product.layout = verifier.layout := verifier.product_layout
  have hfor : verifier.For verifier.layout := ⟨rfl, rfl, hproduct, verifier.padding.fits⟩
  have hpadder : (verifier.padding.component.place "padder" ⟨modulus, digest⟩).Follows
      (verifier.padding.component.placePlan (Padding.plan verifier.layout) "padder") fun w =>
        w.signals.length = Padding.signalCount verifier.layout ∧
          w.paddedMessage.length = verifier.layout.limbCount :=
    (Padding.follows verifier.padding hmodulus hdigest).place
  refine (hpadder.and_decides (padder_decides hfor hmodulus hdigest)).bind
    fun padding ⟨⟨hpaddingSignals, hmessage⟩, hpaddable, _⟩ => ?_
  refine (BitSplit.each_follows _ _ hsignature).bind fun signatureRange ⟨_, hrange⟩ => ?_
  refine (LimbComparison.follows verifier.layout hsignature hmodulus).place.bind
    fun comparison hcomparison => ?_
  refine Run.Follows.assertEqual.bind fun _ _ => ?_
  -- the padding has found the modulus to be in range and long, so it is not zero
  have hdivisor : ModularPower.Divisor verifier.layout modulus :=
    ⟨hpaddable.modulus_inRange, hmodulus,
      Nat.ne_of_gt ((pow2_pos _).trans_le hpaddable.le_modulus)⟩
  rw [← hproduct] at hsignature hdivisor
  refine (ModularPower.follows hsignature hdivisor).place.bind fun power ⟨hpowerSignals, hpower⟩ => ?_
  rw [hproduct] at hpowerSignals hpower hsignature
  refine (assertDecryptsTo_follows hpower hmessage).bind_done fun _ _ => .done ?_
  simp only [Witness.signals, List.length_flatten, List.map_cons, List.map_nil, List.sum_cons,
    List.sum_nil, hsignature, hmodulus, hdigest, hpaddingSignals, hrange, hcomparison,
    hpowerSignals, signalCount]
  ring

/-! ## What the inputs cannot change -/

/-- A check of inputs of the right shape takes all steps of the plan, or the error belongs to one of
its checks. -/
theorem generate_cases (h : inputs.misshapen? verifier.layout = none) (context : Context) :
    let result := (verifier.generate inputs).run.run context
    (∃ w, result.1 = .ok w ∧ w.signals.length = signalCount verifier.layout ∧
        context.Accounts verifier.plan result.2) ∨
      ∃ error e, result.1 = .error (.error error) ∧ error.constraint? = some e ∧
        e.Planned verifier.plan context result.2 := by
  obtain ⟨classify, hclassify, hresult⟩ := generate_performs h context
  rw [hresult]
  rcases (stages_follows h).exec_cases context with ⟨w, hw, hcount, haccounts⟩ | ⟨e, he, hplanned⟩
  · rw [hw]
    exact Or.inl ⟨w, rfl, hcount, haccounts⟩
  · rw [he]
    exact Or.inr ⟨classify e, e, rfl, hclassify e, hplanned⟩

theorem accounts_of_accepted (h : inputs.misshapen? verifier.layout = none) {context : Context}
    {w : Witness} (hw : ((verifier.generate inputs).run.run context).1 = .ok w) :
    w.signals.length = signalCount verifier.layout ∧
      context.Accounts verifier.plan ((verifier.generate inputs).run.run context).2 := by
  rcases generate_cases h context with ⟨w', hw', hsignals, haccounts⟩ | ⟨error, e, herror, _, _⟩
  · obtain rfl := Except.ok.inj (hw.symm.trans hw')
    exact ⟨hsignals, haccounts⟩
  · cases hw.symm.trans herror

theorem planned_of_rejected (h : inputs.misshapen? verifier.layout = none) {context : Context}
    {stop : Stop WitnessError}
    (hstop : ((verifier.generate inputs).run.run context).1 = .error stop) :
    ∃ error e, stop = .error error ∧ error.constraint? = some e ∧
      e.Planned verifier.plan context ((verifier.generate inputs).run.run context).2 := by
  rcases generate_cases h context with ⟨w, hw, _, _⟩ | ⟨error, e, herror, hconstraint, hplanned⟩
  · cases hstop.symm.trans hw
  · exact ⟨error, e, Except.error.inj (hstop.symm.trans herror), hconstraint, hplanned⟩

/-- The shape of the circuit and the numbers of its constraints depend on the layout alone.  Accepted
inputs have one number of constraints, one number of instances of every component and witness vectors
of one length.  Rejected inputs fail the constraint that was counted last, and its number determines
the instance that it belongs to and what it checks. -/
theorem numbering_of_layout {layout : Layout} {verifier : Verifier}
    (h : ofLayout? layout = .ok verifier) :
    let n := layout.limbBits
    let k := layout.limbCount
    let productCount := 4 * k * (n + 1) + (2 * k - 2) * (n + bitLength k + 7) + 1
    let count := (2 * k * (n + 1) + (n * k - 256) + (n * k - 424 + 7) / 8 + 65) + k * (n + 1) +
      k * (n + 3) + 1 + 17 * productCount + k
    let result := fun inputs => (verifier.generate inputs).run.run (Context.ofRoot "main")
    (∀ inputs, inputs.misshapen? layout = none →
      (∀ w, (result inputs).1 = .ok w → (result inputs).2.constraintCount = count) ∧
        ∀ stop, (result inputs).1 = .error stop →
          ∃ error e description lhs rhs, stop = .error error ∧ error.constraint? = some e ∧
            e.cause = .unequal description lhs rhs ∧
            e.index + 1 = (result inputs).2.constraintCount ∧ e.index < count) ∧
    ∀ inputs inputs', inputs.misshapen? layout = none → inputs'.misshapen? layout = none →
      (∀ w w' : SignatureWitness,
        (result inputs).1 = .ok w.check → (result inputs').1 = .ok w'.check →
          (∀ name, (result inputs).2.profile.invocations name =
            (result inputs').2.profile.invocations name) ∧
          w.vector.length = w'.vector.length) ∧
      ∀ error error' e e',
        (result inputs).1 = .error (.error error) → (result inputs').1 = .error (.error error') →
          error.constraint? = some e → error'.constraint? = some e' → e.index = e'.index →
            e.path = e'.path ∧ e.cause.description? = e'.cause.description? := by
  intro n k productCount count result
  obtain rfl : verifier.layout = layout := (for_of_ofLayout? h).layout_eq
  have hcount : verifier.plan.constraintCount = count := constraintCount_plan verifier
  refine ⟨fun inputs hshape => ⟨?_, ?_⟩, fun inputs inputs' hshape hshape' => ⟨?_, ?_⟩⟩
  · intro w hw
    rw [(accounts_of_accepted hshape hw).2.constraintCount, ← hcount]
    exact Nat.zero_add _
  · intro stop hstop
    obtain ⟨error, e, rfl, hconstraint, hplanned⟩ := planned_of_rejected hshape hstop
    obtain ⟨description, lhs, rhs, hcause⟩ := hplanned.unequal
    have hlt : e.index < 0 + verifier.plan.constraintCount := hplanned.index_lt
    rw [Nat.zero_add, hcount] at hlt
    exact ⟨error, e, description, lhs, rhs, rfl, hconstraint, hcause, hplanned.index_succ, hlt⟩
  · intro w w' hw hw'
    obtain ⟨hsignals, haccounts⟩ := accounts_of_accepted hshape hw
    obtain ⟨hsignals', haccounts'⟩ := accounts_of_accepted hshape' hw'
    refine ⟨fun name => (haccounts.invocations name).trans (haccounts'.invocations name).symm, ?_⟩
    rw [SignatureWitness.length_vector, SignatureWitness.length_vector, SignatureWitness.signalCount,
      SignatureWitness.signalCount, hsignals, hsignals']
  · intro error error' e e' herror herror' he he' hindex
    obtain ⟨_, d, hstop, hconstraint, hplanned⟩ := planned_of_rejected hshape herror
    obtain ⟨_, d', hstop', hconstraint', hplanned'⟩ := planned_of_rejected hshape' herror'
    obtain rfl := Stop.error.inj hstop
    obtain rfl := Stop.error.inj hstop'
    obtain rfl := Option.some.inj (he.symm.trans hconstraint)
    obtain rfl := Option.some.inj (he'.symm.trans hconstraint')
    exact hplanned.eq_of_index_eq hplanned' hindex

theorem numbering_of_layout_sample :
    ∃ verifier, ofLayout? .standard = .ok verifier ∧
      ((verifier.generate (.ofSplits .standard sampleSignature sampleModulus 1)).run.run
        (Context.ofRoot "main")).2.constraintCount = 426550 ∧
      ∃ error e, ((verifier.generate (.ofSplits .standard 0 sampleModulus 1)).run.run
        (Context.ofRoot "main")).1 = .error (.error error) ∧ error.constraint? = some e ∧
          e.index < 426550 := by
  obtain ⟨verifier, hverifier⟩ := @exists_ofLayout? .standard (by decide)
  have hfor := for_of_ofLayout? hverifier
  obtain ⟨hone, _⟩ := numbering_of_layout hverifier
  refine ⟨verifier, hverifier, ?_, ?_⟩
  · obtain ⟨w, hw⟩ := (accepts_iff hfor _ (Context.ofRoot "main")).2
      ⟨Inputs.misshapen?_ofSplits, sample_wellFormed, sample_genuine⟩
    exact (hone _ Inputs.misshapen?_ofSplits).1 w hw
  · have hrejects : ¬ ∃ w, ((verifier.generate (.ofSplits .standard 0 sampleModulus 1)).run.run
        (Context.ofRoot "main")).1 = .ok w := by
      rw [accepts_iff hfor, Inputs.genuine_ofSplits_iff (pow2_pos _) sampleModulus_lt
        (by decide +kernel)]
      exact fun h => absurd h.2.2.2 (by decide +kernel)
    cases hresult : ((verifier.generate (.ofSplits .standard 0 sampleModulus 1)).run.run
        (Context.ofRoot "main")).1 with
    | ok w => exact absurd ⟨w, hresult⟩ hrejects
    | error stop =>
      obtain ⟨error, e, _, _, _, rfl, hconstraint, _, _, hlt⟩ :=
        (hone _ Inputs.misshapen?_ofSplits).2 stop hresult
      exact ⟨error, e, rfl, hconstraint, hlt⟩

end Verifier

end RsaCircuit
