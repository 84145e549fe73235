import Mathlib.Data.List.Forall2
import RsaCircuit.Run.Context
set_option autoImplicit false

/-!
# Outcomes: what a run ends with, wherever it takes place

The outcome of a run is what is left of its performance without a context: a result, a failing check
with the instance inside the run that it belongs to, or a misuse.  Performing a run gives its outcome
(`Run.exec_outcome`), so everything a component promises about its result is stated of the outcome.

`Run.Decides` is the form of these promises.  A run *decides* a condition if it has a result when the
condition holds and fails a check when it does not; it is never misused.  Conditions add up along a
sequence (`Run.Decides.bind`), so the condition of a component is the conjunction of the conditions
of its parts.
-/

namespace RsaCircuit

/-- A failing check: the instance it belongs to, from the run inwards, and the cause. -/
structure Failure where
  place : InstancePath
  cause : FailureCause
  deriving DecidableEq, Repr

namespace Failure

/-- The same failure, seen from outside the instance `label`. -/
def inside (label : String) (failure : Failure) : Failure :=
  { failure with place := failure.place ++ [label] }

/-- The same failure, seen from the root of a context. -/
def under (path : InstancePath) (failure : Failure) : Failure :=
  { failure with place := failure.place ++ path }

theorem under_inside (path : InstancePath) (label : String) (failure : Failure) :
    (failure.inside label).under path = failure.under (label :: path) := by
  unfold under inside
  rw [List.append_assoc, List.singleton_append]

end Failure

theorem Stop.map_map {ε δ ζ : Type} (f : ε → δ) (g : δ → ζ) (stop : Stop ε) :
    (stop.map f).map g = stop.map fun e => g (f e) := by
  cases stop <;> rfl

theorem Stop.map_eq_misuse_iff {ε δ : Type} (f : ε → δ) {stop : Stop ε} {m : Misuse} :
    stop.map f = .misuse m ↔ stop = .misuse m := by
  cases stop with
  | error e => exact ⟨fun h => (nomatch h), fun h => (nomatch h)⟩
  | misuse m' =>
    exact ⟨fun h => congrArg _ (Stop.misuse.inj h), fun h => congrArg _ (Stop.misuse.inj h)⟩

/-- Restating errors neither makes nor hides a misuse. -/
theorem mapError_map_eq_misuse_iff {ε δ α : Type} (f : ε → δ) {result : Except (Stop ε) α}
    {m : Misuse} :
    result.mapError (Stop.map f) = .error (.misuse m) ↔ result = .error (.misuse m) := by
  cases result with
  | ok value => exact ⟨fun h => (nomatch h), fun h => (nomatch h)⟩
  | error stop =>
    rw [Except.mapError, Except.error.injEq, Except.error.injEq, Stop.map_eq_misuse_iff]

namespace Run

/-- What a run ends with. -/
def outcome {α : Type} : Run α → Except (Stop Failure) α
  | .done value => .ok value
  | .check lhs rhs description next =>
    if lhs = rhs then next.outcome else .error (.error ⟨[], .unequal description lhs rhs⟩)
  | .fail e => .error (.error ⟨[], .arithmetic e⟩)
  | .misuse m => .error (.misuse m)
  | .note _ next => next.outcome
  | .within label _ body next =>
    match body.outcome with
    | .ok value => (next value).outcome
    | .error stop => .error (stop.map (Failure.inside label))

theorem outcome_bind {α β : Type} (run : Run α) (f : α → Run β) :
    (run >>= f).outcome = run.outcome.bind fun value => (f value).outcome := by
  change (run.bind f).outcome = _
  induction run with
  | done => rfl
  | check lhs rhs description next ih =>
    simp only [bind, outcome]
    split
    · exact ih f
    · rfl
  | fail => rfl
  | misuse => rfl
  | note event next ih => exact ih f
  | within label name body next _ ih =>
    simp only [bind, outcome]
    cases body.outcome with
    | ok value => exact ih value f
    | error => rfl

/-- A sequence has a result iff both of its parts have. -/
theorem outcome_bind_eq_ok {α β : Type} {run : Run α} {f : α → Run β} {result : β} :
    (run >>= f).outcome = .ok result ↔
      ∃ value, run.outcome = .ok value ∧ (f value).outcome = .ok result := by
  rw [outcome_bind]
  cases run.outcome with
  | ok value =>
    constructor
    · intro h
      exact ⟨value, rfl, h⟩
    · rintro ⟨value', heq, h⟩
      obtain rfl : value = value' := Except.ok.inj heq
      exact h
  | error stop =>
    constructor
    · intro h
      cases h
    · rintro ⟨value', heq, _⟩
      cases heq

theorem outcome_ofDomain_eq_ok {α : Type} {operation : Except Misuse α} {value : α} :
    (ofDomain operation).outcome = .ok value ↔ operation = .ok value := by
  cases operation with
  | ok value' =>
    constructor
    · intro h
      exact congrArg _ (Except.ok.inj h)
    · intro h
      exact congrArg _ (Except.ok.inj h)
  | error m =>
    constructor
    · intro h
      cases h
    · intro h
      cases h

/-- An arithmetic error is a failure of the run itself. -/
theorem outcome_ofArithmetic {α : Type} (result : Except (Stop ArithmeticError) α) :
    (ofArithmetic result).outcome =
      result.mapError (Stop.map fun e => Failure.mk [] (.arithmetic e)) := by
  cases result with
  | ok value => rfl
  | error stop => cases stop <;> rfl

theorem outcome_place {α β : Type} (component : Component α β) (label : String) (input : α) :
    (component.place label input).outcome =
      (component.run input).outcome.mapError (Stop.map (Failure.inside label)) := by
  simp only [Component.place, outcome]
  cases (component.run input).outcome <;> rfl

/-! ## Outcome and performance -/

/-- A performed run leaves the context at the instance where it started. -/
theorem exec_path {α : Type} (run : Run α) (context : Context) :
    (run.exec context).2.path = context.path := by
  induction run generalizing context with
  | done => rfl
  | check lhs rhs description next ih =>
    rw [exec]
    split
    · exact ih context.countConstraint
    · rfl
  | fail => rfl
  | misuse => rfl
  | note event next ih => exact ih (context.record (event context.path))
  | within label name body next ihb ih =>
    have hbody := ihb (context.enter label name)
    rw [exec]
    cases hexec : body.exec (context.enter label name) with
    | mk result inner =>
      rw [hexec] at hbody
      have hpath : (inner.leave name).path = context.path := by
        change inner.path.tail = context.path
        rw [hbody]
        rfl
      cases result with
      | ok value => exact (ih value (inner.leave name)).trans hpath
      | error stop => exact hpath

/-- Performing a run gives its outcome; the path of a failing check goes on from the path of the
context. -/
theorem exec_outcome {α : Type} (run : Run α) (context : Context) :
    (run.exec context).1.mapError (Stop.map fun e => Failure.mk e.path e.cause) =
      run.outcome.mapError (Stop.map (Failure.under context.path)) := by
  induction run generalizing context with
  | done => rfl
  | check lhs rhs description next ih =>
    rw [exec, outcome]
    split
    · exact ih context.countConstraint
    · rfl
  | fail => rfl
  | misuse => rfl
  | note event next ih => exact ih (context.record (event context.path))
  | within label name body next ihb ih =>
    have hbody := ihb (context.enter label name)
    have hpath := exec_path body (context.enter label name)
    rw [exec, outcome]
    cases hexec : body.exec (context.enter label name) with
    | mk result inner =>
      rw [hexec] at hbody hpath
      have hleave : (inner.leave name).path = context.path := by
        change inner.path.tail = context.path
        rw [hpath]
        rfl
      cases result with
      | ok value =>
        cases hout : body.outcome with
        | ok value' =>
          rw [hout] at hbody
          obtain rfl : value = value' := Except.ok.inj hbody
          rw [← hleave]
          exact ih value (inner.leave name)
        | error stop' => rw [hout] at hbody; cases hbody
      | error stop =>
        cases hout : body.outcome with
        | ok value' => rw [hout] at hbody; cases hbody
        | error stop' =>
          rw [hout] at hbody
          -- the label that the outcome notes is the one the context has entered
          have hinside : (stop'.map (Failure.inside label)).map (Failure.under context.path) =
              stop'.map (Failure.under (context.enter label name).path) := by
            rw [Stop.map_map]
            exact congrArg stop'.map (funext (Failure.under_inside context.path label))
          simp only [Except.mapError]
          rw [hinside]
          exact congrArg Except.error (Except.error.inj hbody)

theorem exec_of_outcome_ok {α : Type} {run : Run α} {value : α} (h : run.outcome = .ok value)
    (context : Context) : (run.exec context).1 = .ok value := by
  have hexec := exec_outcome run context
  rw [h] at hexec
  cases hresult : (run.exec context).1 with
  | ok value' => rw [hresult] at hexec; exact congrArg _ (Except.ok.inj hexec)
  | error stop => rw [hresult] at hexec; cases hexec

theorem exec_of_outcome_error {α : Type} {run : Run α} {failure : Failure}
    (h : run.outcome = .error (.error failure)) (context : Context) :
    ∃ e, (run.exec context).1 = .error (.error e) ∧ e.path = failure.place ++ context.path ∧
      e.cause = failure.cause := by
  have hexec := exec_outcome run context
  rw [h] at hexec
  cases hresult : (run.exec context).1 with
  | ok value => rw [hresult] at hexec; cases hexec
  | error stop =>
    rw [hresult] at hexec
    cases stop with
    | error e =>
      obtain ⟨hpath, hcause⟩ := Failure.mk.inj (Stop.error.inj (Except.error.inj hexec))
      exact ⟨e, rfl, hpath, hcause⟩
    | misuse m => cases Except.error.inj hexec

theorem exec_eq_ok_iff {α : Type} {run : Run α} {context : Context} {value : α} :
    (run.exec context).1 = .ok value ↔ run.outcome = .ok value := by
  constructor
  · intro h
    have hexec := exec_outcome run context
    rw [h] at hexec
    cases hresult : run.outcome with
    | ok value' =>
      rw [hresult] at hexec
      exact congrArg _ (Except.ok.inj hexec).symm
    | error stop => rw [hresult] at hexec; cases hexec
  · intro h
    exact exec_of_outcome_ok h context

theorem exec_eq_misuse_iff {α : Type} {run : Run α} {context : Context} {m : Misuse} :
    (run.exec context).1 = .error (.misuse m) ↔ run.outcome = .error (.misuse m) := by
  rw [← mapError_map_eq_misuse_iff fun e : ConstraintError => Failure.mk e.path e.cause,
    exec_outcome, mapError_map_eq_misuse_iff]

/-- A sequence is misused iff a part of it is that is reached. -/
theorem outcome_bind_eq_misuse_iff {α β : Type} {run : Run α} {f : α → Run β} {m : Misuse} :
    (run >>= f).outcome = .error (.misuse m) ↔ run.outcome = .error (.misuse m) ∨
      ∃ value, run.outcome = .ok value ∧ (f value).outcome = .error (.misuse m) := by
  rw [outcome_bind]
  cases run.outcome with
  | ok value =>
    constructor
    · exact fun h => Or.inr ⟨value, rfl, h⟩
    · rintro (h | ⟨value', heq, h⟩)
      · cases h
      · obtain rfl : value = value' := Except.ok.inj heq
        exact h
  | error stop =>
    constructor
    · exact fun h => Or.inl (congrArg _ (Except.error.inj h))
    · rintro (h | ⟨value', heq, _⟩)
      · exact congrArg _ (Except.error.inj h)
      · cases heq

/-! ## Witnesses of many inputs -/

/-- A part of every witness that is a function of its input. -/
theorem map_eq_map_of_forall₂ {α β γ : Type} {f : α → γ} {part : β → γ} {inputs : List α}
    {witnesses : List β} (h : List.Forall₂ (fun x w => part w = f x) inputs witnesses) :
    witnesses.map part = inputs.map f := by
  induction h with
  | nil => rfl
  | cons hx _ ih => rw [List.map_cons, List.map_cons, hx, ih]

/-- Witnesses that are functions of their inputs. -/
theorem eq_map_of_forall₂ {α β : Type} {f : α → β} {inputs : List α} {witnesses : List β}
    (h : List.Forall₂ (fun x w => w = f x) inputs witnesses) : witnesses = inputs.map f := by
  have hmap : witnesses.map id = inputs.map f := map_eq_map_of_forall₂ h
  rw [← hmap, List.map_id]

/-! ## Deciding a condition -/

/-- The run has a result with the property `post` if `cond` holds, and otherwise a check fails. -/
structure Decides {α : Type} (run : Run α) (cond : Prop) (post : α → Prop) : Prop where
  answers : cond → ∃ value, run.outcome = .ok value ∧ post value
  fails : ¬ cond → ∃ failure, run.outcome = .error (.error failure)

namespace Decides

variable {α β : Type} {run : Run α} {cond cond' : Prop} {post : α → Prop}

theorem congr (h : run.Decides cond post) (hcond : cond ↔ cond') : run.Decides cond' post where
  answers hc := h.answers (hcond.2 hc)
  fails hc := h.fails fun hc' => hc (hcond.1 hc')

theorem weaken {post' : α → Prop} (h : run.Decides cond post)
    (hpost : cond → ∀ value, post value → post' value) : run.Decides cond post' where
  answers hc := by
    obtain ⟨value, heq, hv⟩ := h.answers hc
    exact ⟨value, heq, hpost hc value hv⟩
  fails := h.fails

theorem ne_misuse (h : run.Decides cond post) (m : Misuse) : run.outcome ≠ .error (.misuse m) := by
  intro hm
  by_cases hc : cond
  · obtain ⟨value, heq, _⟩ := h.answers hc
    cases hm.symm.trans heq
  · obtain ⟨failure, heq⟩ := h.fails hc
    cases hm.symm.trans heq

/-- After a first part that decides a condition, only the rest can be misused. -/
theorem bind_eq_misuse_iff {f : α → Run β} {m : Misuse} (h : run.Decides cond post) :
    (run >>= f).outcome = .error (.misuse m) ↔
      ∃ value, run.outcome = .ok value ∧ (f value).outcome = .error (.misuse m) := by
  rw [outcome_bind_eq_misuse_iff, or_iff_right (h.ne_misuse m)]

/-- A run that has a result has met its condition. -/
theorem of_ok (h : run.Decides cond post) {value : α} (hok : run.outcome = .ok value) :
    cond ∧ post value := by
  by_cases hc : cond
  · obtain ⟨value', heq, hv⟩ := h.answers hc
    obtain rfl : value = value' := Except.ok.inj (hok.symm.trans heq)
    exact ⟨hc, hv⟩
  · obtain ⟨failure, heq⟩ := h.fails hc
    cases hok.symm.trans heq

theorem of_exec_ok (h : run.Decides cond post) {context : Context} {value : α}
    (hok : (run.exec context).1 = .ok value) : cond ∧ post value :=
  h.of_ok (exec_eq_ok_iff.1 hok)

/-- Performing the run in any context gives a result iff the condition holds. -/
theorem exec_ok_iff (h : run.Decides cond post) (context : Context) :
    (∃ value, (run.exec context).1 = .ok value) ↔ cond := by
  constructor
  · rintro ⟨value, hok⟩
    exact (h.of_exec_ok hok).1
  · intro hc
    obtain ⟨value, houtcome, _⟩ := h.answers hc
    exact ⟨value, exec_of_outcome_ok houtcome context⟩

theorem done {value : α} (h : post value) : (pure value : Run α).Decides True post where
  answers _ := ⟨value, rfl, h⟩
  fails hc := absurd trivial hc

/-- Along a sequence the conditions add up. -/
theorem bind {f : α → Run β} {post' : β → Prop} (h : run.Decides cond post)
    (hf : cond → ∀ value, post value → (f value).Decides cond' post') :
    (run >>= f).Decides (cond ∧ cond') post' where
  answers hc := by
    obtain ⟨value, heq, hv⟩ := h.answers hc.1
    obtain ⟨result, heq', hr⟩ := (hf hc.1 value hv).answers hc.2
    exact ⟨result, by rw [outcome_bind, heq, Except.bind, heq'], hr⟩
  fails hc := by
    by_cases hc1 : cond
    · obtain ⟨value, heq, hv⟩ := h.answers hc1
      obtain ⟨failure, heq'⟩ := (hf hc1 value hv).fails fun hc2 => hc ⟨hc1, hc2⟩
      exact ⟨failure, by rw [outcome_bind, heq, Except.bind, heq']⟩
    · obtain ⟨failure, heq⟩ := h.fails hc1
      exact ⟨failure, by rw [outcome_bind, heq, Except.bind]⟩

/-- A first part that always has a result does not add to the condition. -/
theorem bind_total {f : α → Run β} {post' : β → Prop} (h : run.Decides True post)
    (hf : ∀ value, post value → (f value).Decides cond post') : (run >>= f).Decides cond post' :=
  (h.bind fun _ => hf).congr (iff_of_eq (true_and _))

/-- A last part that always has a result does not add to the condition. -/
theorem bind_done {f : α → Run β} {post' : β → Prop} (h : run.Decides cond post)
    (hf : cond → ∀ value, post value → (f value).Decides True post') :
    (run >>= f).Decides cond post' :=
  (h.bind hf).congr (iff_of_eq (and_true _))

theorem check {lhs rhs : Scalar} {description : String} :
    (assertEqual lhs rhs description).Decides (lhs = rhs) fun _ => True where
  answers h := ⟨(), if_pos h, trivial⟩
  fails h := ⟨_, if_neg h⟩

theorem each {f : α → Run Unit} {cond : α → Prop} {xs : List α}
    (h : ∀ x ∈ xs, (f x).Decides (cond x) fun _ => True) :
    (Run.each f xs).Decides (∀ x ∈ xs, cond x) fun _ => True := by
  induction xs with
  | nil => exact (done trivial).congr (by simp)
  | cons x xs ih =>
    have hhead := h x List.mem_cons_self
    have htail := ih fun y hy => h y (List.mem_cons_of_mem x hy)
    exact (hhead.bind fun _ _ _ => htail).congr (by simp)

/-- Reports never fail. -/
theorem reports (events : List Event) : (Run.each report events).Decides True fun _ => True := by
  have hreport : ∀ event ∈ events, (report event).Decides True fun _ => True :=
    fun event _ => ⟨fun _ => ⟨(), rfl, trivial⟩, fun h => absurd trivial h⟩
  exact (each hreport).congr (by simp)

/-! ## Components -/

theorem place {component : Component α β} {label : String} {input : α} {post : β → Prop}
    (h : (component.run input).Decides cond post) :
    (component.place label input).Decides cond post where
  answers hc := by
    obtain ⟨value, heq, hv⟩ := h.answers hc
    exact ⟨value, by rw [outcome_place, heq, Except.mapError], hv⟩
  fails hc := by
    obtain ⟨failure, heq⟩ := h.fails hc
    exact ⟨failure.inside label, by rw [outcome_place, heq, Except.mapError, Stop.map_error]⟩

theorem placeAll {component : Component α β} {cond : α → Prop} {post : α → β → Prop}
    {entries : List (String × α)}
    (h : ∀ x ∈ entries.map Prod.snd, (component.run x).Decides (cond x) (post x)) :
    (component.placeAll entries).Decides (∀ x ∈ entries.map Prod.snd, cond x) fun witnesses =>
      List.Forall₂ post (entries.map Prod.snd) witnesses := by
  induction entries with
  | nil => exact (done List.Forall₂.nil).congr (by simp)
  | cons entry entries ih =>
    have hhead : (component.place entry.1 entry.2).Decides _ _ :=
      (h entry.2 List.mem_cons_self).place
    have htail := ih fun x hx => h x (List.mem_cons_of_mem entry.2 hx)
    have hall := hhead.bind fun _ witness hw =>
      htail.bind_done fun _ witnesses hws => done (List.Forall₂.cons hw hws)
    exact hall.congr (by simp)

/-- The inputs under their labels are the inputs. -/
theorem map_snd_numbered (label : String) (inputs : List α) :
    (Component.numbered label inputs).map Prod.snd = inputs := by
  have hfun : (Prod.snd ∘ fun (p : α × Nat) => (s!"{label}[{p.2}]", p.1)) = Prod.fst := rfl
  rw [Component.numbered, List.map_map, hfun, List.zipIdx_map_fst 0]

theorem placeEach {component : Component α β} {label : String} {cond : α → Prop}
    {post : α → β → Prop} {inputs : List α}
    (h : ∀ x ∈ inputs, (component.run x).Decides (cond x) (post x)) :
    (component.placeEach label inputs).Decides (∀ x ∈ inputs, cond x) fun witnesses =>
      List.Forall₂ post inputs witnesses := by
  have hentries : ∀ x ∈ (Component.numbered label inputs).map Prod.snd,
      (component.run x).Decides (cond x) (post x) := by
    rw [map_snd_numbered]
    exact h
  have hall := placeAll hentries
  rw [map_snd_numbered] at hall
  exact hall

theorem placeDown {component : Component α β} {label : String} {cond : α → Prop}
    {post : α → β → Prop} {inputs : List α}
    (h : ∀ x ∈ inputs, (component.run x).Decides (cond x) (post x)) :
    (component.placeDown label inputs).Decides (∀ x ∈ inputs, cond x) fun witnesses =>
      List.Forall₂ post inputs witnesses := by
  have hentries : ∀ x ∈ (Component.numbered label inputs).reverse.map Prod.snd,
      (component.run x).Decides (cond x) (post x) := by
    rw [List.map_reverse, map_snd_numbered]
    exact fun x hx => h x (List.mem_reverse.1 hx)
  have hall := placeAll hentries
  rw [List.map_reverse, map_snd_numbered] at hall
  refine (hall.bind_done fun _ witnesses hws => done ?_).congr (by simp only [List.mem_reverse])
  rw [← List.reverse_reverse inputs]
  exact List.forall₂_reverse_iff.2 hws

section Parts

variable {γ : Type} {component : Component α β} {label : String} {inputs : List α} {f : α → γ}
  {part : β → γ}

/-- Components that always have a result, with a part that is a function of the input. -/
theorem placeEach_map (h : ∀ x ∈ inputs, (component.run x).Decides True fun w => part w = f x) :
    (component.placeEach label inputs).Decides True fun witnesses =>
      witnesses.map part = inputs.map f :=
  ((placeEach h).congr (by simp)).weaken fun _ _ hws => map_eq_map_of_forall₂ hws

theorem placeDown_map (h : ∀ x ∈ inputs, (component.run x).Decides True fun w => part w = f x) :
    (component.placeDown label inputs).Decides True fun witnesses =>
      witnesses.map part = inputs.map f :=
  ((placeDown h).congr (by simp)).weaken fun _ _ hws => map_eq_map_of_forall₂ hws

end Parts

end Decides

/-! ## Where a run fails -/

/-- The run fails a check, or has an arithmetic error, and the failure is of the given kind. -/
def FailsWith {α : Type} (run : Run α) (kind : Failure → Prop) : Prop :=
  ∃ failure, run.outcome = .error (.error failure) ∧ kind failure

namespace FailsWith

variable {α β : Type} {run : Run α} {f : α → Run β} {kind : Failure → Prop}

theorem weaken {kind' : Failure → Prop} (h : run.FailsWith kind)
    (hkind : ∀ failure, kind failure → kind' failure) : run.FailsWith kind' := by
  obtain ⟨failure, hfailure, hk⟩ := h
  exact ⟨failure, hfailure, hkind failure hk⟩

theorem bind_left (h : run.FailsWith kind) : (run >>= f).FailsWith kind := by
  obtain ⟨failure, hfailure, hkind⟩ := h
  exact ⟨failure, by rw [outcome_bind, hfailure, Except.bind], hkind⟩

/-- After a part that has a result, the rest fails. -/
theorem bind_right {cond : Prop} {post : α → Prop} (h : run.Decides cond post) (hc : cond)
    (hf : ∀ value, post value → (f value).FailsWith kind) : (run >>= f).FailsWith kind := by
  obtain ⟨value, hvalue, hpost⟩ := h.answers hc
  obtain ⟨failure, hfailure, hkind⟩ := hf value hpost
  exact ⟨failure, by rw [outcome_bind, hvalue, Except.bind, hfailure], hkind⟩

theorem check {lhs rhs : Scalar} {description : String} (h : lhs ≠ rhs) :
    (assertEqual lhs rhs description).FailsWith fun failure =>
      failure = ⟨[], .unequal description lhs rhs⟩ :=
  ⟨_, if_neg h, rfl⟩

/-- If not all elements meet the condition, the first of the others decides the failure. -/
theorem each {f : α → Run Unit} {cond : α → Prop} {xs : List α}
    (h : ∀ x ∈ xs, (f x).Decides (cond x) fun _ => True)
    (hkind : ∀ x ∈ xs, ¬ cond x → (f x).FailsWith kind) (hnot : ¬ ∀ x ∈ xs, cond x) :
    (Run.each f xs).FailsWith kind := by
  induction xs with
  | nil => exact absurd (List.forall_mem_nil cond) hnot
  | cons x xs ih =>
    by_cases hx : cond x
    · have htail : ¬ ∀ y ∈ xs, cond y := fun hall => hnot (List.forall_mem_cons.2 ⟨hx, hall⟩)
      exact bind_right (h x List.mem_cons_self) hx fun _ _ =>
        ih (fun y hy => h y (List.mem_cons_of_mem x hy))
          (fun y hy => hkind y (List.mem_cons_of_mem x hy)) htail
    · exact bind_left (hkind x List.mem_cons_self hx)

/-- A failure of a component belongs to an instance inside the one it runs in. -/
theorem place {component : Component α β} {label : String} {input : α}
    (h : (component.run input).FailsWith fun failure => kind (failure.inside label)) :
    (component.place label input).FailsWith kind := by
  obtain ⟨failure, hfailure, hkind⟩ := h
  refine ⟨failure.inside label, ?_, hkind⟩
  rw [outcome_place, hfailure, Except.mapError, Stop.map_error]

/-- A component that decides a condition fails inside its instance if the condition does not hold. -/
theorem place_of_decides {component : Component α β} {input : α} {cond : Prop} {post : β → Prop}
    (h : (component.run input).Decides cond post) (hnot : ¬ cond) (label : String) :
    (component.place label input).FailsWith fun failure =>
      ∃ inner, failure.place = inner ++ [label] := by
  apply place
  obtain ⟨failure, hfailure⟩ := h.fails hnot
  exact ⟨failure, hfailure, failure.place, rfl⟩

/-- Performing the run in a context gives the error of the failure, with the path of the context
behind its place. -/
theorem exec (h : run.FailsWith kind) (context : Context) :
    ∃ e failure, (run.exec context).1 = .error (.error e) ∧ kind failure ∧
      e.path = failure.place ++ context.path ∧ e.cause = failure.cause := by
  obtain ⟨failure, hfailure, hkind⟩ := h
  obtain ⟨e, hexec, hpath, hcause⟩ := exec_of_outcome_error hfailure context
  exact ⟨e, failure, hexec, hkind, hpath, hcause⟩

theorem exec_eq {failure : Failure} (h : run.FailsWith fun failure' => failure' = failure)
    (context : Context) :
    ∃ e, (run.exec context).1 = .error (.error e) ∧ e.path = failure.place ++ context.path ∧
      e.cause = failure.cause := by
  obtain ⟨e, _, hexec, rfl, hpath, hcause⟩ := h.exec context
  exact ⟨e, hexec, hpath, hcause⟩

end FailsWith

end Run

end RsaCircuit
