import RsaCircuit.Proofs.Run.Outcome
set_option autoImplicit false

/-!
# Traces: what a context keeps of a run

The trace of a run lists what it does, without a context: the constraints it checks and the instances
it starts, each with the labels of the instances that are open at that moment, up to the first failure.

A context that performs the run keeps its books by the trace (`Context.Accounts`).  The path and the
call stack are where they were, every constraint has counted once and every started instance is one
more run of its component, whether the run has a result or not.  An error has the number of the last
constraint of the trace, and its path leads to the instances that were open there
(`Run.exec_error_site`).  The same holds along a sequence of runs, so that later errors have higher
numbers.
-/

namespace RsaCircuit

/-! ## Steps -/

/-- Where a constraint stands: the instances open around it, innermost first, and the description of
the equation it checks.  An arithmetic error takes the number of a constraint that has none. -/
structure Site where
  place : InstancePath
  description : Option String
  deriving DecidableEq, Repr

/-- Something a run does that a context counts. -/
inductive Step where
  /-- A constraint is checked, or an arithmetic error stands in its place. -/
  | constraint (site : Site)
  /-- An instance of the component `name` starts.  Its own label is the first one of the path. -/
  | start (path : InstancePath) (name : String)
  deriving DecidableEq, Repr

namespace Step

/-- The same step, seen from outside the instance `label`. -/
def inside (label : String) : Step → Step
  | .constraint site => .constraint { site with place := site.place ++ [label] }
  | .start path name => .start (path ++ [label]) name

def site? : Step → Option Site
  | .constraint site => some site
  | .start _ _ => none

/-- The component that the step starts an instance of. -/
def component? : Step → Option String
  | .constraint _ => none
  | .start _ name => some name

end Step

/-- The constraints among some steps. -/
def sites (steps : List Step) : List Site := steps.filterMap Step.site?

/-- The components that instances are started of. -/
def started (steps : List Step) : List String := steps.filterMap Step.component?

section Steps

variable {label name : String} {steps rest : List Step}

@[simp] theorem sites_nil : sites [] = [] := rfl

@[simp] theorem sites_constraint (site : Site) :
    sites (.constraint site :: steps) = site :: sites steps := rfl

@[simp] theorem sites_start (path : InstancePath) :
    sites (.start path name :: steps) = sites steps := rfl

@[simp] theorem sites_append : sites (steps ++ rest) = sites steps ++ sites rest :=
  List.filterMap_append

theorem sites_inside : sites (steps.map (Step.inside label)) =
    (sites steps).map fun site => { site with place := site.place ++ [label] } := by
  induction steps with
  | nil => rfl
  | cons step steps ih =>
    cases step with
    | constraint site => exact congrArg _ ih
    | start path name => exact ih

@[simp] theorem length_sites_inside :
    (sites (steps.map (Step.inside label))).length = (sites steps).length := by
  rw [sites_inside, List.length_map]

@[simp] theorem started_start (path : InstancePath) :
    started (.start path name :: steps) = name :: started steps := rfl

@[simp] theorem started_append : started (steps ++ rest) = started steps ++ started rest :=
  List.filterMap_append

@[simp] theorem started_inside : started (steps.map (Step.inside label)) = started steps := by
  induction steps with
  | nil => rfl
  | cons step steps ih =>
    cases step with
    | constraint site => exact ih
    | start path name => exact congrArg (name :: ·) ih

end Steps

namespace FailureCause

/-- The description of the equation that does not hold. -/
def description? : FailureCause → Option String
  | .unequal description _ _ => some description
  | .arithmetic _ => none

end FailureCause

/-- The constraint that a failure belongs to. -/
def Failure.site (failure : Failure) : Site := ⟨failure.place, failure.cause.description?⟩

namespace Run

/-! ## The trace of a run -/

/-- What a run does, in order. -/
def trace {α : Type} : Run α → List Step
  | .done _ => []
  | .check lhs rhs description next =>
    .constraint ⟨[], some description⟩ :: if lhs = rhs then next.trace else []
  | .fail _ => [.constraint ⟨[], none⟩]
  | .misuse _ => []
  | .note _ next => next.trace
  | .within label name body next =>
    .start [label] name :: (body.trace.map (Step.inside label) ++
      match body.outcome with
      | .ok value => (next value).trace
      | .error _ => [])

/-- A sequence takes the steps of its first part and, if that has a result, those of the rest. -/
theorem trace_bind {α β : Type} (run : Run α) (f : α → Run β) :
    (run >>= f).trace = run.trace ++ match run.outcome with
      | .ok value => (f value).trace
      | .error _ => [] := by
  change (run.bind f).trace = _
  induction run with
  | done => rfl
  | check lhs rhs description next ih =>
    rw [bind, trace, trace, outcome]
    split
    · exact congrArg _ (ih f)
    · rfl
  | fail => rfl
  | misuse => rfl
  | note event next ih => exact ih f
  | within label name body next _ ih =>
    rw [bind, trace, trace, outcome]
    cases body.outcome with
    | ok value =>
      dsimp only
      rw [ih value f, List.cons_append, List.append_assoc]
    | error stop => exact (List.append_nil _).symm

/-- A failing run ends with the constraint that fails. -/
theorem getLast?_sites_trace {α : Type} {run : Run α} {failure : Failure}
    (h : run.outcome = .error (.error failure)) :
    (sites run.trace).getLast? = some failure.site := by
  induction run generalizing failure with
  | done => cases h
  | check lhs rhs description next ih =>
    rw [outcome] at h
    rw [trace, sites_constraint, List.getLast?_cons]
    split at h
    · next heq => rw [if_pos heq, ih h, Option.getD_some]
    · next hne =>
      obtain rfl := Stop.error.inj (Except.error.inj h)
      rw [if_neg hne]
      rfl
  | fail e =>
    obtain rfl := Stop.error.inj (Except.error.inj h)
    rfl
  | misuse => cases h
  | note event next ih => exact ih h
  | within label name body next ihb ih =>
    rw [outcome] at h
    rw [trace, sites_start, sites_append]
    cases hbody : body.outcome with
    | ok value =>
      rw [hbody] at h
      dsimp only
      rw [List.getLast?_append, ih value h, Option.some_or]
    | error stop =>
      rw [hbody] at h
      cases stop with
      | misuse m => cases h
      | error inner =>
        obtain rfl := Stop.error.inj (Except.error.inj h)
        dsimp only
        rw [sites_inside, sites_nil, List.append_nil, List.getLast?_map, ihb hbody]
        rfl

end Run

/-! ## Profiles -/

namespace Profile

variable {name other : String} {profile : Profile}

/-- The component has an entry. -/
def Lists (profile : Profile) (name : String) : Prop := name ∈ profile.entries.map Prod.fst

theorem mem_keys_raise (amount : Nat) (tally : Tally) :
    other ∈ (tally.raise name amount).map Prod.fst ↔ other ∈ tally.map Prod.fst ∨ other = name := by
  induction tally with
  | nil => simp [Tally.raise]
  | cons entry rest ih =>
    obtain ⟨key, n⟩ := entry
    rw [Tally.raise]
    split
    · next hkey =>
      simp only [List.map_cons, List.mem_cons]
      constructor
      · exact Or.inl
      · rintro (h | rfl)
        · exact h
        · exact Or.inl hkey.symm
    · simp only [List.map_cons, List.mem_cons, ih]
      exact or_assoc.symm

theorem invocations_charge : profile.charge.invocations name = profile.invocations name := by
  unfold charge
  split
  · rfl
  · next running _ _ =>
    by_cases h : running = name
    · subst h
      exact Tally.count_raise_self running 0 profile.entries
    · exact Tally.count_raise_of_ne h 0 profile.entries

theorem invocations_start : (profile.start other).invocations name = profile.invocations name :=
  invocations_charge

theorem invocations_finish : (profile.finish other).invocations name =
    profile.invocations name + [other].count name := by
  have hcharge : profile.charge.invocations name = profile.invocations name := invocations_charge
  rw [← hcharge]
  by_cases h : other = name
  · subst h
    rw [List.count_singleton_self]
    exact Tally.count_raise_self other 1 profile.charge.entries
  · rw [List.count_eq_zero_of_not_mem (by simpa using Ne.symm h), Nat.add_zero]
    exact Tally.count_raise_of_ne h 1 profile.charge.entries

/-- Charging lists the component that is running, and no other. -/
theorem lists_charge (h : profile.charge.Lists name) :
    profile.Lists name ∨ name ∈ profile.callStack := by
  unfold charge at h
  split at h
  · exact Or.inl h
  · next running below hstack =>
    rcases (mem_keys_raise 0 profile.entries).1 h with hentry | rfl
    · exact Or.inl hentry
    · exact Or.inr (hstack ▸ List.mem_cons_self)

theorem lists_finish (h : (profile.finish other).Lists name) :
    profile.charge.Lists name ∨ name = other :=
  (mem_keys_raise 1 profile.charge.entries).1 h

end Profile

/-! ## Performing a run -/

namespace Context

/-- Where steps lead to: a constraint is counted, an instance is entered and left again around its own
steps, and events may be noted in between. -/
inductive Reaches : Context → List Step → Context → Prop where
  | refl (context : Context) : Reaches context [] context
  | constraint {before after : Context} {steps : List Step} (description : Option String)
      (rest : Reaches before.countConstraint steps after) :
      Reaches before (.constraint ⟨[], description⟩ :: steps) after
  | note {before after : Context} {steps : List Step} (event : Event)
      (rest : Reaches (before.record event) steps after) : Reaches before steps after
  | within {before between after : Context} {inner steps : List Step} (label name : String)
      (body : Reaches (before.enter label name) inner between)
      (rest : Reaches (between.leave name) steps after) :
      Reaches before (.start [label] name :: (inner.map (Step.inside label) ++ steps)) after

end Context

/-- Performing a run takes the steps of its trace. -/
theorem Run.exec_reaches {α : Type} (run : Run α) (context : Context) :
    context.Reaches run.trace (run.exec context).2 := by
  induction run generalizing context with
  | done => exact .refl context
  | check lhs rhs description next ih =>
    rw [trace, exec]
    split
    · exact .constraint _ (ih context.countConstraint)
    · exact .note (.constraintFailed context.constraintCount context.path description)
        (.constraint _ (.refl _))
  | fail => exact .constraint _ (.refl _)
  | misuse => exact .refl context
  | note event next ih => exact .note (event context.path) (ih _)
  | within label name body next ihb ih =>
    have hbody := ihb (context.enter label name)
    have houtcome := exec_outcome body (context.enter label name)
    rw [trace, exec]
    cases hexec : body.exec (context.enter label name) with
    | mk result inner =>
      rw [hexec] at hbody houtcome
      -- the steps after the body are those of the result that its outcome gives
      cases result with
      | ok value =>
        have hok : body.outcome = .ok value :=
          exec_eq_ok_iff.1 (congrArg Prod.fst hexec)
        rw [hok]
        exact .within label name hbody (ih value (inner.leave name))
      | error stop =>
        cases hok : body.outcome with
        | ok value => rw [hok] at houtcome; cases houtcome
        | error stop' => exact .within label name hbody (.refl _)

namespace Context.Reaches

variable {before after : Context} {steps : List Step}

theorem path_eq (h : Reaches before steps after) : after.path = before.path := by
  induction h with
  | refl => rfl
  | constraint _ _ ih => exact ih
  | note _ _ ih => exact ih
  | within label name _ _ ihb ih => exact ih.trans (congrArg List.tail ihb)

theorem callStack_eq (h : Reaches before steps after) :
    after.profile.callStack = before.profile.callStack := by
  induction h with
  | refl => rfl
  | constraint _ _ ih => exact ih
  | note _ _ ih => exact ih
  | within label name _ _ ihb ih => exact ih.trans (congrArg List.tail ihb)

theorem constraintCount_eq (h : Reaches before steps after) :
    after.constraintCount = before.constraintCount + (sites steps).length := by
  induction h with
  | refl => rfl
  | @constraint before after steps _ _ ih =>
    have hcount : after.constraintCount = before.constraintCount + 1 + (sites steps).length := ih
    rw [sites_constraint, List.length_cons, hcount, Nat.add_assoc, Nat.add_comm 1]
  | note _ _ ih => exact ih
  | @within before between after inner steps _ _ _ _ ihb ih =>
    have hbody : between.constraintCount = before.constraintCount + (sites inner).length := ihb
    have hrest : after.constraintCount = between.constraintCount + (sites steps).length := ih
    rw [sites_start, sites_append, List.length_append, length_sites_inside, hrest, hbody,
      Nat.add_assoc]

theorem invocations_eq (h : Reaches before steps after) (name : String) :
    after.profile.invocations name =
      before.profile.invocations name + (started steps).count name := by
  induction h with
  | refl => rfl
  | constraint _ _ ih => exact ih
  | note _ _ ih => exact ih
  | @within before between after inner steps _ other _ _ ihb ih =>
    have hbody : between.profile.invocations name =
        before.profile.invocations name + (started inner).count name :=
      ihb.trans (congrArg (· + _) Profile.invocations_start)
    have hrest : after.profile.invocations name =
        between.profile.invocations name + [other].count name + (started steps).count name :=
      ih.trans (congrArg (· + _) Profile.invocations_finish)
    rw [started_start, started_append, started_inside, ← List.singleton_append, List.count_append,
      List.count_append, hrest, hbody]
    omega

/-- What has an entry had one before, has run to its end, or is running. -/
theorem lists (h : Reaches before steps after) {name : String} (hname : after.profile.Lists name) :
    before.profile.Lists name ∨ 0 < after.profile.invocations name ∨
      name ∈ before.profile.callStack := by
  induction h with
  | refl => exact Or.inl hname
  | constraint _ _ ih => exact ih hname
  | note _ _ ih => exact ih hname
  | @within before between after inner steps label other hbody hrest ihb ih =>
    have hstack : between.profile.callStack = other :: before.profile.callStack :=
      hbody.callStack_eq
    have hmono := hrest.invocations_eq name
    have hfinish : (between.leave other).profile.invocations name =
        between.profile.invocations name + [other].count name := Profile.invocations_finish
    -- whatever runs inside is the instance itself, which ends, or was running before
    have hrunning : name ∈ other :: before.profile.callStack →
        0 < after.profile.invocations name ∨ name ∈ before.profile.callStack := by
      intro hmem
      rcases List.mem_cons.1 hmem with rfl | hmem
      · rw [List.count_singleton_self] at hfinish
        exact Or.inl (by omega)
      · exact Or.inr hmem
    rcases ih hname with hleft | hpos | hmem
    · rcases Profile.lists_finish hleft with hcharged | rfl
      · rcases Profile.lists_charge hcharged with hbetween | hmem
        · rcases ihb hbetween with hentered | hpos | hmem
          · rcases Profile.lists_charge hentered with hbefore | hmem
            · exact Or.inl hbefore
            · exact Or.inr (Or.inr hmem)
          · exact Or.inr (Or.inl (by omega))
          · exact Or.inr (hrunning hmem)
        · exact Or.inr (hrunning (hstack ▸ hmem))
      · exact Or.inr (hrunning List.mem_cons_self)
    · exact Or.inr (Or.inl hpos)
    · have htail : name ∈ between.profile.callStack.tail := hmem
      rw [hstack] at htail
      exact Or.inr (Or.inr htail)

end Context.Reaches

namespace Run

variable {α : Type}

/-- The error of a run has the number of the constraint that was counted last. -/
theorem exec_error_index {run : Run α} {context : Context} {e : ConstraintError}
    (h : (run.exec context).1 = .error (.error e)) :
    e.index + 1 = (run.exec context).2.constraintCount := by
  induction run generalizing context with
  | done => cases h
  | check lhs rhs description next ih =>
    rw [exec] at h ⊢
    split at h
    · next heq =>
      rw [if_pos heq]
      exact ih h
    · next hne =>
      obtain rfl := Stop.error.inj (Except.error.inj h)
      rw [if_neg hne]
      rfl
  | fail =>
    obtain rfl := Stop.error.inj (Except.error.inj h)
    rfl
  | misuse => cases h
  | note event next ih => exact ih h
  | within label name body next ihb ih =>
    rw [exec] at h ⊢
    cases hexec : body.exec (context.enter label name) with
    | mk result inner =>
      rw [hexec] at h
      cases result with
      | ok value => exact ih value h
      | error stop =>
        obtain rfl : stop = .error e := Except.error.inj h
        have hbody := ihb (congrArg Prod.fst hexec)
        rw [hexec] at hbody
        exact hbody

/-- The error of a run belongs to the last constraint of its trace. -/
theorem exec_error_site {run : Run α} {context : Context} {e : ConstraintError}
    (h : (run.exec context).1 = .error (.error e)) :
    ∃ site, (sites run.trace).getLast? = some site ∧ e.path = site.place ++ context.path ∧
      e.cause.description? = site.description := by
  have houtcome := exec_outcome run context
  rw [h] at houtcome
  cases hrun : run.outcome with
  | ok value => rw [hrun] at houtcome; cases houtcome
  | error stop =>
    rw [hrun] at houtcome
    cases stop with
    | misuse m => cases Except.error.inj houtcome
    | error failure =>
      obtain ⟨hpath, hcause⟩ := Failure.mk.inj (Stop.error.inj (Except.error.inj houtcome))
      exact ⟨failure.site, getLast?_sites_trace hrun, hpath,
        congrArg FailureCause.description? hcause⟩

end Run

/-! ## The books of a context -/

/-- What a context holds after some steps. -/
structure Context.Accounts (before : Context) (steps : List Step) (after : Context) : Prop where
  path : after.path = before.path
  callStack : after.profile.callStack = before.profile.callStack
  constraintCount : after.constraintCount = before.constraintCount + (sites steps).length
  invocations : ∀ name, after.profile.invocations name =
    before.profile.invocations name + (started steps).count name
  /-- Outside of all instances no entry is left without a run that has ended. -/
  completed : before.profile.callStack = [] → ∀ name, after.profile.Lists name →
    ¬ before.profile.Lists name → 0 < after.profile.invocations name

namespace Context

variable {before between after : Context} {steps rest : List Step}

theorem Reaches.accounts (h : Reaches before steps after) : Accounts before steps after where
  path := h.path_eq
  callStack := h.callStack_eq
  constraintCount := h.constraintCount_eq
  invocations := h.invocations_eq
  completed := by
    intro hempty name hlists hnew
    rcases h.lists hlists with hbefore | hpos | hmem
    · exact absurd hbefore hnew
    · exact hpos
    · rw [hempty] at hmem
      cases hmem

theorem Accounts.refl (context : Context) : Accounts context [] context :=
  (Reaches.refl context).accounts

theorem Accounts.trans (h : Accounts before steps between) (h' : Accounts between rest after) :
    Accounts before (steps ++ rest) after where
  path := h'.path.trans h.path
  callStack := h'.callStack.trans h.callStack
  constraintCount := by
    rw [h'.constraintCount, h.constraintCount, sites_append, List.length_append, Nat.add_assoc]
  invocations := by
    intro name
    rw [h'.invocations, h.invocations, started_append, List.count_append, Nat.add_assoc]
  completed := by
    intro hempty name hlists hnew
    by_cases hbetween : between.profile.Lists name
    · have hpos := h.completed hempty name hbetween hnew
      rw [h'.invocations]
      exact Nat.add_pos_left hpos _
    · exact h'.completed (h.callStack.trans hempty) name hlists hbetween

/-- Performs runs one after the other, each in the context that the one before it left, and collects
their errors. -/
def performAll : List ((α : Type) × Run α) → Context → List ConstraintError × Context
  | [], context => ([], context)
  | run :: runs, context =>
    let (result, between) := run.2.exec context
    let (errors, after) := performAll runs between
    match result with
    | .error (.error e) => (e :: errors, after)
    | _ => (errors, after)

/-- The steps of a sequence of runs. -/
def stepsOf (runs : List ((α : Type) × Run α)) : List Step := runs.flatMap fun run => run.2.trace

theorem performAll_cons (run : (α : Type) × Run α) (runs : List ((α : Type) × Run α))
    (context : Context) :
    (performAll (run :: runs) context).2 = (performAll runs (run.2.exec context).2).2 ∧
      ((performAll (run :: runs) context).1 = (performAll runs (run.2.exec context).2).1 ∨
        ∃ e, (run.2.exec context).1 = .error (.error e) ∧
          (performAll (run :: runs) context).1 =
            e :: (performAll runs (run.2.exec context).2).1) := by
  rw [performAll]
  cases run.2.exec context with
  | mk result between =>
    match result with
    | .ok value => exact ⟨rfl, Or.inl rfl⟩
    | .error (.misuse m) => exact ⟨rfl, Or.inl rfl⟩
    | .error (.error e) => exact ⟨rfl, Or.inr ⟨e, rfl, rfl⟩⟩

theorem performAll_accounts (runs : List ((α : Type) × Run α)) (context : Context) :
    Accounts context (stepsOf runs) (performAll runs context).2 := by
  induction runs generalizing context with
  | nil => exact .refl context
  | cons run runs ih =>
    rw [(performAll_cons run runs context).1]
    exact (run.2.exec_reaches context).accounts.trans (ih _)

/-- The errors of a sequence of runs have increasing numbers, each of a constraint of the sequence. -/
theorem performAll_errors (runs : List ((α : Type) × Run α)) (context : Context) :
    (∀ e ∈ (performAll runs context).1, context.constraintCount ≤ e.index ∧
      e.index < (performAll runs context).2.constraintCount) ∧
      (performAll runs context).1.Pairwise fun e e' => e.index < e'.index := by
  induction runs generalizing context with
  | nil => exact ⟨by simp [performAll], List.Pairwise.nil⟩
  | cons run runs ih =>
    obtain ⟨hafter, herrors⟩ := performAll_cons run runs context
    obtain ⟨hbounds, hincreasing⟩ := ih (run.2.exec context).2
    have hfirst := (run.2.exec_reaches context).accounts.constraintCount
    have hlater := (performAll_accounts runs (run.2.exec context).2).constraintCount
    have hrest : ∀ e ∈ (performAll runs (run.2.exec context).2).1,
        context.constraintCount ≤ e.index ∧
          e.index < (performAll (run :: runs) context).2.constraintCount := by
      intro e he
      obtain ⟨hlower, hupper⟩ := hbounds e he
      rw [hafter]
      exact ⟨by omega, hupper⟩
    rcases herrors with heq | ⟨e, he, heq⟩
    · rw [heq]
      exact ⟨hrest, hincreasing⟩
    · have hindex := Run.exec_error_index he
      obtain ⟨site, hsite, _⟩ := Run.exec_error_site he
      have hcounted : 0 < (sites run.2.trace).length :=
        List.length_pos_of_mem (List.mem_of_getLast? hsite)
      rw [heq]
      refine ⟨?_, List.pairwise_cons.2 ⟨?_, hincreasing⟩⟩
      · rw [List.forall_mem_cons]
        exact ⟨⟨by omega, by rw [hafter]; omega⟩, hrest⟩
      · intro e' he'
        have hlower := (hbounds e' he').1
        omega

/-- A context that lets a component run, whatever its instances do, keeps its books by the trace of
the run, also if it fails: the error then is that of the last constraint of the trace, under the
labels that were open there.  Along a sequence of runs the books add up, and later errors have higher
numbers. -/
theorem keeps_books :
    (∀ (α β : Type) (component : Component α β) (label : String) (input : α) (context : Context),
      let run := component.place label input
      Accounts context run.trace (run.exec context).2 ∧
        ∀ e, (run.exec context).1 = .error (.error e) →
          e.index + 1 = (run.exec context).2.constraintCount ∧
            ∃ site, (sites run.trace).getLast? = some site ∧
              e.path = site.place ++ context.path ∧ e.cause.description? = site.description) ∧
    ∀ (runs : List ((α : Type) × Run α)) (context : Context),
      Accounts context (stepsOf runs) (performAll runs context).2 ∧
        (∀ e ∈ (performAll runs context).1, context.constraintCount ≤ e.index ∧
          e.index < (performAll runs context).2.constraintCount) ∧
        (performAll runs context).1.Pairwise fun e e' => e.index < e'.index := by
  refine ⟨fun α β component label input context => ?_, fun runs context => ?_⟩
  · refine ⟨(Run.exec_reaches _ context).accounts, fun e he => ?_⟩
    exact ⟨Run.exec_error_index he, Run.exec_error_site he⟩
  · exact ⟨performAll_accounts runs context, performAll_errors runs context⟩

/-- Instances of one name inside each other, of which the innermost checks its input. -/
def nested : Nat → Component Scalar Unit
  | 0 => { name := "Nested", run := fun x => Run.assertZero x "input is zero" }
  | depth + 1 => { name := "Nested", run := fun x => (nested depth).place "inner" x }

theorem keeps_books_sample :
    let result := ((nested 2).place "outer" 1).exec (ofRoot "main")
    result.2.path = ["main"] ∧ result.2.profile.callStack = [] ∧
      result.2.constraintCount = 1 ∧ result.2.profile.invocations "Nested" = 3 ∧
      ∃ e, result.1 = .error (.error e) ∧ e.index = 0 ∧
        e.path = ["inner", "inner", "outer", "main"] := by
  obtain ⟨haccounts, herror⟩ :=
    keeps_books.1 Scalar Unit (nested 2) "outer" 1 (ofRoot "main")
  have hfails : (((nested 2).place "outer" 1).exec (ofRoot "main")).1 = .error (.error
      ⟨0, ["inner", "inner", "outer", "main"], .unequal "input is zero" 1 0⟩) := rfl
  obtain ⟨_, site, hsite, hpath, _⟩ := herror _ hfails
  have hlast : some site = some ⟨["inner", "inner", "outer"], some "input is zero"⟩ :=
    hsite.symm.trans rfl
  obtain rfl := Option.some.inj hlast
  exact ⟨haccounts.path, haccounts.callStack, haccounts.constraintCount,
    (haccounts.invocations "Nested").trans (by decide), _, hfails, rfl, hpath⟩

end Context

end RsaCircuit
