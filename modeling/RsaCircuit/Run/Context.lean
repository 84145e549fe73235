import RsaCircuit.Run.Basic
import RsaCircuit.Run.Profile
set_option autoImplicit false

/-!
# Contexts: where runs take place

A context performs runs one after the other.  It numbers the constraints they check, knows the path
of the instance that is running, counts the runs of each component and keeps a journal of events.  A
run that stops leaves the context at the instance where it started, with its constraints counted and
its components' runs closed.
-/

namespace RsaCircuit

/-! ## Constraint errors -/

/-- Why a constraint failed. -/
inductive FailureCause where
  | unequal (description : String) (lhs rhs : Scalar)
  | arithmetic (e : ArithmeticError)
  deriving DecidableEq, Repr

namespace FailureCause

def message : FailureCause → String
  | unequal description lhs rhs => s!"{description}: {lhs.text} != {rhs.text}"
  | arithmetic e => e.message

end FailureCause

/-- A failed constraint: its number, the instance that checked it and the cause. -/
structure ConstraintError where
  index : Nat
  path : InstancePath
  cause : FailureCause
  deriving DecidableEq, Repr

namespace ConstraintError

def message (e : ConstraintError) : String :=
  s!"constraint #{e.index} in `{e.path.text}` failed: {e.cause.message}"

end ConstraintError

/-! ## Contexts -/

/-- The state of a sequence of runs. -/
structure Context where
  /-- The running instance. -/
  path : InstancePath
  /-- How many constraints have been checked. -/
  constraintCount : Nat
  profile : Profile
  /-- The events so far, the latest first. -/
  journal : List Event
  deriving DecidableEq, Repr, Inhabited

namespace Context

/-- A fresh context whose outermost instance is called `root`. -/
def ofRoot (root : String) : Context := ⟨[root], 0, Profile.empty, []⟩

/-- The events so far, in order. -/
def events (context : Context) : List Event := context.journal.reverse

def record (event : Event) (context : Context) : Context :=
  { context with journal := event :: context.journal }

/-- Counts one constraint. -/
def countConstraint (context : Context) : Context :=
  { context with constraintCount := context.constraintCount + 1 }

/-- The error of the constraint that is next in number. -/
def failure (context : Context) (cause : FailureCause) : ConstraintError :=
  ⟨context.constraintCount, context.path, cause⟩

/-- An instance of the component `name` starts under `label`. -/
def enter (label name : String) (context : Context) : Context :=
  { context with
    path := label :: context.path
    profile := context.profile.start name
    journal := .running name (label :: context.path) :: context.journal }

/-- The running instance, of the component `name`, ends. -/
def leave (name : String) (context : Context) : Context :=
  { context with path := context.path.tail, profile := context.profile.finish name }

end Context

/-! ## Performing a run -/

namespace Run

/-- Performs a run in a context. -/
def exec {α : Type} : Run α → Context → Except (Stop ConstraintError) α × Context
  | .done value, context => (.ok value, context)
  | .check lhs rhs description next, context =>
    if lhs = rhs then next.exec context.countConstraint
    else
      (.error (.error (context.failure (.unequal description lhs rhs))),
        (context.record (.constraintFailed context.constraintCount context.path description))
          |>.countConstraint)
  | .fail e, context =>
    (.error (.error (context.failure (.arithmetic e))), context.countConstraint)
  | .misuse m, context => (.error (.misuse m), context)
  | .note event next, context => next.exec (context.record (event context.path))
  | .within label name body next, context =>
    match body.exec (context.enter label name) with
    | (.ok value, context) => (next value).exec (context.leave name)
    | (.error stop, context) => (.error stop, context.leave name)

/-- A sequence performs its first part and, in the context that leaves, the rest. -/
theorem exec_bind {α β : Type} (run : Run α) (f : α → Run β) (context : Context) :
    (run.bind f).exec context =
      match run.exec context with
      | (.ok value, context) => (f value).exec context
      | (.error stop, context) => (.error stop, context) := by
  induction run generalizing context with
  | done => rfl
  | check lhs rhs _ _ ih =>
    by_cases h : lhs = rhs
    · simp [bind, exec, h, ih]
    · simp [bind, exec, h]
  | fail => rfl
  | misuse => rfl
  | note _ _ ih => exact ih f _
  | within label name body next _ ih =>
    simp only [bind, exec]
    cases body.exec (context.enter label name) with
    | mk outcome inner =>
      cases outcome with
      | ok value => exact ih value f _
      | error => rfl

end Run

end RsaCircuit
