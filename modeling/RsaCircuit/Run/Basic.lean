import RsaCircuit.Run.Event
set_option autoImplicit false

/-!
# Runs: what a component does

A component computes its signals and checks equations on the way.  A `Run α` is such a computation
as data, with a result of type `α`: it checks that two scalars are equal, lets the instances of other
components run inside it, notes events, and ends with its result, with an arithmetic error or with a
misuse.  Nothing in a run depends on where it takes place; numbering, paths and counts arise when a
context performs it.

Runs form a monad, so that a component is written as a `do` block.
-/

namespace RsaCircuit

/-- A computation that checks equations and runs components. -/
inductive Run : Type → Type 1 where
  /-- Ends with a result. -/
  | done {α : Type} (value : α) : Run α
  /-- Goes on if both sides are equal. -/
  | check {α : Type} (lhs rhs : Scalar) (description : String) (next : Run α) : Run α
  /-- Ends without a result. -/
  | fail {α : Type} (e : ArithmeticError) : Run α
  /-- Ends because an operation was called outside its domain. -/
  | misuse {α : Type} (m : Misuse) : Run α
  /-- Notes an event, which may tell where it took place. -/
  | note {α : Type} (event : InstancePath → Event) (next : Run α) : Run α
  /-- Lets an instance of the component `name` run under `label` and goes on with its result. -/
  | within {α β : Type} (label name : String) (body : Run β) (next : β → Run α) : Run α

namespace Run

instance {α : Type} : Inhabited (Run α) := ⟨.misuse default⟩

/-! ## Sequencing -/

/-- Goes on with `f` where the run ends with a result. -/
def bind {α β : Type} : Run α → (α → Run β) → Run β
  | .done value, f => f value
  | .check lhs rhs description next, f => .check lhs rhs description (next.bind f)
  | .fail e, _ => .fail e
  | .misuse m, _ => .misuse m
  | .note event next, f => .note event (next.bind f)
  | .within label name body next, f => .within label name body fun b => (next b).bind f

instance : Monad Run where
  pure := .done
  bind := bind

theorem bind_done {α : Type} (run : Run α) : run.bind .done = run := by
  induction run with
  | done => rfl
  | check _ _ _ _ ih => simp [bind, ih]
  | fail => rfl
  | misuse => rfl
  | note _ _ ih => simp [bind, ih]
  | within _ _ _ _ _ ih => simp [bind, ih]

theorem bind_assoc {α β γ : Type} (run : Run α) (f : α → Run β) (g : β → Run γ) :
    (run.bind f).bind g = run.bind fun a => (f a).bind g := by
  induction run with
  | done => rfl
  | check _ _ _ _ ih => simp [bind, ih]
  | fail => rfl
  | misuse => rfl
  | note _ _ ih => simp [bind, ih]
  | within _ _ _ _ _ ih => simp [bind, ih]

instance : LawfulMonad Run :=
  LawfulMonad.mk' Run bind_done (fun _ _ => rfl) bind_assoc

/-! ## Single steps -/

/-- Checks that two scalars are equal. -/
def assertEqual (lhs rhs : Scalar) (description : String) : Run Unit :=
  .check lhs rhs description (.done ())

/-- Checks that a scalar is zero. -/
def assertZero (value : Scalar) (description : String) : Run Unit := assertEqual value 0 description

/-- Checks for every element in turn. -/
def each {α : Type} (f : α → Run Unit) : List α → Run Unit
  | [] => .done ()
  | x :: xs => (f x).bind fun _ => each f xs

/-- Notes an event that takes place anywhere. -/
def report (event : Event) : Run Unit := .note (fun _ => event) (.done ())

/-- Goes on with an arithmetic result. -/
def ofArithmetic {α : Type} : Except (Stop ArithmeticError) α → Run α
  | .ok value => .done value
  | .error (.error e) => .fail e
  | .error (.misuse m) => .misuse m

/-- Goes on with the result of an operation on values of its domain. -/
def ofDomain {α : Type} : Except Misuse α → Run α
  | .ok value => .done value
  | .error m => .misuse m

/-- A sequence goes on from an operation within its domain. -/
theorem ofDomain_bind {α β : Type} {result : Except Misuse α} {value : α} (h : result = .ok value)
    (f : α → Run β) : (ofDomain result >>= f) = f value := by
  rw [h]
  rfl

end Run

/-! ## Components -/

/-- A component: its name, with its parameters, and what it does with an input. -/
structure Component (α β : Type) where
  name : String
  run : α → Run β

namespace Component

/-- Lets the component run under `label`. -/
def place {α β : Type} (component : Component α β) (label : String) (input : α) : Run β :=
  .within label component.name (component.run input) .done

/-- Lets the component run on each input under the label beside it, in order. -/
def placeAll {α β : Type} (component : Component α β) : List (String × α) → Run (List β)
  | [] => return []
  | (label, input) :: rest => do
    let witness ← component.place label input
    let witnesses ← component.placeAll rest
    return witness :: witnesses

/-- Puts `label[0]`, `label[1]` and so on beside the inputs. -/
def numbered {α : Type} (label : String) (inputs : List α) : List (String × α) :=
  inputs.zipIdx.map fun (input, i) => (s!"{label}[{i}]", input)

/-- Lets the component run on each input, under `label[0]`, `label[1]` and so on. -/
def placeEach {α β : Type} (component : Component α β) (label : String) (inputs : List α) :
    Run (List β) := component.placeAll (numbered label inputs)

/-- The same from the last input down to the first.  The results stand in the order of the inputs. -/
def placeDown {α β : Type} (component : Component α β) (label : String) (inputs : List α) :
    Run (List β) := do
  let witnesses ← component.placeAll (numbered label inputs).reverse
  return witnesses.reverse

end Component

end RsaCircuit
