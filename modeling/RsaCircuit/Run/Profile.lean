set_option autoImplicit false

/-!
# Profiles: how often each component runs

A profile counts the completed runs of each component by name and keeps the stack of the runs that
have started and not yet ended.  Whenever a run starts or ends, the component that was running until
then is *charged*: it gets an entry, of no runs yet if it had none.  Entries stand in the order in
which they came into being.
-/

namespace RsaCircuit

/-- Counts by name, each name once. -/
abbrev Tally := List (String × Nat)

namespace Tally

/-- Raises the count of `name`, which starts from zero. -/
def raise (name : String) (amount : Nat) : Tally → Tally
  | [] => [(name, amount)]
  | (other, n) :: rest =>
    if other = name then (other, n + amount) :: rest else (other, n) :: raise name amount rest

/-- The count of `name`, zero if it has none. -/
def count (name : String) : Tally → Nat
  | [] => 0
  | (other, n) :: rest => if other = name then n else count name rest

theorem count_raise_self (name : String) (amount : Nat) (tally : Tally) :
    (tally.raise name amount).count name = tally.count name + amount := by
  induction tally with
  | nil => simp [raise, count]
  | cons entry rest ih =>
    obtain ⟨other, n⟩ := entry
    by_cases h : other = name <;> simp [raise, count, h, ih]

theorem count_raise_of_ne {name other : String} (h : name ≠ other) (amount : Nat) (tally : Tally) :
    (tally.raise name amount).count other = tally.count other := by
  induction tally with
  | nil => simp [raise, count, h]
  | cons entry rest ih =>
    obtain ⟨key, n⟩ := entry
    by_cases hk : key = name
    · subst hk; simp [raise, count, h]
    · by_cases ho : key = other
      · subst ho; simp [raise, count, hk]
      · simp [raise, count, hk, ho, ih]

end Tally

/-- Runs per component and the components running now. -/
structure Profile where
  entries : Tally
  /-- The names of the running components, innermost first. -/
  callStack : List String
  deriving DecidableEq, Repr, Inhabited

namespace Profile

def empty : Profile := ⟨[], []⟩

/-- Makes sure that the component running now has an entry. -/
def charge (profile : Profile) : Profile :=
  match profile.callStack with
  | [] => profile
  | name :: _ => { profile with entries := profile.entries.raise name 0 }

/-- A run of `name` starts. -/
def start (name : String) (profile : Profile) : Profile :=
  { profile.charge with callStack := name :: profile.callStack }

/-- The innermost run, of `name`, ends. -/
def finish (name : String) (profile : Profile) : Profile :=
  { entries := profile.charge.entries.raise name 1, callStack := profile.callStack.tail }

/-- How often `name` has run to its end. -/
def invocations (name : String) (profile : Profile) : Nat := profile.entries.count name

@[simp] theorem callStack_start (name : String) (profile : Profile) :
    (profile.start name).callStack = name :: profile.callStack := rfl

@[simp] theorem callStack_finish (name : String) (profile : Profile) :
    (profile.finish name).callStack = profile.callStack.tail := rfl

end Profile

end RsaCircuit
