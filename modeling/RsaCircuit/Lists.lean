import RsaCircuit.Fault
set_option autoImplicit false

/-!
# Lists: elements, parts and pairs that have to exist

Reading a list at a position, cutting a part out of it and going through two lists side by side have a
domain: the position and the part lie within the list, and the two lists are equally long.  Outside
of it these operations are misused; they neither pad nor cut what they are given.  Inside of it they
are the plain operations, and that is all that is ever proved about them.
-/

namespace RsaCircuit

variable {α β : Type}

/-- The element at position `i`. -/
def elementAt? (i : Nat) (xs : List α) : Except Misuse α :=
  match xs[i]? with
  | some x => .ok x
  | none => .error (.outOfBounds (i + 1) xs.length)

/-- The elements from position `start` up to position `stop`. -/
def slice? (start stop : Nat) (xs : List α) : Except Misuse (List α) :=
  if start ≤ stop ∧ stop ≤ xs.length then .ok ((xs.take stop).drop start)
  else .error (.outOfBounds stop xs.length)

/-- The pairs of elements at the same positions. -/
def zip? (xs : List α) (ys : List β) : Except Misuse (List (α × β)) :=
  if xs.length = ys.length then .ok (xs.zip ys) else .error (.wrongLength xs.length ys.length)

theorem elementAt?_of_lt {i : Nat} {xs : List α} (h : i < xs.length) (d : α) :
    elementAt? i xs = .ok (xs.getD i d) := by
  rw [elementAt?, List.getD, List.getElem?_eq_getElem h]
  rfl

theorem slice?_of_le {start stop : Nat} {xs : List α} (hstart : start ≤ stop)
    (hstop : stop ≤ xs.length) : slice? start stop xs = .ok ((xs.take stop).drop start) :=
  if_pos ⟨hstart, hstop⟩

theorem slice?_take {stop : Nat} {xs : List α} (h : stop ≤ xs.length) :
    slice? 0 stop xs = .ok (xs.take stop) := slice?_of_le (Nat.zero_le stop) h

theorem slice?_drop {start : Nat} {xs : List α} (h : start ≤ xs.length) :
    slice? start xs.length xs = .ok (xs.drop start) := by
  rw [slice?_of_le h (Nat.le_refl _), List.take_length]

theorem zip?_of_length {xs : List α} {ys : List β} (h : xs.length = ys.length) :
    zip? xs ys = .ok (xs.zip ys) := if_pos h

end RsaCircuit
