import Mathlib.Data.List.Basic

/-!
# A gate that shuts

A gate opens for a match and counts misses: a match takes the count back to zero, and once
the count is at the limit the gate is shut for good. An entry is a list of tries, made one
after the other until one of them opens the gate or it is shut.
-/

namespace Pinpam.Effect
set_option autoImplicit false

structure Gate where
  used : Nat
  limit : Nat
  deriving DecidableEq, Repr

inductive Entrance where
  | opened | rejected | shut
  deriving DecidableEq, Repr

namespace Gate

/-- One entry; a try says whether it is a match. -/
def enter : List Bool → Gate → Entrance × Gate
  | [], g => (if g.limit ≤ g.used then .shut else .rejected, g)
  | hit :: rest, g =>
    if g.limit ≤ g.used then (.shut, g)
    else if hit then (.opened, { g with used := 0 })
    else enter rest { g with used := g.used + 1 }

/-- One entry after the other. -/
def entries : List (List Bool) → Gate → List Entrance × Gate
  | [], g => ([], g)
  | tries :: rest, g =>
    ((enter tries g).1 :: (entries rest (enter tries g).2).1, (entries rest (enter tries g).2).2)

variable {g : Gate} {tries : List Bool} {all rest : List (List Bool)}

@[simp] theorem enter_limit : (enter tries g).2.limit = g.limit := by
  induction tries generalizing g with
  | nil => rfl
  | cons hit rest ih =>
    simp only [enter]
    split
    · rfl
    split
    · rfl
    · rw [ih]

/-- The count stays within the limit. -/
theorem enter_used (low : g.used ≤ g.limit) : (enter tries g).2.used ≤ (enter tries g).2.limit := by
  induction tries generalizing g with
  | nil => exact low
  | cons hit rest ih =>
    simp only [enter]
    split
    · exact low
    split
    · exact Nat.zero_le _
    next open_ miss =>
      apply ih
      dsimp only
      omega

theorem enter_shut (shut : g.limit ≤ g.used) : enter tries g = (.shut, g) := by
  cases tries with
  | nil => simp only [enter, if_pos shut]
  | cons hit rest => simp only [enter, if_pos shut]

theorem enter_hit (open_ : g.used < g.limit) :
    enter (true :: tries) g = (.opened, { g with used := 0 }) := by
  simp only [enter, if_neg (Nat.not_le.2 open_), if_true]

theorem enter_miss (open_ : g.used < g.limit) :
    enter (false :: tries) g = enter tries { g with used := g.used + 1 } := by
  simp only [enter, if_neg (Nat.not_le.2 open_), Bool.false_eq_true, if_false]

end Gate

end Pinpam.Effect
