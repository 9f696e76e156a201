import Mathlib.Logic.Basic
import Mathlib.Data.List.Basic

/-!
# Programs over an interface

A program is a tree of calls to an interface: each operation is answered, and the
answer selects the rest. A handler interprets the operations over a state; `run`
gives the result, `after n` the state in which a process is left when it is killed
with `n` calls made, and `trace` what was asked and answered on the way. Nothing
here depends on a particular interface.
-/

namespace Pinpam.Effect
set_option autoImplicit false

/-- Operations, and the type of the answer to each. -/
class Interface (E : Type) where
  Answer : E → Type

export Interface (Answer)

/-- A program that calls operations of `E` and returns an `α`. -/
inductive Prog (E : Type) [Interface E] (α : Type) where
  | ret (a : α)
  | call (e : E) (k : Answer e → Prog E α)

/-- An interpretation of the operations of `E` over the states `S`. -/
abbrev Handler (E S : Type) [Interface E] := (e : E) → S → Answer e × S

/-- One answered operation, with the states before and after it. -/
structure Event (E S : Type) [Interface E] where
  before : S
  op : E
  answer : Answer op
  after : S

namespace Prog

variable {E F S T α β γ ε : Type} [Interface E] [Interface F]

/-- Sequencing: the second program replaces the first one's return. -/
def bind : Prog E α → (α → Prog E β) → Prog E β
  | .ret a, f => f a
  | .call e k, f => .call e fun r => (k r).bind f

instance : Monad (Prog E) where
  pure := .ret
  bind := bind

@[simp] theorem pure_bind (a : α) (f : α → Prog E β) : (Prog.ret a >>= f) = f a := rfl

@[simp] theorem call_bind (e : E) (k : Answer e → Prog E α) (f : α → Prog E β) :
    (Prog.call e k >>= f) = Prog.call e fun r => k r >>= f := rfl

@[simp] theorem pure_eq (a : α) : (pure a : Prog E α) = .ret a := rfl

theorem bind_ret (p : Prog E α) : (p >>= Prog.ret) = p := by
  induction p with
  | ret a => rfl
  | call e k ih => rw [call_bind]; congr 1; funext r; exact ih r

theorem bind_assoc (p : Prog E α) (f : α → Prog E β) (g : β → Prog E γ) :
    (p >>= f >>= g) = p >>= fun a => f a >>= g := by
  induction p with
  | ret a => rfl
  | call e k ih => simp only [call_bind]; congr 1; funext r; exact ih r

instance : LawfulMonad (Prog E) :=
  LawfulMonad.mk' _ (fun p => bind_ret p) (fun _ _ => rfl) bind_assoc

/-- A single operation. -/
def op (e : E) : Prog E (Answer e) := .call e .ret

@[simp] theorem op_bind (e : E) (f : Answer e → Prog E β) : (op e >>= f) = .call e f := rfl

/-! ## Running -/

/-- The result and the final state. -/
def run (h : Handler E S) : Prog E α → S → α × S
  | .ret a, s => (a, s)
  | .call e k, s => (k (h e s).1).run h (h e s).2

/-- The state once `n` calls are answered, or at the end if there are fewer. -/
def after (h : Handler E S) : Nat → Prog E α → S → S
  | 0, _, s => s
  | _ + 1, .ret _, s => s
  | n + 1, .call e k, s => (k (h e s).1).after h n (h e s).2

/-- The number of calls made. -/
def calls (h : Handler E S) : Prog E α → S → Nat
  | .ret _, _ => 0
  | .call e k, s => (k (h e s).1).calls h (h e s).2 + 1

/-- Every call of the run with its answer, in order. -/
def trace (h : Handler E S) : Prog E α → S → List (Event E S)
  | .ret _, _ => []
  | .call e k, s => ⟨s, e, (h e s).1, (h e s).2⟩ :: (k (h e s).1).trace h (h e s).2

variable {h : Handler E S}

@[simp] theorem run_ret (a : α) (s : S) : (Prog.ret a : Prog E α).run h s = (a, s) := rfl

@[simp] theorem run_call (e : E) (k : Answer e → Prog E α) (s : S) :
    (Prog.call e k).run h s = (k (h e s).1).run h (h e s).2 := rfl

@[simp] theorem run_bind (p : Prog E α) (f : α → Prog E β) (s : S) :
    (p >>= f).run h s = (f (p.run h s).1).run h (p.run h s).2 := by
  induction p generalizing s with
  | ret a => rfl
  | call e k ih => exact ih _ _

@[simp] theorem after_zero (p : Prog E α) (s : S) : p.after h 0 s = s := by cases p <;> rfl

@[simp] theorem after_ret (n : Nat) (a : α) (s : S) : (Prog.ret a : Prog E α).after h n s = s := by
  cases n <;> rfl

@[simp] theorem after_call (n : Nat) (e : E) (k : Answer e → Prog E α) (s : S) :
    (Prog.call e k).after h (n + 1) s = (k (h e s).1).after h n (h e s).2 := rfl

end Prog

end Pinpam.Effect
