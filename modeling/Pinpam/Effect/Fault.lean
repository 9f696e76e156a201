import Pinpam.Effect.Fallible

/-!
# Faults

An operation may fail instead of taking effect. `Faulty h P` is a handler whose
operations fail at will in the states of `P`; `Flaky` carries a list that says which
of the next operations fail, so a run with faults can be computed.
-/

namespace Pinpam.Effect
set_option autoImplicit false

/-- The faults of an interface, and how an operation reports one. -/
class Failing (E : Type) (Φ : outParam Type) [Interface E] where
  failAnswer : Φ → (e : E) → Answer e

export Failing (failAnswer)

variable {E S Φ α ε : Type} [Interface E] [Failing E Φ]

/-- An operation takes effect or, in a state of `P`, fails without effect. -/
inductive Faulty (h : Handler E S) (P : S → Prop) : Behaviour E S where
  | done (e : E) (s : S) : Faulty h P e s (h e s).1 (h e s).2
  | failed (e : E) (s : S) (f : Φ) (may : P s) : Faulty h P e s (failAnswer f e) s

/-- A state with the faults to come, one entry for each operation; there are no more
once the list is used up. -/
structure Flaky (Φ S : Type) where
  state : S
  faults : List (Option Φ)

/-- The handler with the faults of the list. -/
def Handler.flaky (h : Handler E S) : Handler E (Flaky Φ S) := fun e s =>
  match s.faults with
  | some f :: rest => (failAnswer f e, ⟨s.state, rest⟩)
  | none :: rest => ((h e s.state).1, ⟨(h e s.state).2, rest⟩)
  | [] => ((h e s.state).1, ⟨(h e s.state).2, []⟩)

/-- A single fault, at the operation numbered `n`. -/
def Flaky.once (n : Nat) (f : Φ) (s : S) : Flaky Φ S := ⟨s, List.replicate n none ++ [some f]⟩

variable {h : Handler E S} {P P' : S → Prop} {C : S → Prop} {s : S}

@[simp] theorem Handler.flaky_none {e : E} {rest : List (Option Φ)} :
    h.flaky e ⟨s, none :: rest⟩ = ((h e s).1, ⟨(h e s).2, rest⟩) := rfl

@[simp] theorem Handler.flaky_some {e : E} {f : Φ} {rest : List (Option Φ)} :
    h.flaky e ⟨s, some f :: rest⟩ = (failAnswer f e, ⟨s, rest⟩) := rfl

@[simp] theorem Handler.flaky_nil {e : E} :
    h.flaky e (⟨s, []⟩ : Flaky Φ S) = ((h e s).1, ⟨(h e s).2, []⟩) := rfl

@[simp] theorem Handler.flaky_once_zero {e : E} {f : Φ} :
    h.flaky e (Flaky.once 0 f s) = (failAnswer f e, ⟨s, []⟩) := rfl

@[simp] theorem Handler.flaky_once_succ {e : E} {f : Φ} {n : Nat} :
    h.flaky e (Flaky.once (n + 1) f s) = ((h e s).1, Flaky.once n f (h e s).2) := rfl

theorem Handler.within_faulty (h : Handler E S) (P : S → Prop) : Within h id (Faulty h P) :=
  fun e s => .done e s

theorem Handler.flaky_within (h : Handler E S) :
    Within h.flaky Flaky.state (Faulty h fun _ => True) := by
  intro e s
  obtain ⟨state, faults⟩ := s
  match faults with
  | some f :: rest => exact .failed e state f trivial
  | none :: rest => exact .done e state
  | [] => exact .done e state

/-- Without faults to come the handler is the one it was made from. -/
theorem Prog.run_flaky_nil (p : Prog E α) (s : S) :
    p.run h.flaky (⟨s, []⟩ : Flaky Φ S) = ((p.run h s).1, ⟨(p.run h s).2, []⟩) := by
  induction p generalizing s with
  | ret a => rfl
  | call e k ih => exact ih _ _

namespace Prog

/-- A single fault falls after the end, or is used up. -/
theorem run_once (p : Prog E α) (n : Nat) (f : Φ) (s : S) :
    (p.calls h s ≤ n ∧ p.run h.flaky (Flaky.once n f s) =
      ((p.run h s).1, Flaky.once (n - p.calls h s) f (p.run h s).2)) ∨
      (n < p.calls h s ∧ (p.run h.flaky (Flaky.once n f s)).2.faults = []) := by
  induction p generalizing n s with
  | ret a => exact .inl ⟨Nat.zero_le n, rfl⟩
  | call e k ih =>
    cases n with
    | zero =>
      refine .inr ⟨Nat.succ_pos _, ?_⟩
      rw [run_call, Handler.flaky_once_zero, run_flaky_nil]
    | succ n =>
      rw [run_call, run_call, Handler.flaky_once_succ, calls, Nat.succ_le_succ_iff,
        Nat.succ_lt_succ_iff, Nat.succ_sub_succ]
      exact ih _ n _

theorem wp_faulty_call {e : E} {k : Answer e → Prog E α} {Q : α → S → Prop} (crash : C s)
    (done : (k (h e s).1).wp (Faulty h P) C Q (h e s).2)
    (failed : P s → ∀ f, (k (failAnswer f e)).wp (Faulty h P) C Q s) :
    (Prog.call e k).wp (Faulty h P) C Q s := by
  refine wp_call.2 ⟨crash, fun r s' step => ?_⟩
  cases step with
  | done => exact done
  | failed _ _ f may => exact failed may f

/-- Where nothing fails the handler answers. -/
theorem wp_graph {p : Prog E α} {Q : α → S → Prop} (pre : p.wp (Faulty h fun _ => False) C Q s) :
    p.wp h.graph C Q s := by
  apply wp_behaviour pre _ fun _ crash => crash
  intro e s r s' act
  have same : h e s = (r, s') := act
  have done := @Faulty.done E S Φ _ _ h (fun _ => False) e s
  rwa [same] at done

end Prog

namespace Fallible

/-- One operation: the state may be crashed into before and after it. -/
theorem wpx_faulty_op {e : E} {read : Answer e → Except ε α} {Q : Except ε α → S → Prop}
    (crash : C s) (done : C (h e s).2 ∧ Q (read (h e s).1) (h e s).2)
    (failed : P s → ∀ f, Q (read (failAnswer f e)) s) :
    wpx (Faulty h P) C (op e read) Q s :=
  Prog.wp_faulty_call crash done fun may f => ⟨crash, failed may f⟩

/-- What holds of every faulty run holds of the one without faults. -/
theorem exec_of_wpx {x : Fallible E ε α} {Q : Except ε α → S → Prop} (pre : wpx (Faulty h P) C x Q s) :
    Q (exec h x s).1 (exec h x s).2 :=
  wpx_exec (h.within_faulty P) pre

theorem after_of_wpx {x : Fallible E ε α} {Q : Except ε α → S → Prop} (n : Nat)
    (pre : wpx (Faulty h P) C x Q s) :
    C (Prog.after h n x.run s) :=
  wpx_after (h.within_faulty P) n pre

/-- And of one with the faults of a list. -/
theorem flaky_of_wpx {x : Fallible E ε α} {Q : Except ε α → S → Prop} {faults : List (Option Φ)}
    (pre : wpx (Faulty h fun _ => True) C x Q s) :
    Q (exec h.flaky x ⟨s, faults⟩).1 (exec h.flaky x ⟨s, faults⟩).2.state :=
  wpx_exec h.flaky_within (show wpx _ C x Q (Flaky.state ⟨s, faults⟩) from pre)

end Fallible

end Pinpam.Effect
