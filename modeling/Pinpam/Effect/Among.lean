import Mathlib.Logic.Relation
import Pinpam.Effect.Runs

/-!
# A program among others

Between two operations of a program others may take any number of steps. What they leave
alone the program sees as if it ran alone: a judgement on a view of the states that no
step of the others moves is one on the states themselves.
-/

namespace Pinpam.Effect
set_option autoImplicit false

variable {E S T α : Type} [Interface E] {others others' : S → S → Prop} {R : Behaviour E S}
  {view : S → T} {s s' : S}

/-- Each operation comes after any number of steps of the others. -/
def Among (others : S → S → Prop) (R : Behaviour E S) : Behaviour E S := fun e s r s' =>
  ∃ between, Relation.ReflTransGen others s between ∧ R e between r s'

/-- What one step leaves alone, any number does. -/
theorem view_kept (still : ∀ s s', others s s' → view s' = view s)
    (steps : Relation.ReflTransGen others s s') : view s' = view s := by
  induction steps with
  | refl => rfl
  | tail _ step ih => rw [still _ _ step, ih]

namespace Prog

variable {R' : Behaviour E T} {C : T → Prop} {p : Prog E α} {Q : α → T → Prop}

/-- The view of a run among others is a run on the view. -/
theorem wp_among (still : ∀ s s', others s s' → view s' = view s)
    (acts : ∀ e s r s', R e s r s' → R' e (view s) r (view s')) (pre : p.wp R' C Q (view s)) :
    p.wp (Among others R) (fun s => C (view s)) (fun a s => Q a (view s)) s := by
  induction p generalizing s with
  | ret a => exact pre
  | call e k ih =>
    refine ⟨pre.1, ?_⟩
    rintro r s' ⟨between, steps, act⟩
    have seen := acts e between r s' act
    rw [view_kept still steps] at seen
    exact ih r (pre.2 r _ seen)

/-- And so for complete runs. -/
theorem Runs.among {events : List (Event E S)} {a : α} (run : p.Runs (Among others R) s events a s')
    (still : ∀ s s', others s s' → view s' = view s)
    (acts : ∀ e s r s', R e s r s' → R' e (view s) r (view s')) (pre : p.wp R' C Q (view s)) :
    Q a (view s') :=
  run.post (wp_among still acts pre)

end Prog

end Pinpam.Effect
