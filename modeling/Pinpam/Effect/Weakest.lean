import Pinpam.Effect.Prog

/-!
# Weakest preconditions with a crash condition

A behaviour says which answers and next states an operation may have, so it covers
environments that fail calls at will. `wp R C p Q s` holds when every way `p` can go
from `s` under `R` ends in `Q` and never leaves `C` on the way: `Q` speaks of a run
to the end, `C` of one cut short between two calls. `Ends` is the operational
reading, with a process killed only where `K` allows it.
-/

namespace Pinpam.Effect
set_option autoImplicit false

/-- The answers and next states each operation may have. -/
abbrev Behaviour (E S : Type) [Interface E] := (e : E) → S → Answer e → S → Prop

variable {E F S T α β : Type} [Interface E] [Interface F]

/-- A handler stays within a behaviour, seen through a projection of its states. -/
def Within (h : Handler E T) (view : T → S) (R : Behaviour E S) : Prop :=
  ∀ e s, R e (view s) (h e s).1 (view (h e s).2)

/-- The behaviour of a handler. -/
def Handler.graph (h : Handler E S) : Behaviour E S := fun e s r s' => h e s = (r, s')

theorem Handler.graph_within (h : Handler E S) : Within h id h.graph := fun _ _ => rfl

/-- How a process may end: with a result, or killed (`none`) where `K` allows it. -/
inductive Ends (R : Behaviour E S) (K : S → Prop) : Prog E α → S → Option α → S → Prop where
  | ret (a : α) (s : S) : Ends R K (.ret a) s (some a) s
  | killed {p : Prog E α} {s : S} (allowed : K s) : Ends R K p s none s
  | call {e : E} {k : Answer e → Prog E α} {r : Answer e} {o : Option α} {s s' s'' : S}
      (step : R e s r s') (rest : Ends R K (k r) s' o s'') : Ends R K (.call e k) s o s''

namespace Prog

variable {R : Behaviour E S} {C K : S → Prop}

/-- The weakest precondition of `Q` at the end and `C` at every cut. -/
def wp (R : Behaviour E S) (C : S → Prop) : Prog E α → (α → S → Prop) → S → Prop
  | .ret a, Q, s => C s ∧ Q a s
  | .call e k, Q, s => C s ∧ ∀ r s', R e s r s' → (k r).wp R C Q s'

@[simp] theorem wp_ret {a : α} {Q : α → S → Prop} {s : S} :
    (Prog.ret a : Prog E α).wp R C Q s ↔ C s ∧ Q a s := Iff.rfl

@[simp] theorem wp_call {e : E} {k : Answer e → Prog E α} {Q : α → S → Prop} {s : S} :
    (Prog.call e k).wp R C Q s ↔ C s ∧ ∀ r s', R e s r s' → (k r).wp R C Q s' := Iff.rfl

theorem wp_crash {p : Prog E α} {Q : α → S → Prop} {s : S} (h : p.wp R C Q s) : C s := by
  cases p <;> exact h.1

theorem wp_mono {p : Prog E α} {Q Q' : α → S → Prop} {s : S} (h : p.wp R C Q s)
    (imp : ∀ a s, C s → Q a s → Q' a s) : p.wp R C Q' s := by
  induction p generalizing s with
  | ret a => exact ⟨h.1, imp a s h.1 h.2⟩
  | call e k ih => exact ⟨h.1, fun r s' step => ih r (h.2 r s' step)⟩

theorem wp_bind {p : Prog E α} {f : α → Prog E β} {Q : β → S → Prop} {s : S} :
    (p >>= f).wp R C Q s ↔ p.wp R C (fun a s' => (f a).wp R C Q s') s := by
  induction p generalizing s with
  | ret a => exact ⟨fun h => ⟨wp_crash h, h⟩, fun h => h.2⟩
  | call e k ih =>
    rw [call_bind, wp_call, wp_call]
    exact and_congr_right fun _ => forall₃_congr fun r s' _ => ih r

/-- Sequencing by the specification of the first part. -/
theorem wp_seq {p : Prog E α} {f : α → Prog E β} {P : α → S → Prop} {Q : β → S → Prop} {s : S}
    (first : p.wp R C P s) (next : ∀ a s', C s' → P a s' → (f a).wp R C Q s') :
    (p >>= f).wp R C Q s :=
  wp_bind.2 (wp_mono first next)

/-- A specification conjoined with itself. -/
theorem wp_and {p : Prog E α} {Q Q' : α → S → Prop} {s : S} (h : p.wp R C Q s)
    (h' : p.wp R C Q' s) : p.wp R C (fun a s => Q a s ∧ Q' a s) s := by
  induction p generalizing s with
  | ret a => exact ⟨h.1, h.2, h'.2⟩
  | call e k ih => exact ⟨h.1, fun r s' step => ih r (h.2 r s' step) (h'.2 r s' step)⟩

/-- Fewer behaviours and a weaker crash condition need less. -/
theorem wp_behaviour {R' : Behaviour E S} {C' : S → Prop} {p : Prog E α} {Q : α → S → Prop} {s : S}
    (h : p.wp R C Q s) (fewer : ∀ e s r s', R' e s r s' → R e s r s') (weaker : ∀ s, C s → C' s) :
    p.wp R' C' Q s := by
  induction p generalizing s with
  | ret a => exact ⟨weaker s h.1, h.2⟩
  | call e k ih => exact ⟨weaker s h.1, fun r s' step => ih r (h.2 r s' (fewer e s r s' step))⟩

/-- An invariant of every operation is one of every program. -/
theorem wp_invariant {I : S → Prop} (keeps : ∀ e s r s', I s → R e s r s' → I s') (p : Prog E α)
    {s : S} (start : I s) : p.wp R I (fun _ => I) s := by
  induction p generalizing s with
  | ret a => exact ⟨start, start⟩
  | call e k ih => exact ⟨start, fun r s' step => ih r (keeps e s r s' start step)⟩

/-! ## Programs of some operations -/

/-- Whatever the answers, the program only calls operations of `O`. -/
def Only (O : E → Prop) : Prog E α → Prop
  | .ret _ => True
  | .call e k => O e ∧ ∀ r, (k r).Only O

theorem only_any {O : E → Prop} (all : ∀ e, O e) (p : Prog E α) : p.Only O := by
  induction p with
  | ret a => trivial
  | call e k ih => exact ⟨all e, ih⟩

theorem only_bind {O : E → Prop} {p : Prog E α} {f : α → Prog E β} (first : p.Only O)
    (next : ∀ a, (f a).Only O) :
    (p >>= f).Only O := by
  induction p with
  | ret a => exact next a
  | call e k ih => exact ⟨first.1, fun r => ih r (first.2 r)⟩

theorem only_mono {O O' : E → Prop} {p : Prog E α} (only : p.Only O) (imp : ∀ e, O e → O' e) :
    p.Only O' := by
  induction p with
  | ret a => trivial
  | call e k ih => exact ⟨imp e only.1, fun r => ih r (only.2 r)⟩

/-- The frame rule: what the operations of `O` keep, the program keeps. -/
theorem wp_only {O : E → Prop} {I : S → Prop} (keeps : ∀ e s r s', O e → I s → R e s r s' → I s')
    {p : Prog E α} (only : p.Only O) {s : S} (start : I s) : p.wp R I (fun _ => I) s := by
  induction p generalizing s with
  | ret a => exact ⟨start, start⟩
  | call e k ih => exact ⟨start, fun r s' step => ih r (only.2 r) (keeps e s r s' only.1 start step)⟩

/-- Whatever the answers, the result satisfies `Φ`. -/
def Returns (Φ : α → Prop) : Prog E α → Prop
  | .ret a => Φ a
  | .call _ k => ∀ r, (k r).Returns Φ

theorem returns_any {Φ : α → Prop} (all : ∀ a, Φ a) (p : Prog E α) : p.Returns Φ := by
  induction p with
  | ret a => exact all a
  | call e k ih => exact ih

theorem returns_bind {Φ : α → Prop} {Ψ : β → Prop} {p : Prog E α} {f : α → Prog E β}
    (first : p.Returns Φ) (next : ∀ a, Φ a → (f a).Returns Ψ) : (p >>= f).Returns Ψ := by
  induction p with
  | ret a => exact next a first
  | call e k ih => exact fun r => ih r (first r)

theorem wp_returns {Φ : α → Prop} {p : Prog E α} {Q : α → S → Prop} {s : S} (returns : p.Returns Φ)
    (pre : p.wp R C Q s) :
    p.wp R C (fun a s => Q a s ∧ Φ a) s := by
  induction p generalizing s with
  | ret a => exact ⟨pre.1, pre.2, returns⟩
  | call e k ih => exact ⟨pre.1, fun r s' step => ih r (returns r) (pre.2 r s' step)⟩

theorem only_seq {O : E → Prop} {Φ : α → Prop} {p : Prog E α} {f : α → Prog E β} (first : p.Only O)
    (returns : p.Returns Φ) (next : ∀ a, Φ a → (f a).Only O) : (p >>= f).Only O := by
  induction p with
  | ret a => exact next a returns
  | call e k ih => exact ⟨first.1, fun r => ih r (first.2 r) (returns r)⟩

/-! ## Soundness -/

section Sound

variable {h : Handler E T} {view : T → S} {p : Prog E α} {Q : α → S → Prop}

/-- The end of a run within the behaviour. -/
theorem wp_run (within : Within h view R) {s : T} (pre : p.wp R C Q (view s)) :
    Q (p.run h s).1 (view (p.run h s).2) := by
  induction p generalizing s with
  | ret a => exact pre.2
  | call e k ih => exact ih _ (pre.2 _ _ (within e s))

/-- Every cut of a run within the behaviour. -/
theorem wp_after (within : Within h view R) (n : Nat) {s : T} (pre : p.wp R C Q (view s)) :
    C (view (p.after h n s)) := by
  induction p generalizing n s with
  | ret a => rw [after_ret]; exact pre.1
  | call e k ih =>
    cases n with
    | zero => exact pre.1
    | succ n => exact ih _ n (pre.2 _ _ (within e s))

/-- Every operational end. -/
theorem wp_ends {s s' : S} {o : Option α} (pre : p.wp R C Q s) (ends : Ends R K p s o s') :
    C s' ∧ (o = none → K s') ∧ ∀ a, o = some a → Q a s' := by
  induction ends with
  | ret a s => exact ⟨pre.1, nofun, fun _ e => Option.some.inj e ▸ pre.2⟩
  | killed allowed => exact ⟨wp_crash pre, fun _ => allowed, nofun⟩
  | call step rest ih => exact ih (pre.2 _ _ step)

/-- A run of a handler within the behaviour is one way to end. -/
theorem ends_run (within : Within h view R) (p : Prog E α) (s : T) :
    Ends R K p (view s) (some (p.run h s).1) (view (p.run h s).2) := by
  induction p generalizing s with
  | ret a => exact .ret a _
  | call e k ih => exact .call (within e s) (ih _ _)

/-- A cut of such a run is another, where killing is allowed. -/
theorem ends_after (within : Within h view R) (p : Prog E α) (n : Nat) (s : T)
    (allowed : K (view (p.after h n s))) :
    ∃ o, Ends R K p (view s) o (view (p.after h n s)) := by
  induction p generalizing n s with
  | ret a => rw [after_ret]; exact ⟨_, .ret a _⟩
  | call e k ih =>
    cases n with
    | zero => exact ⟨none, .killed allowed⟩
    | succ n =>
      obtain ⟨o, rest⟩ := ih _ n _ allowed
      exact ⟨o, .call (within e s) rest⟩

end Sound

end Prog

end Pinpam.Effect
