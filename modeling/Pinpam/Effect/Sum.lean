import Pinpam.Effect.Fault
import Pinpam.Effect.Runs

/-!
# The sum of two interfaces

A program that calls two interfaces runs over the product of their states; a program
over the first alone is injected with `inl`, and what is known of it there is known
of it in the sum, the second state unchanged.
-/

namespace Pinpam.Effect
set_option autoImplicit false

variable {E F S U α β ε : Type} [Interface E] [Interface F]

instance : Interface (E ⊕ F) where
  Answer := Sum.elim Answer Answer

/-- Each handler on its own state. -/
def Handler.sum (h : Handler E S) (g : Handler F U) : Handler (E ⊕ F) (S × U)
  | .inl e, s => ((h e s.1).1, (h e s.1).2, s.2)
  | .inr f, s => ((g f s.2).1, s.1, (g f s.2).2)

/-- Each behaviour on its own state. -/
def Behaviour.sum (R : Behaviour E S) (R' : Behaviour F U) : Behaviour (E ⊕ F) (S × U)
  | .inl e, s, r, s' => R e s.1 r s'.1 ∧ s'.2 = s.2
  | .inr f, s, r, s' => R' f s.2 r s'.2 ∧ s'.1 = s.1

theorem Within.sum {T T' : Type} {h : Handler E T} {g : Handler F T'} {view : T → S}
    {view' : T' → U} {R : Behaviour E S} {R' : Behaviour F U} (left : Within h view R)
    (right : Within g view' R') :
    Within (h.sum g) (Prod.map view view') (R.sum R') := by
  intro e s
  cases e with
  | inl e => exact ⟨left e s.1, rfl⟩
  | inr f => exact ⟨right f s.2, rfl⟩

namespace Prog

/-- A program over the first interface, in the sum. -/
def inl : Prog E α → Prog (E ⊕ F) α
  | .ret a => .ret a
  | .call e k => .call (.inl e) fun r => (k r).inl

theorem run_inl {h : Handler E S} {g : Handler F U} (p : Prog E α) (s : S) (u : U) :
    (p.inl : Prog (E ⊕ F) α).run (h.sum g) (s, u) = ((p.run h s).1, (p.run h s).2, u) := by
  induction p generalizing s with
  | ret a => rfl
  | call e k ih => exact ih _ _

theorem wp_inl {R : Behaviour E S} {R' : Behaviour F U} {C : S × U → Prop} {p : Prog E α}
    {Q : α → S × U → Prop} {s : S} {u : U} : (p.inl : Prog (E ⊕ F) α).wp (R.sum R') C Q (s, u) ↔
      p.wp R (fun s => C (s, u)) (fun a s => Q a (s, u)) s := by
  induction p generalizing s with
  | ret a => exact Iff.rfl
  | call e k ih =>
    constructor
    · rintro ⟨crash, next⟩
      exact ⟨crash, fun r s' step => (ih r).1 (next r (s', u) ⟨step, rfl⟩)⟩
    · rintro ⟨crash, next⟩
      refine ⟨crash, ?_⟩
      rintro r ⟨s', u'⟩ ⟨step, same⟩
      cases same
      exact (ih r).2 (next r s' step)

/-- Under any behaviour of the sum an injected program only meets the first interface. -/
theorem wp_left {R : Behaviour (E ⊕ F) S} {C : S → Prop} {p : Prog E α} {Q : α → S → Prop} {s : S} :
    (p.inl : Prog (E ⊕ F) α).wp R C Q s ↔ p.wp (fun e => R (.inl e)) C Q s := by
  induction p generalizing s with
  | ret a => exact Iff.rfl
  | call e k ih => exact and_congr_right fun _ => forall₃_congr fun r s' _ => ih r

theorem only_inl {O : E ⊕ F → Prop} {p : Prog E α} (only : p.Only fun e => O (.inl e)) :
    (p.inl : Prog (E ⊕ F) α).Only O := by
  induction p with
  | ret a => trivial
  | call e k ih => exact ⟨only.1, fun r => ih r (only.2 r)⟩

theorem returns_inl {Φ : α → Prop} {p : Prog E α} (returns : p.Returns Φ) :
    (p.inl : Prog (E ⊕ F) α).Returns Φ := by
  induction p with
  | ret a => exact returns
  | call e k ih => exact fun r => ih r (returns r)

theorem inl_bind {p : Prog E α} {f : α → Prog E β} :
    ((p >>= f).inl : Prog (E ⊕ F) β) = p.inl >>= fun a => (f a).inl := by
  induction p with
  | ret a => rfl
  | call e k ih =>
    simp only [call_bind, inl]
    congr 1
    funext r
    exact ih r

end Prog

namespace Fallible

/-- A fallible program over the first interface, in the sum. -/
def inl (x : Fallible E ε α) : Fallible (E ⊕ F) ε α := ExceptT.mk x.run.inl

theorem inl_bind {x : Fallible E ε α} {f : α → Fallible E ε β} :
    (inl (x >>= f) : Fallible (E ⊕ F) ε β) = inl x >>= fun a => inl (f a) := by
  have split : ((inl (x >>= f)).run : Prog (E ⊕ F) (Except ε β)) =
      (inl x >>= fun a => inl (f a)).run := by
    show (x >>= f).run.inl = _
    rw [run_bind_cases, Prog.inl_bind, run_bind_cases]
    congr 1
    funext r
    cases r with
    | ok a => rfl
    | error e => rfl
  exact split

/-- One operation of the second interface. -/
def inr (f : F) (read : Answer f → Except ε α) : Fallible (E ⊕ F) ε α := op (Sum.inr f) read

theorem onlyX_inl {O : E ⊕ F → Prop} {x : Fallible E ε α} (only : OnlyX (fun e => O (.inl e)) x) :
    OnlyX O (inl x) :=
  Prog.only_inl only

theorem throwsX_inl {Φ : ε → Prop} {x : Fallible E ε α} (throws : ThrowsX Φ x) :
    ThrowsX Φ (inl x : Fallible (E ⊕ F) ε α) :=
  Prog.returns_inl throws

section Exec

variable {h : Handler E S} {g : Handler F U} {s : S} {u : U}

@[simp] theorem exec_inl {x : Fallible E ε α} :
    exec (h.sum g) (inl x) (s, u) = ((exec h x s).1, (exec h x s).2, u) :=
  Prog.run_inl x.run s u

@[simp] theorem exec_inr {f : F} {read : Answer f → Except ε α} :
    exec (h.sum g) (inr f read) (s, u) = (read (g f u).1, s, (g f u).2) := rfl

end Exec

section Wp

variable {R : Behaviour E S} {R' : Behaviour F U} {C : S × U → Prop} {Q : Except ε α → S × U → Prop}
  {s : S} {u : U}

theorem wpx_inl {x : Fallible E ε α} : wpx (R.sum R') C (inl x) Q (s, u) ↔
    wpx R (fun s => C (s, u)) x (fun r s => Q r (s, u)) s :=
  Prog.wp_inl

theorem wpx_inr {f : F} {read : Answer f → Except ε α} : wpx (R.sum R') C (inr f read) Q (s, u) ↔
    C (s, u) ∧ ∀ r u', R' f u r u' → C (s, u') ∧ Q (read r) (s, u') := by
  constructor
  · rintro ⟨crash, next⟩
    exact ⟨crash, fun r u' step => next r (s, u') ⟨step, rfl⟩⟩
  · rintro ⟨crash, next⟩
    refine ⟨crash, ?_⟩
    rintro r ⟨s', u'⟩ ⟨step, same⟩
    cases same
    exact next r u' step

end Wp

end Fallible

/-! ## Failures that stop -/

/-- Operations fail while `P` has held all along; the second component says whether it
has. -/
inductive Latched {Φ : Type} [Failing E Φ] (h : Handler E S) (P : S → Prop) :
    Behaviour E (S × Prop) where
  | done (e : E) (s : S) (live : Prop) :
      Latched h P e (s, live) (h e s).1 ((h e s).2, live ∧ P (h e s).2)
  | failed (e : E) (s : S) (live : Prop) (f : Φ) (may : live) :
      Latched h P e (s, live) (failAnswer f e) (s, live)

section Latch

variable {Φ : Type} [Failing E Φ] {h : Handler E S} {P : S → Prop} {C : S → Prop} {s : S} {live : Prop}

/-- While failures may happen, `P` holds. -/
theorem Prog.wp_latched {p : Prog E α} {Q : α → S → Prop} (pre : p.wp (Faulty h P) C Q s)
    (holds : live → P s) :
    p.wp (Latched h P) (fun x => C x.1) (fun a x => Q a x.1 ∧ (x.2 → P x.1)) (s, live) := by
  induction p generalizing s live with
  | ret a => exact ⟨pre.1, pre.2, holds⟩
  | call e k ih =>
    refine ⟨pre.1, ?_⟩
    rintro r _ (_ | ⟨_, _, _, f, may⟩)
    · exact ih _ (pre.2 _ _ (.done _ s)) And.right
    · exact ih _ (pre.2 _ _ (.failed _ s f (holds may))) holds

/-- Once they have stopped there are none. -/
theorem Prog.wp_unlatched {p : Prog E α} {Q : α → S → Prop}
    (pre : p.wp (Faulty h fun _ => False) C Q s) (dead : ¬ live) :
    p.wp (Latched h P) (fun x => C x.1) (fun a x => Q a x.1 ∧ ¬ x.2) (s, live) := by
  induction p generalizing s live with
  | ret a => exact ⟨pre.1, pre.2, dead⟩
  | call e k ih =>
    refine ⟨pre.1, ?_⟩
    rintro r _ (_ | ⟨_, _, _, f, may⟩)
    · exact ih _ (pre.2 _ _ (.done _ s)) fun still => dead still.1
    · exact absurd may dead

/-- The run in which nothing fails. -/
theorem Prog.runs_latched {g : Handler F U} (p : Prog (E ⊕ F) α) (s : S) (live : Prop) (u : U) :
    ∃ events live', p.Runs ((Latched h P).sum g.graph) ((s, live), u) events
      (p.run (h.sum g) (s, u)).1
      (((p.run (h.sum g) (s, u)).2.1, live'), (p.run (h.sum g) (s, u)).2.2) := by
  induction p generalizing s live u with
  | ret a => exact ⟨[], live, .ret a _⟩
  | call e k ih =>
    cases e with
    | inl e =>
      obtain ⟨events, live', rest⟩ := ih (h e s).1 (h e s).2 (live ∧ P (h e s).2) u
      have act : (Latched h P).sum g.graph (.inl e) ((s, live), u) (h e s).1
          (((h e s).2, live ∧ P (h e s).2), u) := ⟨.done e s live, rfl⟩
      exact ⟨_, live', .call act rest⟩
    | inr f =>
      obtain ⟨events, live', rest⟩ := ih (g f u).1 s live (g f u).2
      have act : (Latched h P).sum g.graph (.inr f) ((s, live), u) (g f u).1
          ((s, live), (g f u).2) := ⟨rfl, rfl⟩
      exact ⟨_, live', .call act rest⟩

end Latch

end Pinpam.Effect
