import Pinpam.Effect.Fallible

/-!
# Complete runs

A run of a program to its end with its events, under a behaviour. `Watching` carries
along whether some event so far was of a kind, so a weakest precondition over it can
speak of all the events of a run, and `Folding` what has been made of them; `Labelled`
says of every operation which part of the program called it.
-/

namespace Pinpam.Effect
set_option autoImplicit false

variable {E L S T α β ε : Type} [Interface E]

/-- The events of a run to the end, its result and the state it leaves. -/
inductive Prog.Runs (R : Behaviour E S) : Prog E α → S → List (Event E S) → α → S → Prop where
  | ret (a : α) (s : S) : Runs R (.ret a) s [] a s
  | call {e : E} {k : Answer e → Prog E α} {r : Answer e} {s s' s'' : S}
      {events : List (Event E S)} {a : α} (act : R e s r s') (rest : Runs R (k r) s' events a s'') :
      Runs R (.call e k) s (⟨s, e, r, s'⟩ :: events) a s''

namespace Prog

variable {R R' : Behaviour E S} {C : S → Prop} {p : Prog E α} {Q : α → S → Prop} {s s' : S}
  {events : List (Event E S)} {a : α} {P : Event E S → Prop}

/-- What holds by the weakest precondition holds at the end. -/
theorem Runs.post (run : Runs R p s events a s') (pre : p.wp R C Q s) : Q a s' := by
  induction run with
  | ret => exact pre.2
  | call act _ ih => exact ih (pre.2 _ _ act)

/-- A run whose events are all of a kind is one of the behaviour of that kind. -/
theorem Runs.confined (run : Runs R p s events a s') (all : ∀ event ∈ events, P event) :
    Runs (fun e s r s' => R e s r s' ∧ P ⟨s, e, r, s'⟩) p s events a s' := by
  induction run with
  | ret => exact .ret _ _
  | call act _ ih =>
    exact .call ⟨act, all _ List.mem_cons_self⟩
      (ih fun event member => all event (List.mem_cons_of_mem _ member))

theorem Runs.mono (run : Runs R p s events a s') (imp : ∀ e s r s', R e s r s' → R' e s r s') :
    Runs R' p s events a s' := by
  induction run with
  | ret => exact .ret _ _
  | call act _ ih => exact .call (imp _ _ _ _ act) ih

/-- What the behaviour keeps at every event of a run holds at its end. -/
theorem Runs.keeps {I : S → Prop} (run : Runs R p s events a s')
    (each : ∀ event ∈ events, R event.op event.before event.answer event.after → I event.before →
      I event.after) (start : I s) :
    I s' := by
  induction run with
  | ret => exact start
  | call act _ ih =>
    exact ih (fun event member => each event (List.mem_cons_of_mem _ member))
      (each _ List.mem_cons_self act start)

/-- A run of two programs in sequence is one of each. -/
theorem Runs.of_bind {f : α → Prog E β} {b : β} (run : (p >>= f).Runs R s events b s') :
    ∃ first a between rest, events = first ++ rest ∧ p.Runs R s first a between ∧
      (f a).Runs R between rest b s' := by
  induction p generalizing s events with
  | ret a => exact ⟨[], a, s, events, rfl, .ret a s, run⟩
  | call e k ih =>
    cases run with
    | call act next =>
      obtain ⟨first, a, between, rest, rfl, left, right⟩ := ih _ next
      exact ⟨_, a, between, rest, rfl, .call act left, right⟩

/-- The events of a run are operations that the program calls. -/
theorem Runs.only {O : E → Prop} (run : p.Runs R s events a s') (only : p.Only O) :
    ∀ event ∈ events, O event.op := by
  induction run with
  | ret => exact nofun
  | call act _ ih => exact List.forall_mem_cons.2 ⟨only.1, ih (only.2 _)⟩

/-- A run under a handler is the run of the handler. -/
theorem Runs.run_graph {h : Handler E S} (run : p.Runs h.graph s events a s') : p.run h s = (a, s') := by
  induction run with
  | ret => rfl
  | call act _ ih =>
    rw [run_call, act]
    exact ih

/-- A program runs as a handler within the behaviour says. -/
theorem runs_run {h : Handler E T} {view : T → S} (within : Within h view R) (p : Prog E α) (t : T) :
    Runs R p (view t)
      ((p.trace h t).map fun event => ⟨view event.before, event.op, event.answer, view event.after⟩)
      (p.run h t).1 (view (p.run h t).2) := by
  induction p generalizing t with
  | ret a => exact .ret a _
  | call e k ih => exact .call (within e t) (ih (h e t).1 (h e t).2)

end Prog

/-- A run of a fallible sequence ends with the first program, or goes on with the second. -/
theorem Fallible.runs_of_bind {R : Behaviour E S} {x : Fallible E ε α} {f : α → Fallible E ε β}
    {s s' : S} {events : List (Event E S)} {r : Except ε β} (run : (x >>= f).run.Runs R s events r s') :
    (∃ e, r = .error e ∧ x.run.Runs R s events (.error e) s') ∨
      ∃ first a between rest, events = first ++ rest ∧ x.run.Runs R s first (.ok a) between ∧
        (f a).run.Runs R between rest r s' := by
  rw [run_bind_cases] at run
  obtain ⟨first, result, between, rest, rfl, left, right⟩ := run.of_bind
  cases result with
  | ok a => exact .inr ⟨first, a, between, rest, rfl, left, right⟩
  | error e =>
    cases right
    rw [List.append_nil]
    exact .inl ⟨e, rfl, left⟩

/-! ## Watching the events -/

/-- The second component says whether there has been an event of the kind. -/
def Watching (P : Event E S → Prop) (R : Behaviour E S) : Behaviour E (S × Prop) := fun e x r y =>
  R e x.1 r y.1 ∧ y.2 = (x.2 ∨ P ⟨x.1, e, r, y.1⟩)

section Watch

variable {P : Event E S → Prop} {R : Behaviour E S} {p : Prog E α} {s s' : S}
  {events : List (Event E S)} {a : α}

theorem Prog.Runs.watched (run : p.Runs R s events a s') (past : Prop) : ∃ watched,
    p.Runs (Watching P R) (s, past) watched a (s', past ∨ ∃ event ∈ events, P event) := by
  induction run generalizing past with
  | ret =>
    have none : (past ∨ ∃ event ∈ ([] : List (Event E S)), P event) = past := by simp
    rw [none]
    exact ⟨[], .ret _ _⟩
  | @call e k r s s' s'' events a act _ ih =>
    obtain ⟨watched, rest⟩ := ih (past ∨ P ⟨s, e, r, s'⟩)
    have all : (past ∨ ∃ event ∈ (⟨s, e, r, s'⟩ : Event E S) :: events, P event) =
        ((past ∨ P ⟨s, e, r, s'⟩) ∨ ∃ event ∈ events, P event) := by
      simp only [List.mem_cons, exists_eq_or_imp, or_assoc]
    rw [all]
    have step : Watching P R e (s, past) r (s', past ∨ P ⟨s, e, r, s'⟩) := ⟨act, rfl⟩
    exact ⟨_, .call step rest⟩

/-- What is known of a program under watch holds of its runs. -/
theorem Prog.Runs.judged {C : S × Prop → Prop} {Q : α → S × Prop → Prop} (run : p.Runs R s events a s')
    (pre : p.wp (Watching P R) C Q (s, False)) : Q a (s', ∃ event ∈ events, P event) := by
  obtain ⟨watched, seen⟩ := run.watched (P := P) False
  have post := seen.post pre
  rwa [false_or] at post

/-- What is known without the watch. -/
theorem Prog.wp_watching {C : S → Prop} {Q : α → S → Prop} {past : Prop} (pre : p.wp R C Q s) :
    p.wp (Watching P R) (fun _ => True) (fun a y => Q a y.1) (s, past) := by
  induction p generalizing s past with
  | ret a => exact ⟨trivial, pre.2⟩
  | call e k ih =>
    refine ⟨trivial, ?_⟩
    rintro r ⟨s', past'⟩ ⟨act, -⟩
    exact ih r (pre.2 r s' act)

/-- A program whose operations are not of the kind, while they keep `I`. -/
theorem Prog.wp_unseen {O : E → Prop} {I : S → Prop} {y : S × Prop}
    (keeps : ∀ e s r s', O e → I s → R e s r s' → I s' ∧ ¬ P ⟨s, e, r, s'⟩) (only : p.Only O)
    (start : I y.1) (unseen : ¬ y.2) :
    p.wp (Watching P R) (fun _ => True) (fun _ y => I y.1 ∧ ¬ y.2) y := by
  have kept : p.wp (Watching P R) (fun y => I y.1 ∧ ¬ y.2) (fun _ y => I y.1 ∧ ¬ y.2) y := by
    apply wp_only _ only ⟨start, unseen⟩
    rintro e ⟨s, past⟩ r ⟨s', past'⟩ called ⟨before, none⟩ ⟨act, seen⟩
    obtain ⟨after, other⟩ := keeps e s r s' called before act
    refine ⟨after, fun watched => ?_⟩
    rw [show past' = _ from seen] at watched
    exact watched.elim none other
  exact wp_behaviour kept (fun _ _ _ _ step => step) fun _ _ => trivial

/-- The run of a handler. -/
theorem Prog.wp_watching_run {h : Handler E S} {past : Prop} : p.wp (Watching P h.graph) (fun _ => True)
    (fun a y => a = (p.run h s).1 ∧ y.1 = (p.run h s).2 ∧ (past → y.2)) (s, past) := by
  induction p generalizing s past with
  | ret a => exact ⟨trivial, rfl, rfl, id⟩
  | call e k ih =>
    refine ⟨trivial, ?_⟩
    rintro r ⟨s', past'⟩ ⟨act, seen⟩
    obtain ⟨rfl, rfl⟩ := Prod.mk.inj (show ((h e s).1, (h e s).2) = (r, s') from act)
    refine wp_mono (ih _) fun a y _ ⟨same, left, kept⟩ => ⟨same, left, fun before => kept ?_⟩
    exact (show past' = _ from seen) ▸ Or.inl before

end Watch

/-! ## Folding the events -/

/-- The second component is what has been made of the events so far. -/
def Folding {G : Type} (note : G → Event E S → G) (R : Behaviour E S) : Behaviour E (S × G) :=
  fun e x r y =>
  R e x.1 r y.1 ∧ y.2 = note x.2 ⟨x.1, e, r, y.1⟩

section Fold

variable {G : Type} (note : G → Event E S → G) {R : Behaviour E S} {p : Prog E α} {s s' : S}
  {events : List (Event E S)} {a : α}

theorem Prog.Runs.folded (run : p.Runs R s events a s') (g : G) :
    ∃ noted, p.Runs (Folding note R) (s, g) noted a (s', events.foldl note g) := by
  induction run generalizing g with
  | ret => exact ⟨[], .ret _ _⟩
  | @call e k r s s' s'' events a act _ ih =>
    obtain ⟨noted, rest⟩ := ih (note g ⟨s, e, r, s'⟩)
    have step : Folding note R e (s, g) r (s', note g ⟨s, e, r, s'⟩) := ⟨act, rfl⟩
    exact ⟨_, .call step rest⟩

/-- What is known of a program whose events are folded holds of its runs. -/
theorem Prog.Runs.recounted {C : S × G → Prop} {Q : α → S × G → Prop} {g : G}
    (run : p.Runs R s events a s') (pre : p.wp (Folding note R) C Q (s, g)) :
    Q a (s', events.foldl note g) := by
  obtain ⟨noted, seen⟩ := run.folded note g
  exact seen.post pre

/-- Every event of a run is one of the behaviour. -/
theorem Prog.Runs.acts (run : p.Runs R s events a s') :
    ∀ event ∈ events, R event.op event.before event.answer event.after := by
  induction run with
  | ret => simp
  | call act _ ih => exact List.forall_mem_cons.2 ⟨act, ih⟩

end Fold

/-! ## Labels -/

/-- An operation and the part of the program that calls it. -/
structure Labelled (L E : Type) where
  label : L
  op : E

instance : Interface (Labelled L E) where
  Answer x := Answer x.op

/-- The behaviour does not see the labels. -/
def Behaviour.labelled (R : Behaviour E S) : Behaviour (Labelled L E) S := fun x => R x.op

def Handler.labelled (h : Handler E S) : Handler (Labelled L E) S := fun x => h x.op

/-- The program as a part of a larger one. -/
def Prog.label (l : L) : Prog E α → Prog (Labelled L E) α
  | .ret a => .ret a
  | .call e k => .call ⟨l, e⟩ fun r => (k r).label l

/-- A part of a program only calls operations of its label. -/
theorem Prog.wp_label {R : Behaviour (Labelled L E) S} {C : S → Prop} {l : L} {p : Prog E α}
    {Q : α → S → Prop} {s : S} :
    (p.label l).wp R C Q s ↔ p.wp (fun e => R ⟨l, e⟩) C Q s := by
  induction p generalizing s with
  | ret a => exact Iff.rfl
  | call e k ih => exact and_congr_right fun _ => forall₃_congr fun r s' _ => ih r

/-- A fallible part of a program. -/
def Fallible.label (l : L) (x : Fallible E ε α) : Fallible (Labelled L E) ε α :=
  ExceptT.mk (x.run.label l)

theorem Prog.run_label {h : Handler E S} {l : L} {p : Prog E α} {s : S} :
    (p.label l).run h.labelled s = p.run h s := by
  induction p generalizing s with
  | ret a => rfl
  | call e k ih => exact ih _

theorem Fallible.wpx_label {R : Behaviour (Labelled L E) S} {C : S → Prop} {l : L} {x : Fallible E ε α}
    {Q : Except ε α → S → Prop} {s : S} : wpx R C (x.label l) Q s ↔ wpx (fun e => R ⟨l, e⟩) C x Q s :=
  Prog.wp_label

end Pinpam.Effect
