import Pinpam.Effect.Fault
import Pinpam.Effect.Rely

/-!
# Schedules

A schedule says which process is served next and whether its operation fails, so a run
of the pool can be computed. A process that has returned, or that there is none of, is
passed over.
-/

namespace Pinpam.Effect
set_option autoImplicit false

variable {E S T Φ α : Type} [Interface E]

/-- The result of a program that has returned. -/
def Prog.result? : Prog E α → Option α
  | .ret a => some a
  | .call .. => none

theorem Prog.eq_ret_of_result? {p : Prog E α} {a : α} (result : p.result? = some a) : p = .ret a := by
  cases p with
  | ret b => exact congrArg Prog.ret (Option.some.inj result)
  | call => cases result

/-- A pool in which every program has returned. -/
theorem Pool.eq_ret_of_results {pool : List (Prog E α)} {results : List α}
    (told : pool.map Prog.result? = results.map some) : pool = results.map .ret := by
  induction pool generalizing results with
  | nil => rw [List.map_eq_nil_iff.1 told.symm, List.map_nil]
  | cons p pool ih =>
    obtain ⟨a, results, rfl, first, rest⟩ := List.map_eq_cons_iff.1 told.symm
    rw [List.map_cons, ← Prog.eq_ret_of_result? first.symm, ← ih rest.symm]

theorem Pool.exists_results {pool : List (Prog E α)}
    (done : ∀ p ∈ pool, p.result?.isSome) : ∃ results : List α, pool = results.map .ret := by
  refine ⟨pool.filterMap Prog.result?, Pool.eq_ret_of_results ?_⟩
  induction pool with
  | nil => rfl
  | cons p pool ih =>
    obtain ⟨a, told⟩ := Option.isSome_iff_exists.1 (done p List.mem_cons_self)
    rw [List.map_cons, List.filterMap_cons_some told, List.map_cons, told,
      ih fun q member => done q (List.mem_cons_of_mem p member)]

/-- The event as it is seen. -/
def Event.seen (view : T → S) (event : Event E T) : Event E S :=
  ⟨view event.before, event.op, event.answer, view event.after⟩

variable [Failing E Φ]

/-- One operation, which fails if there is a fault. -/
def Handler.turn (h : Handler E S) (fault : Option Φ) (e : E) (s : S) : Answer e × S :=
  match fault with
  | none => h e s
  | some f => (failAnswer f e, s)

namespace Pool

/-- One turn of a process. -/
def serve (h : Handler E S) (x : Nat × Option Φ) (pool : List (Prog E α)) (s : S) :
    List (Prog E α) × S :=
  match pool[x.1]? with
  | some (.call e k) => (pool.set x.1 (k (h.turn x.2 e s).1), (h.turn x.2 e s).2)
  | _ => (pool, s)

/-- The pool and the state after a schedule. -/
def play (h : Handler E S) : List (Nat × Option Φ) → List (Prog E α) → S → List (Prog E α) × S
  | [], pool, s => (pool, s)
  | x :: schedule, pool, s => play h schedule (serve h x pool s).1 (serve h x pool s).2

/-- The event of a turn, if the process has a call. -/
def event? (h : Handler E S) (x : Nat × Option Φ) (pool : List (Prog E α)) (s : S) :
    Option (Nat × Event E S) :=
  match pool[x.1]? with
  | some (.call e _) => some (x.1, ⟨s, e, (h.turn x.2 e s).1, (h.turn x.2 e s).2⟩)
  | _ => none

/-- The events of a schedule. -/
def events (h : Handler E S) : List (Nat × Option Φ) → List (Prog E α) → S → List (Nat × Event E S)
  | [], _, _ => []
  | x :: schedule, pool, s => (event? h x pool s).toList ++ events h schedule (serve h x pool s).1
    (serve h x pool s).2

/-- The turns of a schedule without faults. -/
def inTurn (turns : List Nat) : List (Nat × Option Φ) := turns.map fun i => (i, none)

theorem inTurn_calm {turns : List Nat} : ∀ x ∈ (inTurn turns : List (Nat × Option Φ)), x.2 = none := by
  intro x member
  obtain ⟨i, -, rfl⟩ := List.mem_map.1 member
  rfl

variable {h : Handler E S} {x : Nat × Option Φ} {schedule : List (Nat × Option Φ)}
  {pool : List (Prog E α)} {s : S}

/-- A process that has a call is served, any other is passed over. -/
theorem serve_cases (h : Handler E S) (x : Nat × Option Φ) (pool : List (Prog E α)) (s : S) :
    (∃ e k, pool[x.1]? = some (.call e k) ∧
      serve h x pool s = (pool.set x.1 (k (h.turn x.2 e s).1), (h.turn x.2 e s).2) ∧
      event? h x pool s = some (x.1, ⟨s, e, (h.turn x.2 e s).1, (h.turn x.2 e s).2⟩)) ∨
    ((∀ e k, pool[x.1]? ≠ some (.call e k)) ∧ serve h x pool s = (pool, s) ∧
      event? h x pool s = none) := by
  unfold serve event?
  cases pool[x.1]? with
  | none => exact .inr ⟨nofun, rfl, rfl⟩
  | some p =>
    cases p with
    | ret a => exact .inr ⟨nofun, rfl, rfl⟩
    | call e k => exact .inl ⟨e, k, rfl, rfl, rfl⟩

/-- A schedule without faults is a run. -/
theorem steps_play (calm : ∀ x ∈ schedule, x.2 = none) :
    Steps h.graph pool s (events h schedule pool s) (play h schedule pool s).1
      (play h schedule pool s).2 := by
  induction schedule generalizing pool s with
  | nil => exact .stopped _ _
  | cons x schedule ih =>
    have rest := @ih (serve h x pool s).1 (serve h x pool s).2 fun y member =>
        calm y (List.mem_cons_of_mem _ member)
    unfold play events
    rcases serve_cases h x pool s with ⟨e, k, turn, served, event⟩ | ⟨-, passed, event⟩
    · rw [calm x List.mem_cons_self] at served event
      rw [served] at rest ⊢
      rw [event]
      exact .step turn rfl rest
    · rw [passed] at rest ⊢
      rw [event]
      exact rest

/-- A run of a handler is a run of the behaviour it is within. -/
theorem Steps.seen {g : Handler E T} {view : T → S} {R : Behaviour E S}
    {pool pool' : List (Prog E α)} {s s' : T} {events : List (Nat × Event E T)}
    (within : Within g view R) (run : Steps g.graph pool s events pool' s') :
    Steps R pool (view s) (events.map fun x => (x.1, x.2.seen view)) pool' (view s') := by
  induction run with
  | stopped => exact .stopped _ _
  | @step pool pool' i e k r s s' s'' events turn act rest ih =>
    have answered := within e s
    rw [show g e s = (r, s') from act] at answered
    exact .step turn answered ih

/-! ## Hidden processes -/

section Hidden

variable {Same : S → S → Prop} {hidden : Nat → Bool} {O O' : E → Prop} {pool' : List (Prog E α)}
  {s' : S}

/-- The operations the processes of a pool may call. -/
def Confined (hidden : Nat → Bool) (O O' : E → Prop) (pool : List (Prog E α)) : Prop :=
  ∀ i (p : Prog E α), pool[i]? = some p → p.Only fun e => if hidden i then O e else O' e

theorem confined_set {i : Nat} {e : E} {k : Answer e → Prog E α} {r : Answer e}
    (confined : Confined hidden O O' pool) (turn : pool[i]? = some (.call e k)) :
    Confined hidden O O' (pool.set i (k r)) := by
  intro j p at_
  by_cases same : i = j
  · subst same
    rw [List.getElem?_set_self (List.getElem?_eq_some_iff.1 turn).1] at at_
    cases at_
    exact (confined i _ turn).2 r
  · rw [List.getElem?_set_ne same] at at_
    exact confined j p at_

theorem turn_blind (blind : ∀ e s s', O e → Same s s' → Same (h e s).2 s') {e : E}
    {fault : Option Φ} (own : O e) (same : Same s s') : Same (h.turn fault e s).2 s' := by
  cases fault with
  | none => exact blind e s s' own same
  | some f => exact same

theorem turn_alike
    (alike : ∀ e s s', O' e → Same s s' → (h e s).1 = (h e s').1 ∧ Same (h e s).2 (h e s').2)
    {e : E} {fault : Option Φ} (own : O' e) (same : Same s s') :
    (h.turn fault e s).1 = (h.turn fault e s').1 ∧ Same (h.turn fault e s).2 (h.turn fault e s').2 := by
  cases fault with
  | none => exact alike e s s' own same
  | some f => exact ⟨rfl, same⟩

/-- Where the operations of the hidden processes are not seen by the others, these go as
they go without them. -/
theorem play_hidden (blind : ∀ e s s', O e → Same s s' → Same (h e s).2 s')
    (alike : ∀ e s s', O' e → Same s s' → (h e s).1 = (h e s').1 ∧ Same (h e s).2 (h e s').2)
    (confined : Confined hidden O O' pool) (shown : ∀ i, hidden i = false → pool[i]? = pool'[i]?)
    (same : Same s s') :
    (∀ i, hidden i = false → (play h schedule pool s).1[i]? =
      (play h (schedule.filter fun x => !hidden x.1) pool' s').1[i]?) ∧
    Same (play h schedule pool s).2 (play h (schedule.filter fun x => !hidden x.1) pool' s').2 := by
  induction schedule generalizing pool pool' s s' with
  | nil => exact ⟨shown, same⟩
  | cons x schedule ih =>
    cases own : hidden x.1 with
    | true =>
      rw [List.filter_cons_of_neg (by simp [own]), play]
      rcases serve_cases h x pool s with ⟨e, k, turn, served, -⟩ | ⟨-, passed, -⟩
      · have called : O e := by
          have first := (confined x.1 _ turn).1
          simpa only [own, if_true] using first
        rw [served]
        refine ih (confined_set confined turn) (fun i visible => ?_) (turn_blind blind called same)
        have ne : x.1 ≠ i := by
          rintro rfl
          rw [own] at visible
          cases visible
        rw [List.getElem?_set_ne ne]
        exact shown i visible
      · rw [passed]
        exact ih confined shown same
    | false =>
      rw [List.filter_cons_of_pos (by simp [own]), play, play]
      rcases serve_cases h x pool s with ⟨e, k, turn, served, -⟩ | ⟨idle, passed, -⟩
      · have called : O' e := by
          have first := (confined x.1 _ turn).1
          simpa only [own, Bool.false_eq_true, if_false] using first
        have turn' := (shown x.1 own).symm.trans turn
        have served' :
            serve h x pool' s' = (pool'.set x.1 (k (h.turn x.2 e s').1), (h.turn x.2 e s').2) := by
          unfold serve
          rw [turn']
        obtain ⟨answer, next⟩ := @turn_alike E S Φ _ _ h s Same O' s' alike e x.2 called same
        rw [served, served', ← answer]
        refine ih (confined_set confined turn) (fun i visible => ?_) next
        by_cases here : x.1 = i
        · subst here
          rw [List.getElem?_set_self (List.getElem?_eq_some_iff.1 turn).1,
            List.getElem?_set_self (List.getElem?_eq_some_iff.1 turn').1]
        · rw [List.getElem?_set_ne here, List.getElem?_set_ne here]
          exact shown i visible
      · have passed' : serve h x pool' s' = (pool', s') := by
          rcases serve_cases h x pool' s' with ⟨e, k, turn, -⟩ | ⟨-, passed, -⟩
          · exact absurd ((shown x.1 own).trans turn) (idle e k)
          · exact passed
        rw [passed, passed']
        exact ih confined shown same

end Hidden

end Pool

end Pinpam.Effect
