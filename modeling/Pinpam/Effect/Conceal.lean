import Pinpam.Effect.Schedule
import Pinpam.Effect.Sum

/-!
# What a secret gives away

Worlds that differ in a secret only, and computations on them. A computation conceals the
secret if its result is the same for every secret but a few, which the budget of the world
pays for. What conceals one operation at a time conceals whole programs and schedules of
pools of them, whatever they do.
-/

namespace Pinpam.Effect
set_option autoImplicit false

variable {E F S U W K α β γ Φ : Type} [Interface E] [Interface F]

/-- From this world the result is the same for every secret but the spent ones, and so is
what is left besides the secret. -/
def ConcealsAt (world : W → K → S) (budget : W → Nat) (f : S → β × S) (w : W) : Prop :=
  ∃ (w' : W) (b : β) (spent : List K), spent.length + budget w' ≤ budget w ∧
    ∀ k, k ∉ spent → f (world w k) = (b, world w' k)

def Conceals (world : W → K → S) (budget : W → Nat) (f : S → β × S) : Prop :=
  ∀ w, ConcealsAt world budget f w

/-- An operation and its answer, as the caller sees them. -/
def Event.call (event : Event E S) : (e : E) × Answer e := ⟨event.op, event.answer⟩

/-- The calls of a run, and its result. -/
def Prog.dialogue (h : Handler E S) (p : Prog E α) (s : S) : (List ((e : E) × Answer e) × α) × S :=
  (((p.trace h s).map Event.call, (p.run h s).1), (p.run h s).2)

/-- The calls of a schedule with the processes that made them, and what is left of the
pool. -/
def Pool.dialogue [Failing E Φ] (h : Handler E S) (schedule : List (Nat × Option Φ))
    (pool : List (Prog E α)) (s : S) :
    (List (Nat × (e : E) × Answer e) × List (Prog E α)) × S :=
  (((events h schedule pool s).map fun x => (x.1, x.2.call), (play h schedule pool s).1),
    (play h schedule pool s).2)

/-- A result that does not depend on the secret. -/
theorem ConcealsAt.same {world : W → K → S} {budget : W → Nat} {f : S → β × S} {w : W} (w' : W)
    (b : β) (paid : budget w' ≤ budget w) (answer : ∀ k, f (world w k) = (b, world w' k)) :
    ConcealsAt world budget f w :=
  ⟨w', b, [], by simpa using paid, fun k _ => answer k⟩

namespace Conceals

variable {world : W → K → S} {budget : W → Nat} {h : Handler E S}

theorem ret (b : β) : Conceals world budget fun s => (b, s) :=
  fun w => .same w b (Nat.le_refl _) fun _ => rfl

/-- What the first part spends and what the rest spends is paid for together. -/
theorem seq {f : S → β × S} {g : β → S → γ × S} (first : Conceals world budget f)
    (next : ∀ b, Conceals world budget (g b)) :
    Conceals world budget fun s => g (f s).1 (f s).2 := by
  intro w
  obtain ⟨w', b, spent, paid, same⟩ := first w
  obtain ⟨w'', c, spent', paid', same'⟩ := next b w'
  refine ⟨w'', c, spent ++ spent', ?_, fun k unspent => ?_⟩
  · rw [List.length_append]
    omega
  · rw [List.mem_append, not_or] at unspent
    simp only [same k unspent.1, same' k unspent.2]

theorem map {f : S → β × S} (φ : β → γ) (first : Conceals world budget f) :
    Conceals world budget fun s => (φ (f s).1, (f s).2) :=
  seq first fun b => ret (φ b)

/-- A program of operations that conceal the secret. -/
theorem program {O : E → Prop} (each : ∀ e, O e → Conceals world budget (h e)) {p : Prog E α}
    (only : p.Only O) : Conceals world budget (p.dialogue h) := by
  induction p with
  | ret a => exact ret ([], a)
  | call e k ih =>
    exact seq (each e only.1) fun r => map (fun x => (⟨e, r⟩ :: x.1, x.2)) (ih r (only.2 r))

theorem run {O : E → Prop} (each : ∀ e, O e → Conceals world budget (h e)) {p : Prog E α}
    (only : p.Only O) : Conceals world budget (p.run h) :=
  map Prod.snd (program each only)

theorem turn [Failing E Φ] {e : E} (fault : Option Φ) (each : Conceals world budget (h e)) :
    Conceals world budget (h.turn fault e) := by
  cases fault with
  | none => exact each
  | some f => exact ret (failAnswer f e)

/-- And any schedule of a pool of them, with any faults. -/
theorem pool [Failing E Φ] (each : ∀ e, Conceals world budget (h e))
    (schedule : List (Nat × Option Φ)) (pool : List (Prog E α)) :
    Conceals world budget (Pool.dialogue h schedule pool) := by
  induction schedule generalizing pool with
  | nil => exact ret ([], pool)
  | cons x schedule ih =>
    by_cases calls : ∃ e k, pool[x.1]? = some (.call e k)
    · obtain ⟨e, k, at_⟩ := calls
      have served : ∀ s, Pool.dialogue h (x :: schedule) pool s =
          (((x.1, ⟨e, (h.turn x.2 e s).1⟩) ::
            (Pool.dialogue h schedule (pool.set x.1 (k (h.turn x.2 e s).1))
              (h.turn x.2 e s).2).1.1,
            (Pool.dialogue h schedule (pool.set x.1 (k (h.turn x.2 e s).1))
              (h.turn x.2 e s).2).1.2),
            (Pool.dialogue h schedule (pool.set x.1 (k (h.turn x.2 e s).1))
              (h.turn x.2 e s).2).2) := by
        intro s
        simp only [Pool.dialogue, Pool.events, Pool.play, Pool.serve, Pool.event?, at_,
          Option.toList, List.singleton_append, List.map_cons]
        rfl
      rw [funext served]
      exact seq (turn x.2 (each e)) fun r =>
        map (fun y => ((x.1, ⟨e, r⟩) :: y.1, y.2)) (ih (pool.set x.1 (k r)))
    · have passed : ∀ s, Pool.dialogue h (x :: schedule) pool s =
          Pool.dialogue h schedule pool s := by
        intro s
        rcases Pool.serve_cases h x pool s with ⟨e, k, at_, -⟩ | ⟨-, same, none_⟩
        · exact absurd ⟨e, k, at_⟩ calls
        · simp only [Pool.dialogue, Pool.events, Pool.play, same, none_, Option.toList,
            List.nil_append]
      rw [funext passed]
      exact ih pool

/-! ## States besides -/

/-- A second interface does not see the secret of the first. -/
theorem sum {g : Handler F U} {O : E → Prop} (each : ∀ e, O e → Conceals world budget (h e))
    (o : E ⊕ F) (only : ∀ e, o = .inl e → O e) :
    Conceals (fun (x : W × U) k => (world x.1 k, x.2)) (fun x => budget x.1) ((h.sum g) o) := by
  rintro ⟨w, u⟩
  cases o with
  | inl e =>
    obtain ⟨w', r, spent, paid, same⟩ := each e (only e rfl) w
    refine ⟨(w', u), r, spent, paid, fun k unspent => ?_⟩
    simp only [Handler.sum, same k unspent]
  | inr f =>
    have passed : ∀ k, (h.sum g) (.inr f) (world w k, u) = ((g f u).1, world w k, (g f u).2) :=
      fun _ => rfl
    exact .same (w, (g f u).2) (g f u).1 (Nat.le_refl _) passed

/-- The second state as a part of the result. -/
theorem fst {f : S × U → β × S × U}
    (body : Conceals (fun (x : W × U) k => (world x.1 k, x.2)) (fun x => budget x.1) f) (u : U) :
    Conceals world budget fun s => (((f (s, u)).1, (f (s, u)).2.2), (f (s, u)).2.1) := by
  intro w
  obtain ⟨⟨w', u'⟩, b, spent, paid, same⟩ := body (w, u)
  refine ⟨w', (b, u'), spent, paid, fun k unspent => ?_⟩
  have here : f (world w k, u) = (b, world w' k, u') := same k unspent
  simp only [here]

/-- A part of the result as a second state. -/
theorem frame {f : U → S → (β × U) × S} (each : ∀ u, Conceals world budget (f u)) :
    Conceals (fun (x : W × U) k => (world x.1 k, x.2)) (fun x => budget x.1)
      fun s => ((f s.2 s.1).1.1, (f s.2 s.1).2, (f s.2 s.1).1.2) := by
  rintro ⟨w, u⟩
  obtain ⟨w', ⟨b, u'⟩, spent, paid, same⟩ := each u w
  refine ⟨(w', u'), b, spent, paid, fun k unspent => ?_⟩
  simp only [same k unspent]

/-- A computation whose effect is dropped, where it has none. -/
theorem still {f : S → β × S} (body : ∀ w, Conceals (fun (_ : Unit) => world w) (fun _ => 0) f) :
    Conceals world budget fun s => ((f s).1, s) := by
  intro w
  obtain ⟨_, b, spent, paid, same⟩ := body w ()
  obtain rfl : spent = [] := List.length_eq_zero_iff.1 (Nat.le_zero.1 paid)
  refine .same w b (Nat.le_refl _) fun k => ?_
  have here : f (world w k) = (b, world w k) := same k List.not_mem_nil
  simp only [here]

/-- The results for any two secrets that were not spent. -/
theorem alike {f : S → β × S} (conceals : Conceals world budget f) (w : W) :
    ∃ spent : List K, spent.length ≤ budget w ∧
      ∀ k, k ∉ spent → ∀ k', k' ∉ spent → (f (world w k)).1 = (f (world w k')).1 := by
  obtain ⟨w', b, spent, paid, same⟩ := conceals w
  refine ⟨spent, by omega, fun k unspent k' unspent' => ?_⟩
  rw [same k unspent, same k' unspent']

end Conceals

end Pinpam.Effect
