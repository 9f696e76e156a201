import Pinpam.Effect.Fallible

/-!
# Processes over one state

Programs that share a state, scheduled one operation at a time in any order; one that
is never scheduled again was killed. A process is judged alone: under `Shared` every
operation is answered from any state that satisfies the invariant, and what the
process sees is the event itself. So the weakest precondition with the crash
condition `Assured` is a rely-guarantee judgement, and `run_assured` composes it.
-/

namespace Pinpam.Effect
set_option autoImplicit false

variable {E S α : Type} [Interface E]

/-- Each operation meets a state that the other processes left, of which only the
invariant is known; the state of a judgement is the last event of its process. -/
def Shared (R : Behaviour E S) (I : S → Prop) : Behaviour E (Option (Event E S)) := fun e _ r last =>
  ∃ s s', I s ∧ R e s r s' ∧ last = some ⟨s, e, r, s'⟩

/-- The last event meets the guarantee and kept the invariant. -/
def Assured (I : S → Prop) (G : Event E S → Prop) : Option (Event E S) → Prop
  | none => True
  | some event => G event ∧ I event.after

/-- A process that keeps the invariant, each of its events meeting the guarantee. -/
def Prog.Assures (R : Behaviour E S) (I : S → Prop) (G : Event E S → Prop) (p : Prog E α) : Prop :=
  ∃ last, p.wp (Shared R I) (Assured I G) (fun _ _ => True) last

namespace Pool

/-- The runs of a pool of processes, with the events in order. -/
inductive Run (R : Behaviour E S) :
    List (Prog E α) → S → List (Event E S) → List (Prog E α) → S → Prop where
  | stopped (pool : List (Prog E α)) (s : S) : Run R pool s [] pool s
  | step {before after : List (Prog E α)} {e : E} {k : Answer e → Prog E α} {s s' s'' : S}
      {r : Answer e} {events : List (Event E S)} {pool : List (Prog E α)} (act : R e s r s')
      (rest : Run R (before ++ k r :: after) s' events pool s'') :
      Run R (before ++ .call e k :: after) s (⟨s, e, r, s'⟩ :: events) pool s''

variable {R : Behaviour E S} {I : S → Prop} {G : Event E S → Prop} {pool pool' : List (Prog E α)}
  {s s' : S} {events : List (Event E S)}

theorem assures_call {e : E} {k : Answer e → Prog E α} {r : Answer e}
    (assures : (Prog.call e k).Assures R I G) (inv : I s) (act : R e s r s') :
    G ⟨s, e, r, s'⟩ ∧ I s' ∧ (k r).Assures R I G := by
  obtain ⟨last, -, next⟩ := assures
  have rest := next r (some ⟨s, e, r, s'⟩) ⟨s, s', inv, act, rfl⟩
  obtain ⟨guaranteed, kept⟩ := Prog.wp_crash rest
  exact ⟨guaranteed, kept, _, rest⟩

/-- Processes that each keep the invariant keep it together. -/
theorem run_assured (run : Run R pool s events pool' s') (assures : ∀ p ∈ pool, p.Assures R I G)
    (inv : I s) :
    (∀ event ∈ events, G event) ∧ I s' := by
  induction run with
  | stopped => exact ⟨nofun, inv⟩
  | @step before after e k _ _ _ r _ _ act rest ih =>
    have own : Prog.call e k ∈ before ++ Prog.call e k :: after :=
      List.mem_append_right _ List.mem_cons_self
    obtain ⟨guaranteed, kept, next⟩ := assures_call (assures _ own) inv act
    have others : ∀ p ∈ before ++ k r :: after, p.Assures R I G := by
      intro p member
      rcases List.mem_append.1 member with left | right
      · exact assures p (List.mem_append_left _ left)
      · rcases List.mem_cons.1 right with rfl | right
        · exact next
        · exact assures p (List.mem_append_right _ (List.mem_cons_of_mem _ right))
    obtain ⟨all, final⟩ := ih others kept
    constructor
    · intro event member
      rcases List.mem_cons.1 member with rfl | member
      · exact guaranteed
      · exact all event member
    · exact final

/-- What every event adds to a measure, the run adds. -/
theorem run_measure (run : Run R pool s events pool' s') (measure : S → Nat) (marked : Event E S → Bool)
    (adds : ∀ event ∈ events, measure event.after = measure event.before + (marked event).toNat) :
    measure s' = measure s + events.countP marked := by
  induction run with
  | stopped => rfl
  | @step before after e k s s' s'' r events pool act rest ih =>
    have first := adds _ List.mem_cons_self
    have later := ih fun event member => adds event (List.mem_cons_of_mem _ member)
    rw [later, first, List.countP_cons]
    cases marked ⟨s, e, r, s'⟩ with
    | false => rfl
    | true =>
      show measure s + 1 + events.countP marked = measure s + (events.countP marked + 1)
      omega

end Pool

/-! ## Fallible processes -/

namespace Fallible

variable {β ε ε' : Type} {R : Behaviour E S} {I : S → Prop} {G : Event E S → Prop}

/-- Among the other processes the program keeps the invariant, meets the guarantee and
gives a result in `Φ`. -/
def Gives (R : Behaviour E S) (I : S → Prop) (G : Event E S → Prop) (x : Fallible E ε α)
    (Φ : Except ε α → Prop) : Prop :=
  ∀ last, Assured I G last → wpx (Shared R I) (Assured I G) x (fun r _ => Φ r) last

variable {x : Fallible E ε α} {f : α → Fallible E ε β} {Φ : Except ε α → Prop} {Ψ : Except ε β → Prop}

theorem Gives.assures (gives : Gives R I G x Φ) : x.run.Assures R I G :=
  ⟨none, Prog.wp_mono (gives none trivial) fun _ _ _ _ => trivial⟩

theorem Gives.mono {Φ' : Except ε α → Prop} (gives : Gives R I G x Φ) (imp : ∀ r, Φ r → Φ' r) :
    Gives R I G x Φ' :=
  fun last assured => wpx_mono (gives last assured) fun r _ _ => imp r

theorem gives_ofResult {r : Except ε α} (result : Φ r) : Gives R I G (ofResult r) Φ :=
  fun _ assured => ⟨assured, result⟩

theorem gives_pure {a : α} (result : Φ (.ok a)) : Gives R I G (pure a) Φ :=
  fun _ assured => ⟨assured, result⟩

theorem gives_throw {e : ε} (result : Φ (.error e)) : Gives R I G (throw e) Φ :=
  fun _ assured => ⟨assured, result⟩

theorem gives_op {e : E} {read : Answer e → Except ε α}
    (act : ∀ s r s', I s → R e s r s' → G ⟨s, e, r, s'⟩ ∧ I s' ∧ Φ (read r)) :
    Gives R I G (op e read) Φ := by
  intro last assured
  refine wpx_op.2 ⟨assured, ?_⟩
  rintro r _ ⟨s, s', inv, step, rfl⟩
  obtain ⟨guaranteed, kept, result⟩ := act s r s' inv step
  exact ⟨⟨guaranteed, kept⟩, result⟩

theorem gives_bind (first : Gives R I G x Φ) (next : ∀ a, Φ (.ok a) → Gives R I G (f a) Ψ)
    (fails : ∀ e, Φ (.error e) → Ψ (.error e)) : Gives R I G (x >>= f) Ψ :=
  fun last assured =>
    wpx_seq (first last assured) (fun a last assured result => next a result last assured)
    fun e _ _ result => fails e result

theorem gives_attempt {Φ : Except ε' (Except ε α) → Prop} (body : Gives R I G x fun r => Φ (.ok r)) :
    Gives R I G (attempt x) Φ :=
  fun last assured => wpx_attempt.2 (body last assured)

/-- The result of a call handed to the rest. -/
theorem gives_attempt_bind {f : Except ε α → Fallible E ε' β} {Ψ : Except ε' β → Prop}
    (body : Gives R I G x Φ) (next : ∀ r, Φ r → Gives R I G (f r) Ψ) :
    Gives R I G (attempt x >>= f) Ψ := by
  have attempted :
      Gives R I G (attempt x : Fallible E ε' (Except ε α)) fun r => ∃ r', r = .ok r' ∧ Φ r' :=
    gives_attempt (body.mono fun r result => ⟨r, rfl, result⟩)
  apply gives_bind attempted
  · rintro r ⟨_, ⟨⟩, result⟩
    exact next r result
  · rintro e ⟨_, ⟨⟩, -⟩

theorem gives_mapErr {g : ε → ε'} {Φ : Except ε' α → Prop}
    (body : Gives R I G x fun r => Φ (r.mapError g)) :
    Gives R I G (mapErr g x) Φ :=
  fun last assured => wpx_mapErr.2 (body last assured)

end Fallible

end Pinpam.Effect
