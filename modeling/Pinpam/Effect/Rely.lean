import Mathlib.Data.List.Basic
import Mathlib.Logic.Relation
import Pinpam.Effect.Pool

/-!
# Processes that rely on each other

A process is judged by what it relies on between two of its operations and by what it
guarantees of each of them; the state of the judgement is its own last step. What one
process guarantees the others may rely on, so the judgements hold together along every
interleaving of numbered processes. The states judged may carry more than the real
ones: `view` forgets it.
-/

namespace Pinpam.Effect
set_option autoImplicit false

variable {E S T α β : Type} [Interface E]

/-- Between two operations of a process the others move the state as it relies on. -/
def Amid (R : Behaviour E S) (rely : S → S → Prop) : Behaviour E (S × S) := fun e x r y =>
  rely x.2 y.1 ∧ R e y.1 r y.2

/-- What a process may do, relies on, guarantees and ends in. -/
structure Contract (E S α : Type) [Interface E] where
  acts : Behaviour E S
  rely : S → S → Prop
  guar : S → S → Prop
  ends : α → S → Prop

namespace Contract

variable (c : Contract E S α)

/-- The judgement of a program from its last step `x`. -/
def Judges (p : Prog E α) (x : S × S) : Prop :=
  p.wp (Amid c.acts c.rely) (fun x => c.guar x.1 x.2) (fun a x => ∀ s, c.rely x.2 s → c.ends a s) x

/-- The process keeps its contract from the state `s` on. -/
def Keeps (p : Prog E α) (s : S) : Prop := ∃ x, c.Judges p x ∧ c.rely x.2 s

variable {c} {p : Prog E α} {s s' : S}

theorem Keeps.ret {a : α} (keeps : c.Keeps (.ret a) s) : c.ends a s := by
  obtain ⟨x, judged, relied⟩ := keeps
  exact judged.2 s relied

/-- A step of the process itself. -/
theorem Keeps.own {e : E} {k : Answer e → Prog E α} {r : Answer e} (refl : ∀ s, c.rely s s)
    (keeps : c.Keeps (.call e k) s) (act : c.acts e s r s') : c.guar s s' ∧ c.Keeps (k r) s' := by
  obtain ⟨x, judged, relied⟩ := keeps
  have next := judged.2 r (s, s') ⟨relied, act⟩
  have guaranteed := Prog.wp_crash next
  exact ⟨guaranteed, (s, s'), next, refl s'⟩

/-- A step of another. -/
theorem Keeps.other (trans : ∀ s s' s'', c.rely s s' → c.rely s' s'' → c.rely s s'')
    (keeps : c.Keeps p s) (relied : c.rely s s') : c.Keeps p s' := by
  obtain ⟨x, judged, before⟩ := keeps
  exact ⟨x, judged, trans _ _ _ before relied⟩

end Contract

namespace Pool

/-- The runs of numbered processes, each event with the number of its process. -/
inductive Steps (R : Behaviour E S) :
    List (Prog E α) → S → List (Nat × Event E S) → List (Prog E α) → S → Prop where
  | stopped (pool : List (Prog E α)) (s : S) : Steps R pool s [] pool s
  | step {pool pool' : List (Prog E α)} {i : Nat} {e : E} {k : Answer e → Prog E α} {r : Answer e}
      {s s' s'' : S} {events : List (Nat × Event E S)} (turn : pool[i]? = some (.call e k))
      (act : R e s r s') (rest : Steps R (pool.set i (k r)) s' events pool' s'') :
      Steps R pool s ((i, ⟨s, e, r, s'⟩) :: events) pool' s''

variable {R : Behaviour E S} {pool pool' : List (Prog E α)} {s s' : S} {events : List (Nat × Event E S)}

theorem Steps.length (run : Steps R pool s events pool' s') : pool'.length = pool.length := by
  induction run with
  | stopped => rfl
  | step _ _ _ ih => rw [ih, List.length_set]

/-- Processes that have returned take no step. -/
theorem Steps.of_ret {results : List α} (run : Steps R (results.map .ret) s events pool' s') :
    pool' = results.map .ret ∧ events = [] ∧ s' = s := by
  generalize returned : results.map (Prog.ret : α → Prog E α) = pool at run
  cases run with
  | stopped => exact ⟨rfl, rfl, rfl⟩
  | step turn =>
    subst returned
    have member := List.mem_of_getElem? turn
    obtain ⟨a, -, no⟩ := List.mem_map.1 member
    cases no

/-- The run without the numbers. -/
theorem Steps.unnumbered (run : Steps R pool s events pool' s') :
    Run R pool s (events.map Prod.snd) pool' s' := by
  induction run with
  | stopped => exact .stopped _ _
  | @step pool pool' i e k r s s' s'' events turn act _ ih =>
    obtain ⟨inside, at_⟩ := List.getElem?_eq_some_iff.1 turn
    have split : pool = pool.take i ++ Prog.call e k :: pool.drop (i + 1) := by
      rw [← at_, ← List.drop_eq_getElem_cons inside, List.take_append_drop]
    rw [List.set_eq_take_append_cons_drop, if_pos inside] at ih
    rw [split]
    exact .step act ih

/-- A run under fewer behaviours. -/
theorem Steps.mono {R' : Behaviour E S} (run : Steps R pool s events pool' s')
    (imp : ∀ e s r s', R e s r s' → R' e s r s') : Steps R' pool s events pool' s' := by
  induction run with
  | stopped => exact .stopped _ _
  | step turn act _ ih => exact .step turn (imp _ _ _ _ act) ih

/-- Processes that keep their contracts keep them together: every event that may happen
is one its process accounts for, and what it guarantees the others rely on. Each event is
a step between two states on the way from the start to the end. -/
theorem Steps.keeps {view : T → S} {contract : Nat → Contract E T α} {may : Nat × Event E S → Prop}
    (refl : ∀ i x, (contract i).rely x x)
    (trans : ∀ i x y z, (contract i).rely x y → (contract i).rely y z → (contract i).rely x z)
    (moves : ∀ i e x r s', R e (view x) r s' → may (i, ⟨view x, e, r, s'⟩) → ∃ x', view x' = s' ∧
      (contract i).acts e x r x')
    (compatible : ∀ i j, i ≠ j → ∀ x y, (contract i).guar x y → (contract j).rely x y)
    (run : Steps R pool s events pool' s') (all : ∀ x ∈ events, may x) {x : T} (shown : view x = s)
    (start : ∀ i p, pool[i]? = some p → (contract i).Keeps p x) :
    ∃ x', view x' = s' ∧ (∀ i p, pool'[i]? = some p → (contract i).Keeps p x') ∧
      Relation.ReflTransGen (fun x y => ∃ i, i < pool.length ∧ (contract i).guar x y) x x' ∧
      ∀ i event, (i, event) ∈ events → ∃ y y', view y = event.before ∧ view y' = event.after ∧
      (contract i).guar y y' ∧
        Relation.ReflTransGen (fun x y => ∃ i, i < pool.length ∧ (contract i).guar x y) x y ∧
        Relation.ReflTransGen (fun x y => ∃ i, i < pool.length ∧ (contract i).guar x y) y' x' := by
  induction run generalizing x with
  | stopped => exact ⟨x, shown, start, .refl, nofun⟩
  | @step pool pool' i e k r s s' s'' events turn act rest ih =>
    subst shown
    have inside := (List.getElem?_eq_some_iff.1 turn).1
    obtain ⟨y, rfl, done⟩ := moves i e x r _ act (all _ List.mem_cons_self)
    obtain ⟨guaranteed, next⟩ := (start i _ turn).own (refl i) done
    have others : ∀ j p, (pool.set i (k r))[j]? = some p → (contract j).Keeps p y := by
      intro j p at_
      by_cases same : i = j
      · subst same
        rw [List.getElem?_set_self inside] at at_
        cases at_
        exact next
      · rw [List.getElem?_set_ne same] at at_
        exact (start j p at_).other (trans j) (compatible i j same _ _ guaranteed)
    obtain ⟨x', shown, kept, chain, each⟩ :=
      ih (fun z member => all z (List.mem_cons_of_mem _ member)) rfl others
    rw [List.length_set] at chain each
    refine ⟨x', shown, kept, .head ⟨i, inside, guaranteed⟩ chain, fun j event member => ?_⟩
    rcases List.mem_cons.1 member with same | later
    · cases same
      exact ⟨x, y, rfl, rfl, guaranteed, .refl, chain⟩
    · obtain ⟨z, z', before, after, own, left, right⟩ := each j event later
      exact ⟨z, z', before, after, own, .head ⟨i, inside, guaranteed⟩ left, right⟩

end Pool

/-! ## Judging a part of a program -/

namespace Contract

variable (c : Contract E S α)

/-- Operations that keep an assertion which the others keep too. -/
theorem wp_stable {O : E → Prop} {φ : S → Prop} {p : Prog E β} (only : p.Only O)
    (stable : ∀ s s', φ s → c.rely s s' → φ s')
    (acts : ∀ e s r s', O e → φ s → c.acts e s r s' → φ s' ∧ c.guar s s') {x : S × S}
    (guar : c.guar x.1 x.2) (start : φ x.2) :
    p.wp (Amid c.acts c.rely) (fun x => c.guar x.1 x.2) (fun _ x => φ x.2) x := by
  induction p generalizing x with
  | ret a => exact ⟨guar, start⟩
  | call e k ih =>
    refine ⟨guar, fun r y step => ?_⟩
    obtain ⟨kept, guaranteed⟩ := acts e y.1 r y.2 only.1 (stable _ _ start step.1) step.2
    exact ih r (only.2 r) guaranteed kept

/-- A program that does not see what the others move runs as it does alone: the states of
the two runs stay the same up to what is moved. -/
theorem wp_apart {h : Handler E S} {O : E → Prop} {K : S → Prop} {Same : S → S → Prop}
    {p : Prog E β} {Q : β → S → Prop} (stable : ∀ s y y', Same s y → c.rely y y' → Same s y')
    (acts : ∀ e s y r y', O e → Same s y → c.acts e y r y' → K (h e s).2 →
      (h e s).1 = r ∧ Same (h e s).2 y' ∧ c.guar y y')
    (only : p.Only O) {s : S} (alone : p.wp h.graph K Q s) {x : S × S} (guar : c.guar x.1 x.2)
    (same : Same s x.2) :
    p.wp (Amid c.acts c.rely) (fun x => c.guar x.1 x.2) (fun r x => ∃ s', Q r s' ∧ Same s' x.2) x := by
  induction p generalizing s x with
  | ret a => exact ⟨guar, s, alone.2, same⟩
  | call e k ih =>
    refine ⟨guar, fun r y step => ?_⟩
    have next := alone.2 _ _ rfl
    obtain ⟨rfl, same', guaranteed⟩ :=
      acts e s y.1 r y.2 only.1 (stable _ _ _ same step.1) step.2 (Prog.wp_crash next)
    exact ih _ (only.2 _) next guaranteed same'

/-- A program that gives its result among others that only keep an invariant. -/
theorem wpx_gives {ε γ : Type} {I : S → Prop} {G : Event E S → Prop} {y : Fallible E ε γ}
    {Φ : Except ε γ → Prop} (gives : Fallible.Gives c.acts I G y Φ)
    (keeps : ∀ s s', I s → c.rely s s' → I s')
    (guarantees : ∀ e s r s', I s → G ⟨s, e, r, s'⟩ → c.guar s s') {x : S × S}
    (guar : c.guar x.1 x.2) (start : I x.2) :
    Fallible.wpx (Amid c.acts c.rely) (fun x => c.guar x.1 x.2) y (fun r x => I x.2 ∧ Φ r) x := by
  have judged : ∀ (p : Prog E (Except ε γ)) last,
      p.wp (Shared c.acts I) (Assured I G) (fun r _ => Φ r) last →
        ∀ x : S × S, c.guar x.1 x.2 → I x.2 →
          p.wp (Amid c.acts c.rely) (fun x => c.guar x.1 x.2) (fun r x => I x.2 ∧ Φ r) x := by
    intro p
    induction p with
    | ret a => exact fun last pre x guar inv => ⟨guar, inv, pre.2⟩
    | call e k ih =>
      refine fun last pre x guar inv => ⟨guar, fun r y step => ?_⟩
      have before := keeps _ _ inv step.1
      have next := pre.2 r (some ⟨y.1, e, r, y.2⟩) ⟨y.1, y.2, before, step.2, rfl⟩
      obtain ⟨event, after⟩ := Prog.wp_crash next
      exact ih r _ next y (guarantees e _ r _ before event) after
  exact judged y.run none (gives none trivial) x guar start

/-- And then the rest. -/
theorem wpx_then {ε γ δ : Type} {I : S → Prop} {G : Event E S → Prop} {y : Fallible E ε γ}
    {f : γ → Fallible E ε δ} {Φ : Except ε γ → Prop} {Q : Except ε δ → S × S → Prop}
    (gives : Fallible.Gives c.acts I G y Φ) (keeps : ∀ s s', I s → c.rely s s' → I s')
    (guarantees : ∀ e s r s', I s → G ⟨s, e, r, s'⟩ → c.guar s s') {x : S × S}
    (guar : c.guar x.1 x.2) (start : I x.2)
    (next : ∀ a x, Φ (.ok a) → c.guar x.1 x.2 → I x.2 →
      Fallible.wpx (Amid c.acts c.rely) (fun x => c.guar x.1 x.2) (f a) Q x)
    (fails : ∀ e x, Φ (.error e) → I x.2 → Q (.error e) x) :
    Fallible.wpx (Amid c.acts c.rely) (fun x => c.guar x.1 x.2) (y >>= f) Q x := by
  refine Fallible.wpx_bind.2 (Fallible.wpx_mono (c.wpx_gives gives keeps guarantees guar start) ?_)
  rintro (e | a) x guar ⟨inv, result⟩
  · exact ⟨guar, fails e x result inv⟩
  · exact next a x result guar inv

end Contract

end Pinpam.Effect
