import Pinpam.Effect.Rely
import Pinpam.Effect.Runs

/-!
# A resource with a holder

Processes compete for a part of the state: the one whose operation makes the part taken
holds it until its own operation frees it. Whoever does not hold the part leaves it alone
or takes it, so the holder finds it as it left it. Who holds the part is a ghost of the
run; a part that was taken from the start has no holder.
-/

namespace Pinpam.Effect
set_option autoImplicit false
open Fallible

variable {E S H α β ε ε' : Type} [Interface E]

/-- The part of the state that is competed for, and whether it is taken. -/
structure Resource (S H : Type) where
  part : S → H
  taken : H → Bool

/-- The holder after an operation of process `i`. -/
def heir (i : Nat) (holder : Option Nat) (before after : Bool) : Option Nat :=
  if after = before then holder else if after then some i else none

/-- A state with the process that holds the resource. -/
@[ext] structure Held (res : Resource S H) where
  state : S
  holder : Option Nat
  fair : holder ≠ none → res.taken (res.part state) = true

namespace Held

variable {res : Resource S H} {x y : Held res} {i j : Nat} {s : S}

/-- The state that process `i` moves to. -/
def next (x : Held res) (i : Nat) (s : S) : Held res where
  state := s
  holder := heir i x.holder (res.taken (res.part x.state)) (res.taken (res.part s))
  fair := by
    intro some_
    unfold heir at some_
    split at some_
    next same => exact same.trans (x.fair some_)
    next =>
      split at some_
      next taken => exact taken
      next => exact absurd rfl some_

theorem next_kept (kept : res.part s = res.part x.state) : (x.next i s).holder = x.holder := by
  show heir i x.holder _ _ = _
  rw [kept]
  exact if_pos rfl

theorem next_taken (free : res.taken (res.part x.state) = false)
    (taken : res.taken (res.part s) = true) : (x.next i s).holder = some i := by
  show heir i x.holder _ _ = _
  rw [free, taken]
  rfl

/-- The holder holds on, unless it frees the resource. -/
theorem next_holder (holds : x.holder = some i) :
    (x.next i s).holder = if res.taken (res.part s) then some i else none := by
  have taken := x.fair (by rw [holds]; exact nofun)
  show heir i x.holder _ _ = _
  rw [taken]
  cases after : res.taken (res.part s) with
  | true => exact holds
  | false => rfl

/-- What process `i` may rely on: what it holds stays, and nobody makes it the holder. -/
structure Kept (i : Nat) (x y : Held res) : Prop where
  stays : x.holder = some i → y.holder = some i ∧ res.part y.state = res.part x.state
  given : y.holder = some i → x.holder = some i

theorem Kept.refl : Kept i x x := ⟨fun holds => ⟨holds, rfl⟩, id⟩

theorem Kept.trans {z : Held res} (first : Kept i x y) (second : Kept i y z) : Kept i x z where
  stays holds := by
    obtain ⟨holds', same⟩ := first.stays holds
    obtain ⟨holds'', same'⟩ := second.stays holds'
    exact ⟨holds'', same'.trans same⟩
  given holds := first.given (second.given holds)

/-- The holder may do what it likes. -/
theorem kept_holder (holds : x.holder = some i) (ne : j ≠ i) : Kept j x (x.next i s) where
  stays other := absurd (Option.some.inj (other.symm.trans holds)) ne
  given other := by
    rw [next_holder holds] at other
    split at other
    · exact absurd (Option.some.inj other).symm ne
    · cases other

theorem kept_mild (kept : res.part s = res.part x.state) : Kept j x (x.next i s) where
  stays holds := ⟨(next_kept kept).trans holds, kept⟩
  given holds := (next_kept kept).symm.trans holds

/-- The resource is only taken if nobody holds it. -/
theorem kept_taken (free : res.taken (res.part x.state) = false)
    (taken : res.taken (res.part s) = true) (ne : j ≠ i) : Kept j x (x.next i s) where
  stays holds := by
    have held := x.fair (by rw [holds]; exact nofun)
    cases free.symm.trans held
  given holds := by
    rw [next_taken free taken] at holds
    exact absurd (Option.some.inj holds).symm ne

end Held

/-- Process `i` in the competition, which ends as `ends` says. -/
def rival (R : Behaviour E S) (res : Resource S H) (i : Nat) (ends : α → Held res → Prop) :
    Contract E (Held res) α where
  acts e x r y := R e x.state r y.state ∧ y = x.next i y.state
  rely := Held.Kept i
  guar x y := ∀ j, j ≠ i → Held.Kept j x y
  ends := ends

section Rival

variable {R : Behaviour E S} {res : Resource S H} {i : Nat} {x y : Held res}
  {z : Held res × Held res}

/-- The last step left what the others hold. -/
def Guards (i : Nat) (z : Held res × Held res) : Prop := ∀ j, j ≠ i → Held.Kept j z.1 z.2

/-- The judgement of a part of a rival's program. -/
abbrev Rival (R : Behaviour E S) (res : Resource S H) (i : Nat) (x : Fallible E ε α)
    (Q : Except ε α → Held res × Held res → Prop) (z : Held res × Held res) : Prop :=
  wpx (Amid (fun e x r y => R e x.state r y.state ∧ y = x.next i y.state) (Held.Kept i))
    (Guards i) x Q z

theorem guards_self : Guards i (x, x) := fun _ _ => .refl

/-- The process does not hold the resource. -/
def Without (i : Nat) (x : Held res) : Prop := x.holder ≠ some i

/-- The process holds the resource, and its part is `h`. -/
def Owns (i : Nat) (h : H) (x : Held res) : Prop := x.holder = some i ∧ res.part x.state = h

/-- What is known of the state and outlasts the others' operations and those that leave the
resource alone. -/
structure Settled (i : Nat) (φ : Held res → Prop) : Prop where
  relied : ∀ x y, φ x → Held.Kept i x y → φ y
  mild : ∀ (x : Held res) s, φ x → res.part s = res.part x.state → φ (x.next i s)

theorem without_settled : Settled i (Without i : Held res → Prop) where
  relied _ _ free kept holds := free (kept.given holds)
  mild _ _ free same holds := free ((Held.next_kept same).symm.trans holds)

theorem owns_settled {h : H} : Settled i (Owns i h : Held res → Prop) where
  relied _ _ holds kept := by
    obtain ⟨holds', same⟩ := kept.stays holds.1
    exact ⟨holds', same.trans holds.2⟩
  mild _ _ holds same := ⟨(Held.next_kept same).trans holds.1, same.trans holds.2⟩

theorem any_settled : Settled i fun _ : Held res => True :=
  ⟨fun _ _ _ _ => trivial, fun _ _ _ _ => trivial⟩

/-- An operation that never touches the resource. -/
def Mild (R : Behaviour E S) (res : Resource S H) (e : E) : Prop :=
  ∀ s r s', R e s r s' → res.part s' = res.part s

variable {φ : Held res → Prop} {p : Fallible E ε α} {f : α → Fallible E ε β}

theorem rival_mild (only : OnlyX (Mild R res) p) (settled : Settled i φ)
    (guards : Guards i z) (known : φ z.2) :
    Rival R res i p (fun _ z => φ z.2) z := by
  refine (rival R res i fun (_ : Unit) _ => True).wp_stable only settled.relied ?_ guards known
  rintro e x r y mild known ⟨act, moved⟩
  have same := mild _ _ _ act
  rw [moved]
  exact ⟨settled.mild x _ known same, fun j _ => Held.kept_mild same⟩

/-- A part that leaves the resource alone, and then the rest. -/
theorem rival_mild_bind {Q : Except ε β → Held res × Held res → Prop}
    (only : OnlyX (Mild R res) p) (settled : Settled i φ)
    (guards : Guards i z) (known : φ z.2)
    (next : ∀ a z, Guards i z → φ z.2 → Rival R res i (f a) Q z)
    (fails : ∀ e z, φ z.2 → Q (.error e) z) : Rival R res i (p >>= f) Q z :=
  wpx_seq (rival_mild only settled guards known) (fun a z guards known => next a z guards known)
    fun e z _ known => fails e z known

/-- And whatever it gives. -/
theorem rival_mild_attempt {f : Except ε α → Fallible E ε' β}
    {Q : Except ε' β → Held res × Held res → Prop} (only : OnlyX (Mild R res) p)
    (settled : Settled i φ) (guards : Guards i z) (known : φ z.2)
    (next : ∀ r z, Guards i z → φ z.2 → Rival R res i (f r) Q z) :
    Rival R res i ((attempt p : Fallible E ε' (Except ε α)) >>= f) Q z := by
  refine wpx_bind.2 (wpx_attempt.2 (wpx_mono (rival_mild only settled guards known) ?_))
  exact fun r z guards known => next r z guards known

/-- An operation that leaves it alone, with its answer. -/
theorem rival_answer {e : E} {read : Answer e → Except ε α}
    {Q : Except ε α → Held res × Held res → Prop} (mild : Mild R res e) (settled : Settled i φ)
    (guards : Guards i z) (known : φ z.2)
    (done : ∀ s r s' z, R e s r s' → Guards i z → φ z.2 → Q (read r) z) :
    Rival R res i (op e read) Q z := by
  refine ⟨guards, ?_⟩
  rintro r ⟨x, y⟩ ⟨relied, act, moved⟩
  have still := settled.relied _ _ known relied
  dsimp only at still act moved
  have same := mild _ _ _ act
  have guards' : Guards i (x, y) := by
    intro j _
    dsimp only
    rw [moved]
    exact Held.kept_mild same
  refine ⟨guards', done _ _ _ _ act guards' ?_⟩
  dsimp only
  rw [moved]
  exact settled.mild x _ still same

/-- An operation of the holder. -/
theorem rival_holder {h : H} {e : E} {read : Answer e → Except ε α}
    {Q : Except ε α → Held res × Held res → Prop}
    (guards : Guards i z) (holds : Owns i h z.2)
    (done : ∀ s r s' z, res.part s = h → R e s r s' → Guards i z → z.2.state = s' →
      z.2.holder = (if res.taken (res.part s') then some i else none) → Q (read r) z) :
    Rival R res i (op e read) Q z := by
  refine ⟨guards, ?_⟩
  rintro r ⟨x, y⟩ ⟨relied, act, moved⟩
  obtain ⟨holder, same⟩ := owns_settled.relied _ _ holds relied
  dsimp only at holder same act moved
  have guards' : Guards i (x, y) := by
    intro j ne
    dsimp only
    rw [moved]
    exact Held.kept_holder holder ne
  refine ⟨guards', done x.state r y.state _ same act guards' rfl ?_⟩
  rw [moved]
  exact Held.next_holder holder

/-- An operation that leaves the resource alone, or takes it. -/
theorem rival_take {e : E} {read : Answer e → Except ε α}
    {Q : Except ε α → Held res × Held res → Prop} (guards : Guards i z) (without : Without i z.2)
    (done : ∀ s r s', R e s r s' →
      (res.part s' = res.part s ∧ ∀ z, Guards i z → Without i z.2 → Q (read r) z) ∨
      (res.taken (res.part s) = false ∧ res.taken (res.part s') = true ∧
        ∀ z, Guards i z → Owns i (res.part s') z.2 → Q (read r) z)) :
    Rival R res i (op e read) Q z := by
  refine ⟨guards, ?_⟩
  rintro r ⟨x, y⟩ ⟨relied, act, moved⟩
  have still := without_settled.relied _ _ without relied
  dsimp only at still act moved
  rcases done _ _ _ act with ⟨same, left⟩ | ⟨open_, shut, taken⟩
  · have guards' : Guards i (x, y) := by
      intro j _
      dsimp only
      rw [moved]
      exact Held.kept_mild same
    refine ⟨guards', left _ guards' ?_⟩
    dsimp only
    rw [moved]
    exact without_settled.mild x _ still same
  · have guards' : Guards i (x, y) := by
      intro j ne
      dsimp only
      rw [moved]
      exact Held.kept_taken open_ shut ne
    refine ⟨guards', taken _ guards' ⟨?_, rfl⟩⟩
    dsimp only
    rw [moved]
    exact Held.next_taken open_ shut

/-- A part of a program, and then the rest. -/
theorem rival_label {L : Type} {l : L} {P : Except ε α → Held res × Held res → Prop}
    {f : α → Fallible (Labelled L E) ε β} {Q : Except ε β → Held res × Held res → Prop}
    (part : Rival R res i p P z)
    (next : ∀ a z, Guards i z → P (.ok a) z → Rival R.labelled res i (f a) Q z)
    (fails : ∀ e z, P (.error e) z → Q (.error e) z) :
    Rival R.labelled res i (p.label l >>= f) Q z :=
  wpx_seq (wpx_label.2 part) (fun a z guards post => next a z guards post) fun e z _ post =>
    fails e z post

theorem rival_label_attempt {L : Type} {l : L} {P : Except ε α → Held res × Held res → Prop}
    {f : Except ε α → Fallible (Labelled L E) ε' β} {Q : Except ε' β → Held res × Held res → Prop}
    (part : Rival R res i p P z)
    (next : ∀ r z, Guards i z → P r z → Rival R.labelled res i (f r) Q z) :
    Rival R.labelled res i
      ((attempt (p.label l) : Fallible (Labelled L E) ε' (Except ε α)) >>= f) Q z :=
  wpx_bind.2 (wpx_attempt.2 (wpx_mono (wpx_label.2 part) fun r z guards post =>
    next r z guards post))

end Rival

/-- Rivals hold their contracts together, along every interleaving. -/
theorem Pool.Steps.rivals {R : Behaviour E S} {res : Resource S H}
    {ends : Nat → α → Held res → Prop}
    {pool pool' : List (Prog E α)} {x : Held res} {s' : S} {events : List (Nat × Event E S)}
    (run : Pool.Steps R pool x.state events pool' s')
    (start : ∀ i p, pool[i]? = some p → (rival R res i (ends i)).Keeps p x) :
    ∃ x' : Held res, x'.state = s' ∧
      ∀ i p, pool'[i]? = some p → (rival R res i (ends i)).Keeps p x' := by
  obtain ⟨x', shown, kept, -⟩ :=
    @Pool.Steps.keeps E S (Held res) α _ R pool pool' _ s' events Held.state
      (fun i => rival R res i (ends i)) (fun _ => True) (fun _ _ => .refl)
      (fun _ _ _ _ => Held.Kept.trans)
      (fun i e x r s' act _ => ⟨x.next i s', rfl, act, rfl⟩)
      (fun i j ne x y guar => guar j (Ne.symm ne)) run (fun _ _ => trivial) x rfl start
  exact ⟨x', shown, kept⟩

end Pinpam.Effect
