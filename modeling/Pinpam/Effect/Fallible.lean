import Pinpam.Effect.Weakest

/-!
# Fallible programs

A program that may throw is an `ExceptT` over a program: `exec` runs it, `wpx` is its
weakest precondition, and each has one rule for each way of building a program.
`attempt` hands the result of a call to the caller, `ofResult` propagates a pure one.
-/

namespace Pinpam.Effect
set_option autoImplicit false

variable {E S T α β ε ε' : Type} [Interface E]

/-- A program that throws `ε`. -/
abbrev Fallible (E : Type) [Interface E] (ε α : Type) := ExceptT ε (Prog E) α

namespace Fallible

/-- One operation, its answer read as a result. -/
def op (e : E) (read : Answer e → Except ε α) : Fallible E ε α :=
  ExceptT.mk (.call e fun r => .ret (read r))

/-- A pure result, propagated. -/
def ofResult (r : Except ε α) : Fallible E ε α := ExceptT.mk (.ret r)

/-- The result of a call, matched on rather than propagated. -/
def attempt (x : Fallible E ε α) : Fallible E ε' (Except ε α) :=
  ExceptT.mk (x.run >>= fun r => .ret (.ok r))

/-- The error of a call converted. -/
def mapErr (f : ε → ε') (x : Fallible E ε α) : Fallible E ε' α :=
  ExceptT.mk (x.run >>= fun r => .ret (r.mapError f))

@[simp] theorem ofResult_ok_bind {a : α} {f : α → Fallible E ε β} :
    (ofResult (.ok a) >>= f) = f a := rfl

@[simp] theorem ofResult_error_bind {e : ε} {f : α → Fallible E ε β} :
    ((ofResult (.error e) : Fallible E ε α) >>= f) = throw e := rfl

section Exec

variable (h : Handler E S)

/-- The result and the final state. -/
def exec (x : Fallible E ε α) (s : S) : Except ε α × S := Prog.run h x.run s

variable {h} {x : Fallible E ε α} {f : α → Fallible E ε β} {s s' : S} {a : α} {e : ε}

@[simp] theorem exec_pure : exec h (pure a : Fallible E ε α) s = (.ok a, s) := rfl

@[simp] theorem exec_throw : exec h (throw e : Fallible E ε α) s = (.error e, s) := rfl

@[simp] theorem exec_ofResult {r : Except ε α} : exec h (ofResult r) s = (r, s) := rfl

@[simp] theorem exec_op {o : E} {read : Answer o → Except ε α} :
    exec h (op o read) s = (read (h o s).1, (h o s).2) := rfl

theorem run_bind_cases (x : Fallible E ε α) (f : α → Fallible E ε β) :
    (x >>= f).run = x.run >>= fun r =>
      match r with
      | .ok a => (f a).run
      | .error e => .ret (.error e) := by
  show x.run >>= _ = x.run >>= _
  congr 1
  funext r
  cases r <;> rfl

@[simp] theorem exec_bind : exec h (x >>= f) s =
    match exec h x s with
    | (.ok a, s') => exec h (f a) s'
    | (.error e, s') => (.error e, s') := by
  rw [exec, run_bind_cases, Prog.run_bind, exec]
  cases h : Prog.run h x.run s with
  | mk r s' => cases r <;> rfl

@[simp] theorem exec_attempt :
    exec h (attempt x : Fallible E ε' (Except ε α)) s = (.ok (exec h x s).1, (exec h x s).2) := by
  show Prog.run h (x.run >>= _) s = _
  rw [Prog.run_bind]
  rfl

@[simp] theorem exec_mapErr {g : ε → ε'} :
    exec h (mapErr g x) s = ((exec h x s).1.mapError g, (exec h x s).2) := by
  show Prog.run h (x.run >>= _) s = _
  rw [Prog.run_bind]
  rfl

@[simp] theorem exec_map {g : α → β} : exec h (g <$> x) s = ((exec h x s).1.map g, (exec h x s).2) := by
  rw [← bind_pure_comp, exec_bind]
  cases exec h x s with
  | mk r s' => cases r <;> rfl

theorem exec_bind_ok (first : exec h x s = (.ok a, s')) : exec h (x >>= f) s = exec h (f a) s' := by
  rw [exec_bind, first]

theorem exec_bind_error (first : exec h x s = (.error e, s')) :
    exec h (x >>= f) s = (.error e, s') := by
  rw [exec_bind, first]

end Exec

section Wp

variable {R : Behaviour E S} {C : S → Prop}

/-- The weakest precondition of `Q`, on results. -/
def wpx (R : Behaviour E S) (C : S → Prop) (x : Fallible E ε α) (Q : Except ε α → S → Prop) (s : S) :
    Prop :=
  Prog.wp R C x.run Q s

variable {x : Fallible E ε α} {f : α → Fallible E ε β} {s : S} {a : α} {e : ε}
  {Q Q' : Except ε α → S → Prop}

@[simp] theorem wpx_pure : wpx R C (pure a : Fallible E ε α) Q s ↔ C s ∧ Q (.ok a) s := Iff.rfl

@[simp] theorem wpx_throw : wpx R C (throw e : Fallible E ε α) Q s ↔ C s ∧ Q (.error e) s := Iff.rfl

@[simp] theorem wpx_ofResult {r : Except ε α} : wpx R C (ofResult r) Q s ↔ C s ∧ Q r s := Iff.rfl

@[simp] theorem wpx_op {o : E} {read : Answer o → Except ε α} :
    wpx R C (op o read) Q s ↔ C s ∧ ∀ r s', R o s r s' → C s' ∧ Q (read r) s' := Iff.rfl

/-- Nothing asked, nothing to show. -/
theorem wpx_any : wpx R (fun _ => True) x (fun _ _ => True) s :=
  Prog.wp_invariant (fun _ _ _ _ _ _ => trivial) _ trivial

theorem wpx_mono (h : wpx R C x Q s) (imp : ∀ r s', C s' → Q r s' → Q' r s') : wpx R C x Q' s :=
  Prog.wp_mono h imp

theorem wpx_bind {Q : Except ε β → S → Prop} : wpx R C (x >>= f) Q s ↔
    wpx R C x (fun r s' =>
      match r with
      | .ok a => wpx R C (f a) Q s'
      | .error e => C s' ∧ Q (.error e) s') s := by
  rw [wpx, run_bind_cases, Prog.wp_bind]
  refine ⟨fun h => Prog.wp_mono h fun r s' _ post => ?_, fun h => Prog.wp_mono h fun r s' _ post => ?_⟩
  all_goals cases r <;> exact post

/-- Sequencing by the specification of the first part. -/
theorem wpx_seq {P : Except ε α → S → Prop} {Q : Except ε β → S → Prop} (first : wpx R C x P s)
    (next : ∀ a s', C s' → P (.ok a) s' → wpx R C (f a) Q s')
    (fails : ∀ e s', C s' → P (.error e) s' → Q (.error e) s') : wpx R C (x >>= f) Q s :=
  wpx_bind.2 (wpx_mono first fun r s' crash post =>
    match r with
    | .ok a => next a s' crash post
    | .error e => ⟨crash, fails e s' crash post⟩)

theorem wpx_attempt {Q : Except ε' (Except ε α) → S → Prop} :
    wpx R C (attempt x) Q s ↔ wpx R C x (fun r s' => Q (.ok r) s') s := by
  show Prog.wp R C (x.run >>= _) Q s ↔ _
  rw [Prog.wp_bind]
  exact ⟨fun h =>
    Prog.wp_mono h fun r s' _ post => post.2, fun h => Prog.wp_mono h fun r s' c post => ⟨c, post⟩⟩

/-- A sequence, where no crash is looked at. -/
theorem wpx_next {Q : Except ε β → S → Prop}
    (first : wpx R (fun _ => True) x (fun r s => match r with
      | .ok a => wpx R (fun _ => True) (f a) Q s
      | .error e => Q (.error e) s) s) :
    wpx R (fun _ => True) (x >>= f) Q s := by
  refine wpx_bind.2 (wpx_mono first fun r s _ post => ?_)
  cases r with
  | ok a => exact post
  | error e => exact ⟨trivial, post⟩

theorem wpx_next_attempt {f : Except ε α → Fallible E ε' β} {Q : Except ε' β → S → Prop}
    (first : wpx R (fun _ => True) x (fun r s => wpx R (fun _ => True) (f r) Q s) s) :
    wpx R (fun _ => True) ((attempt x : Fallible E ε' (Except ε α)) >>= f) Q s :=
  wpx_next (wpx_attempt.2 first)

theorem wpx_mapErr {g : ε → ε'} {Q : Except ε' α → S → Prop} :
    wpx R C (mapErr g x) Q s ↔ wpx R C x (fun r s' => Q (r.mapError g) s') s := by
  show Prog.wp R C (x.run >>= _) Q s ↔ _
  rw [Prog.wp_bind]
  exact ⟨fun h =>
    Prog.wp_mono h fun r s' _ post => post.2, fun h => Prog.wp_mono h fun r s' c post => ⟨c, post⟩⟩

theorem wpx_exec {h : Handler E T} {view : T → S} {s : T} (within : Within h view R)
    (pre : wpx R C x Q (view s)) : Q (exec h x s).1 (view (exec h x s).2) :=
  Prog.wp_run within pre

theorem wpx_after {h : Handler E T} {view : T → S} {s : T} (within : Within h view R) (n : Nat)
    (pre : wpx R C x Q (view s)) : C (view (Prog.after h n x.run s)) :=
  Prog.wp_after within n pre

end Wp

section Only

variable {O : E → Prop} {x : Fallible E ε α} {f : α → Fallible E ε β}

/-- The program only calls operations of `O`. -/
def OnlyX (O : E → Prop) (x : Fallible E ε α) : Prop := Prog.Only O x.run

theorem onlyX_pure {a : α} : OnlyX O (pure a : Fallible E ε α) := trivial

theorem onlyX_throw {e : ε} : OnlyX O (throw e : Fallible E ε α) := trivial

theorem onlyX_ofResult {r : Except ε α} : OnlyX O (ofResult r : Fallible E ε α) := trivial

theorem onlyX_op {e : E} {read : Answer e → Except ε α} (called : O e) : OnlyX O (op e read) :=
  ⟨called, fun _ => trivial⟩

theorem onlyX_bind (first : OnlyX O x) (next : ∀ a, OnlyX O (f a)) : OnlyX O (x >>= f) := by
  rw [OnlyX, run_bind_cases]
  refine Prog.only_bind first fun r => ?_
  cases r with
  | ok a => exact next a
  | error e => exact trivial

theorem onlyX_attempt (body : OnlyX O x) : OnlyX O (attempt x : Fallible E ε' (Except ε α)) :=
  Prog.only_bind body fun _ => trivial

theorem onlyX_mapErr {g : ε → ε'} (body : OnlyX O x) : OnlyX O (mapErr g x) :=
  Prog.only_bind body fun _ => trivial

theorem wpx_only {R : Behaviour E S} {I : S → Prop} (keeps : ∀ e s r s', O e → I s → R e s r s' → I s')
    (only : OnlyX O x) {s : S} (start : I s) : wpx R I x (fun _ => I) s :=
  Prog.wp_only keeps only start

end Only

section Throws

variable {Φ : ε → Prop} {Ψ : ε' → Prop} {x : Fallible E ε α} {f : α → Fallible E ε β}

/-- Whatever the answers, what is thrown satisfies `Φ`. -/
def ThrowsX (Φ : ε → Prop) (x : Fallible E ε α) : Prop := x.run.Returns fun r => ∀ e, r = .error e → Φ e

theorem throwsX_pure {a : α} : ThrowsX Φ (pure a : Fallible E ε α) := nofun

theorem throwsX_throw {e : ε} (thrown : Φ e) : ThrowsX Φ (throw e : Fallible E ε α) := by
  rintro _ ⟨⟩
  exact thrown

theorem throwsX_ofResult {r : Except ε α} (thrown : ∀ e, r = .error e → Φ e) :
    ThrowsX Φ (ofResult r : Fallible E ε α) := thrown

theorem throwsX_op {e : E} {read : Answer e → Except ε α} (thrown : ∀ r e, read r = .error e → Φ e) :
    ThrowsX Φ (op e read) :=
  thrown

theorem throwsX_bind (first : ThrowsX Φ x) (next : ∀ a, ThrowsX Φ (f a)) : ThrowsX Φ (x >>= f) := by
  rw [ThrowsX, run_bind_cases]
  refine Prog.returns_bind first fun r thrown => ?_
  cases r with
  | ok a => exact next a
  | error e =>
    rintro _ ⟨⟩
    exact thrown e rfl

theorem throwsX_attempt : ThrowsX Ψ (attempt x : Fallible E ε' (Except ε α)) :=
  Prog.returns_bind (Prog.returns_any (fun _ => trivial) _) fun _ _ => nofun

theorem throwsX_mapErr {g : ε → ε'} (thrown : ∀ e, Ψ (g e)) : ThrowsX Ψ (mapErr g x) := by
  refine Prog.returns_bind (Prog.returns_any (fun _ => trivial) _) fun r _ => ?_
  cases r with
  | ok a => exact nofun
  | error e =>
    rintro _ ⟨⟩
    exact thrown e

theorem wpx_throws {R : Behaviour E S} {C : S → Prop} {Q : Except ε α → S → Prop} {s : S}
    (throws : ThrowsX Φ x) (pre : wpx R C x Q s) :
    wpx R C x (fun r s => Q r s ∧ ∀ e, r = .error e → Φ e) s :=
  Prog.wp_returns throws pre

end Throws

end Fallible

end Pinpam.Effect
