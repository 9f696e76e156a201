import Pinpam.Core.Operations

/-!
# Calls of the manager

The four operations that change an account as one type, with the accounts each call
passes through. A step of the system is a call that returned or one whose process was
killed after some of its commands.
-/

namespace Pinpam
set_option autoImplicit false
open Pinpam.Effect Pinpam.Effect.Fallible

inductive ManagerCall where
  | setupPin (pin : Pin)
  | verifyPin (pin : Pin)
  | deletePinWithAuth (pin : Pin)
  | deletePinAdmin

/-- The PIN the caller gives. -/
def ManagerCall.pin : ManagerCall → Option Pin
  | .setupPin pin | .verifyPin pin | .deletePinWithAuth pin => some pin
  | .deletePinAdmin => none

def ManagerCall.program (m : PinManager) (uid : UInt32) : ManagerCall → PinM Unit
  | .setupPin pin => m.setupPin uid pin
  | .verifyPin pin => do
    let _ ← m.verifyPin uid pin
    pure ()
  | .deletePinWithAuth pin => do
    let _ ← m.deletePinWithAuth uid pin
    pure ()
  | .deletePinAdmin => Pinpam.deletePinAdmin uid

/-- The accounts a call passes through. -/
inductive ManagerCall.Visits (uid limit : UInt32) (acc : Account) : ManagerCall → Account → Prop where
  | setsUp {pin : Pin} {a : Account} (sets : acc.SetsUp pin limit a) :
      Visits uid limit acc (.setupPin pin) a
  | verifies {pin : Pin} {a : Account} (verifies : acc.Verifies uid pin limit a) :
      Visits uid limit acc (.verifyPin pin) a
  | deletes {pin : Pin} {a : Account} (deletes : acc.Deletes uid pin limit a) :
      Visits uid limit acc (.deletePinWithAuth pin) a
  | kept : Visits uid limit acc .deletePinAdmin acc
  | removed {tag : TagState} (was : tag = acc.tag ∨ tag = .absent) :
      Visits uid limit acc .deletePinAdmin ⟨.absent, tag⟩

section Calls

variable {uid : UInt32} {serves : Serves uid} {P C : Tpm → Prop} {t : Tpm} {acc : Account}
  {m : PinManager} {pin : Pin} {call : ManagerCall}

theorem deletes_result :
    acc.Deletes uid pin m.policy.maxAttempts
      (acc.deletePinWithAuth uid pin m.policy.maxAttempts).2 := by
  have verifies := @verifies_result uid acc m pin
  unfold Account.deletePinWithAuth
  cases eq : acc.verifyPin uid pin m.policy.maxAttempts with
  | mk r a =>
    rw [eq] at verifies
    match r with
    | .error err => exact .verifies verifies
    | .ok (.invalid locked) => exact .verifies verifies
    | .ok .lockedOut => exact .verifies verifies
    | .ok (.success slot) =>
      show acc.Deletes uid pin m.policy.maxAttempts (a.deletePinAdmin uid).2
      unfold Account.deletePinAdmin
      by_cases absent : a.slot = .absent
      · rw [if_pos absent]
        exact .verifies verifies
      · rw [if_neg absent]
        exact .deleted verifies (.inr rfl)

theorem verifyPin_visits
    (crash : ∀ a, acc.Verifies uid pin m.policy.maxAttempts a → C (t.put serves a)) :
    wpx (Faulty Tpm.exec P) C (m.verifyPin uid pin)
      (fun _ t' => ∃ a, acc.Verifies uid pin m.policy.maxAttempts a ∧ t' = t.put serves a)
      (t.put serves acc) := by
  apply wpx_verifyPin crash
  · exact ⟨_, verifies_result, rfl⟩
  · exact fun a _ v _ _ _ _ => ⟨a, v, rfl⟩
  · exact fun _ a _ legacy hit v _ _ _ => ⟨a, .migrates legacy hit v, rfl⟩
  · exact fun _ _ => ⟨_, verifies_result, rfl⟩

theorem deletePinWithAuth_visits
    (crash : ∀ a, acc.Deletes uid pin m.policy.maxAttempts a → C (t.put serves a)) :
    wpx (Faulty Tpm.exec P) C (m.deletePinWithAuth uid pin)
      (fun _ t' => ∃ a, acc.Deletes uid pin m.policy.maxAttempts a ∧ t' = t.put serves a)
      (t.put serves acc) := by
  apply wpx_deletePinWithAuth crash
  · exact ⟨_, deletes_result, rfl⟩
  · exact fun a _ d _ _ _ _ => ⟨a, d, rfl⟩
  · exact fun a _ d _ _ _ => ⟨a, d, rfl⟩
  · exact fun _ _ => ⟨_, deletes_result, rfl⟩

/-- Whatever fails, a call ends in an account it passes through, and is only killed in
one. -/
theorem wpx_call (crash : ∀ a, call.Visits uid m.policy.maxAttempts acc a → C (t.put serves a)) :
    wpx (Faulty Tpm.exec P) C (call.program m uid)
      (fun _ t' => ∃ a, call.Visits uid m.policy.maxAttempts acc a ∧ t' = t.put serves a)
      (t.put serves acc) := by
  cases call with
  | setupPin pin =>
    apply wpx_setupPin
    · exact fun a sets => crash a (.setsUp sets)
    · exact ⟨_, .setsUp setsUp_result, rfl⟩
    · exact fun a _ sets _ _ _ _ => ⟨a, .setsUp sets, rfl⟩
  | verifyPin pin =>
    apply wpx_seq (verifyPin_visits fun a v => crash a (.verifies v))
    · rintro _ _ _ ⟨a, v, rfl⟩
      exact ⟨crash a (.verifies v), a, .verifies v, rfl⟩
    · rintro _ _ _ ⟨a, v, rfl⟩
      exact ⟨a, .verifies v, rfl⟩
  | deletePinWithAuth pin =>
    apply wpx_seq (deletePinWithAuth_visits fun a d => crash a (.deletes d))
    · rintro _ _ _ ⟨a, d, rfl⟩
      exact ⟨crash a (.deletes d), a, .deletes d, rfl⟩
    · rintro _ _ _ ⟨a, d, rfl⟩
      exact ⟨a, .deletes d, rfl⟩
  | deletePinAdmin =>
    have kept : ∃ a, ManagerCall.deletePinAdmin.Visits uid m.policy.maxAttempts acc a ∧
        t.put serves acc = t.put serves a :=
      ⟨acc, .kept, rfl⟩
    apply wpx_deletePinAdmin (crash _ .kept)
    · exact fun _ _ was => crash _ (.removed was)
    · exact fun _ => kept
    · exact fun _ => ⟨_, .removed (.inr rfl), rfl⟩
    · exact fun _ _ => ⟨_, .removed (.inl rfl), rfl⟩
    · exact fun _ _ => kept
    · exact fun _ _ _ => ⟨_, .removed (.inl rfl), rfl⟩

/-- What a call that fails no command makes of an account. -/
def ManagerCall.result (uid limit : UInt32) : ManagerCall → Account → Account
  | .setupPin pin, acc => (acc.setupPin uid pin limit).2
  | .verifyPin pin, acc => (acc.verifyPin uid pin limit).2
  | .deletePinWithAuth pin, acc => (acc.deletePinWithAuth uid pin limit).2
  | .deletePinAdmin, acc => (acc.deletePinAdmin uid).2

theorem exec_call : (exec Tpm.exec (call.program m uid) (t.put serves acc)).2 =
    t.put serves (call.result uid m.policy.maxAttempts acc) := by
  cases call with
  | setupPin pin => exact congrArg Prod.snd exec_setupPin
  | verifyPin pin =>
    unfold ManagerCall.program
    dsimp only
    rw [exec_bind, exec_verifyPin]
    cases (acc.verifyPin uid pin m.policy.maxAttempts).1 <;> rfl
  | deletePinWithAuth pin =>
    unfold ManagerCall.program
    dsimp only
    rw [exec_bind, exec_deletePinWithAuth]
    cases (acc.deletePinWithAuth uid pin m.policy.maxAttempts).1 <;> rfl
  | deletePinAdmin => exact congrArg Prod.snd exec_deletePinAdmin

theorem visits_result :
    call.Visits uid m.policy.maxAttempts acc (call.result uid m.policy.maxAttempts acc) := by
  cases call with
  | setupPin pin => exact .setsUp setsUp_result
  | verifyPin pin => exact .verifies verifies_result
  | deletePinWithAuth pin => exact .deletes deletes_result
  | deletePinAdmin =>
    unfold ManagerCall.result Account.deletePinAdmin
    dsimp only
    split
    · exact .kept
    · exact .removed (.inr rfl)

/-- A uid without an index: the call sends nothing. -/
theorem call_overflow (past : ¬ Serves uid) : call.program m uid = throw (.uidOverflow uid) := by
  cases call with
  | setupPin pin => exact setupPin_overflow past
  | verifyPin pin =>
    unfold ManagerCall.program
    dsimp only
    rw [verifyPin_overflow past]
    rfl
  | deletePinWithAuth pin =>
    unfold ManagerCall.program
    dsimp only
    rw [deletePinWithAuth_overflow past]
    rfl
  | deletePinAdmin => exact deletePinAdmin_overflow past

end Calls

/-! ## Other users -/

section Frame

variable {uid uid' : UInt32} {serves : Serves uid} {serves' : Serves uid'} {t : Tpm}
  {acc acc' : Account}

/-- A user's indices say nothing about those of another. -/
theorem put_shows_other (other : uid' ≠ uid) :
    (t.put serves acc).Shows serves' acc' ↔ t.Shows serves' acc' := by
  unfold Tpm.Shows
  rw [put_of_ne (fun same => other (slotHandle_inj.1 same)) slotHandle_ne_tagHandle,
    put_of_ne (fun same => slotHandle_ne_tagHandle same.symm)
      (fun same => other (tagHandle_inj.1 same))]

end Frame

/-- The indices of every user are in account form. -/
def Tpm.Accounts (t : Tpm) : Prop := ∀ uid (serves : Serves uid), ∃ acc, t.Shows serves acc

theorem Tpm.empty_accounts : Tpm.empty.Accounts := fun _ _ => ⟨⟨.absent, .absent⟩, rfl, rfl⟩

theorem Tpm.Accounts.put {t : Tpm} {uid : UInt32} {serves : Serves uid} (accounts : t.Accounts)
    (acc : Account) :
    (t.put serves acc).Accounts := by
  intro uid' serves'
  by_cases same : uid' = uid
  · subst same
    exact ⟨acc, Tpm.put_shows⟩
  · obtain ⟨acc', shows_⟩ := accounts uid' serves'
    exact ⟨acc', (put_shows_other same).2 shows_⟩

end Pinpam
