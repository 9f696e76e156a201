import Pinpam.MasterKey.Rules

/-!
# Trying again

What a failed `init` or `import_to_tpm` leaves under the two handles. Nothing in the calls
takes back a parent made by a provisioning that stops, or the keys when only the status
query at the end fails; and the rollback of `init` takes away a parent it found.
-/

namespace Pinpam
set_option autoImplicit false
open Pinpam.Effect Pinpam.Effect.Fallible

inductive MakesKeys : MasterKeyOp → Prop where
  | init : MakesKeys .init
  | importToTpm (phrase : Str) : MakesKeys (.importToTpm phrase)

/-- Both handles hold what they held. -/
def SameKeys (o o' : Objects) : Prop :=
  o'.persistent rsaHandle = o.persistent rsaHandle ∧ o'.persistent hmacHandle = o.persistent hmacHandle

/-- A command fails; to say that a handle is free is no failure. -/
def fails {α : Type} : Except TssError α → Bool
  | .error (.tss2 (some .handle)) => false
  | .error _ => true
  | .ok _ => false

/-- A command of the rollback fails. -/
def rollbackFails : Event CallCmd Vault → Bool
  | ⟨_, ⟨.rollback, .inl _⟩, r, _⟩ => fails r
  | _ => false

abbrev RollsBack (event : Event CallCmd Vault) : Prop := rollbackFails event = false

def connects : KeyCmd → Bool
  | .inl (.connect _) => true
  | _ => false

/-- In a call that found the objects `o`: the status query at the end fails, or a rollback
is begun although there was a parent, or a provisioning stops that has made one. -/
def alters (o : Objects) : Event CallCmd Vault → Bool
  | ⟨_, ⟨.status, .inl _⟩, r, _⟩ => fails r
  | ⟨_, ⟨.rollback, c⟩, _, _⟩ => connects c && (o.persistent rsaHandle).isSome
  | ⟨v, ⟨.provision, .inl c⟩, r, _⟩ => (o.persistent rsaHandle).isNone &&
    (v.1.persistent rsaHandle).isSome && stops c r
  | _ => false

abbrev Alters (o : Objects) (event : Event CallCmd Vault) : Prop := alters o event = true

@[simp] theorem alters_status {o : Objects} {v v' : Vault} {c : ObjectCmd} {r : Except TssError c.Out} :
    Alters o ⟨v, ⟨.status, .inl c⟩, r, v'⟩ ↔ fails r = true := Iff.rfl

@[simp] theorem alters_provision {o : Objects} {v v' : Vault} {c : ObjectCmd}
    {r : Except TssError c.Out} :
    Alters o ⟨v, ⟨.provision, .inl c⟩, r, v'⟩ ↔
      o.persistent rsaHandle = none ∧ (v.1.persistent rsaHandle).isSome ∧ stops c r = true := by
  simp [Alters, alters, and_assoc]

section Retry

variable {mac : Bytes → Bytes → Bytes} {G : Event CallCmd Vault → Prop} {l : Call} {o o' : Objects}
  {d : Disk} {v v' : Vault} {b : Prop} {policy : PinPolicy} {crypto : Crypto} {uid : UInt32}
  {op : MasterKeyOp}

theorem unwatched_own : OwnUnwatched (Alters o) where
  tpm _ _ _ _ := Bool.false_ne_true
  sys := {
    inert := fun _ _ _ _ _ => Bool.false_ne_true
    create := fun _ _ _ _ => Bool.false_ne_true
    write := fun _ _ _ => Bool.false_ne_true }

theorem unwatched_seal : Unwatched (Alters o) .seal where
  inert _ _ _ _ _ := Bool.false_ne_true
  create _ _ _ _ := Bool.false_ne_true
  write _ _ _ := Bool.false_ne_true

theorem calm_alters : Calm (Alters o) .status v where
  asked _ := Bool.false_ne_true
  connected _ := Bool.false_ne_true
  present _ := Bool.false_ne_true
  absent _ _ := Bool.false_ne_true

theorem lets_alters {h : PersistentTpmHandle} : Lets (Alters o) .rollback h v where
  present := Bool.false_ne_true
  absent _ := Bool.false_ne_true
  evicted := Bool.false_ne_true

/-- A rollback without a failure clears both handles. -/
theorem part_rollback : Part mac RollsBack (Alters o) .rollback (MasterKey.clearFromTpm policy 0)
    (fun _ y => y.1.1.persistent hmacHandle = none ∧ y.1.1.persistent rsaHandle = none ∧
      (y.2 ↔ (o.persistent rsaHandle).isSome)) (o', d) False := by
  have evict : ∀ {handle : UInt32} {h : PersistentTpmHandle} {w : Objects} {d : Disk} {b : Prop},
      MasterKey.persistentHandle handle = .ok h → Part mac RollsBack (Alters o) .rollback
        (MasterKey.evictPersistentIfPresent handle) (fun _ y => y.1.1.persistent h = none ∧
          (∀ j, j ≠ h → y.1.1.persistent j = w.persistent j) ∧ y.2 = b) (w, d) b := by
    intro handle h w d b known
    apply part_evict known lets_alters
    · intro _
      refine ⟨by simp, fun j other => ?_, rfl⟩
      simp [other]
    · exact fun free => ⟨free, fun _ _ => rfl, rfl⟩
    · intro c f e b' _ given _
      cases given
  unfold MasterKey.clearFromTpm MasterKey.ensureRootRealUid
  rw [if_neg (not_not.2 rfl), ofResult_ok_bind]
  refine seq (part_object ?_ fun f b' given _ => nomatch given)
  simp only [Objects.exec]
  intro b' _ seen
  refine seq_attempt (wpx_mono (evict persistentHandle_hmac) ?_)
  rintro r ⟨⟨o1, d1⟩, b1⟩ - ⟨hmac, -, same⟩
  obtain rfl : b1 = b' := same
  refine seq_attempt (wpx_mono (evict (w := o1) persistentHandle_rsa) ?_)
  rintro r ⟨⟨o2, d2⟩, b2⟩ - ⟨rsa, others, same⟩
  obtain rfl : b2 = b1 := same
  have gone : o2.persistent hmacHandle = none := (others _ hmac_ne_rsa).trans hmac
  refine ⟨trivial, gone, rsa, ?_⟩
  simp [seen, alters, connects]

theorem calm_provision (v : Vault) (c : ObjectCmd) (r : Except TssError c.Out) (v' : Vault)
    (goes : stops c r = false) :
    ¬ Alters o ⟨v, ⟨.provision, .inl c⟩, r, v'⟩ := by
  simp [goes]

/-- What a provisioning that stops leaves is a parent that it has made. -/
theorem provision_alters
    (old : o' = o ∨ o.persistent rsaHandle = none ∧ o' = o.set rsaHandle (some rsaParent))
    {c : ObjectCmd} {r : Except TssError c.Out} (stop : stops c r = true) :
    Alters o ⟨(o', d), ⟨.provision, .inl c⟩, r, (o', d)⟩ ↔ ¬ SameKeys o o' := by
  obtain rfl | ⟨free, rfl⟩ := old
  · cases rsa : o'.persistent rsaHandle <;> simp [rsa, SameKeys]
  · simp [free, stop, SameKeys]

/-- The status query after a key has been made fails exactly when it leaves the key. -/
theorem part_status_alters {key : KeyObject} (free : o.persistent hmacHandle = none)
    (made : o'.persistent hmacHandle = some key) :
    Part mac G (Alters o) .status (MasterKey.status policy)
      (fun r y => y.2 ↔ (∃ e, r = .error e) ∧ ¬ SameKeys o y.1.1) (o', d)
      False := by
  have differ : ¬ SameKeys o o' := by simp [SameKeys, free, made]
  apply part_status calm_alters
  · intro present _
    simp
  · rintro c fault e b' _ _ rfl
    simp [differ, fails, Fault.error]

/-- Where the rollback meets no failure, what a failing `init` leaves is due to one of the three. -/
theorem whole_init_alters : Whole mac RollsBack (Alters o) (MasterKey.program policy crypto uid .init)
    (fun r y => y.2 ↔ (∃ e, r = .error e) ∧ ¬ SameKeys o y.1.1) (o, d) False := by
  have kept : SameKeys o o := ⟨rfl, rfl⟩
  apply whole_init unwatched_own.sys
  · simp [kept]
  · rintro rfl _ hmacKey phrase
    apply part_provision calm_provision
    · intro free o' made
      have rollback :
          ∀ (e : PinError) d', Part mac RollsBack (Alters o) .rollback (MasterKey.clearFromTpm policy 0)
            (fun _ y => y.2 ↔ (∃ e', (.error e : PinResult MasterKeyInitResult) = .error e') ∧
              ¬ SameKeys o y.1.1) (o', d') False := by
        intro e d'
        refine wpx_mono part_rollback ?_
        rintro r ⟨⟨o'', d''⟩, b''⟩ - ⟨hmac, rsa, seen⟩
        dsimp only at hmac rsa seen ⊢
        rw [seen, SameKeys, hmac, rsa, free]
        cases o.persistent rsaHandle <;> simp
      apply part_seal unwatched_seal
      · exact fun e => rollback e d
      · intro _ json part _ _ _ e before data err b' _ seen
        obtain rfl := unseen seen Bool.false_ne_true
        exact rollback e _
      · intro _ json _
        refine wpx_mono (part_status_alters free made) ?_
        rintro (e | st) y - left
        · exact left.trans (by simp [Except.map])
        · exact left.trans (by simp [Except.map])
    · rintro o' old c r e b' stop rfl
      simp [provision_alters old stop]

/-- The same of `import_to_tpm`, which makes none. -/
theorem whole_import_alters {phrase : Str} :
    Whole mac RollsBack (Alters o) (MasterKey.program policy crypto uid (.importToTpm phrase))
      (fun r y => y.2 ↔ (∃ e, r = .error e) ∧ ¬ SameKeys o y.1.1) (o, d) False := by
  have kept : SameKeys o o := ⟨rfl, rfl⟩
  apply whole_import unwatched_own
  · simp [kept]
  · intro _ _ data hmacKey _ _
    apply part_provision calm_provision
    · intro free o' made
      exact part_status_alters free made
    · rintro o' old c r e b' stop rfl
      simp [provision_alters old stop]

/-- A failed call, if its rollback meets no failure, leaves both handles as they were
exactly when none of the three has happened. -/
theorem failed_call_keeps_keys_iff {events : List (Event CallCmd Vault)} {r : PinResult op.Out}
    (makes : MakesKeys op)
    (run : (MasterKey.program policy crypto uid op).run.Runs (Vault.any mac).labelled v events r v') :
    ((∀ event ∈ events, RollsBack event) → (∃ e, r = .error e) → SameKeys v.1 v'.1) ↔
      ((∀ event ∈ events, RollsBack event) → ∀ event ∈ events, ¬ Alters v.1 event) := by
  apply imp_congr_right
  intro rollsBack
  have left : (∃ event ∈ events, Alters v.1 event) ↔ (∃ e, r = .error e) ∧ ¬ SameKeys v.1 v'.1 := by
    cases makes with
    | init => exact whole_init_alters.runs (v := (v.1, v.2)) run rollsBack
    | importToTpm phrase => exact whole_import_alters.runs (v := (v.1, v.2)) run rollsBack
  constructor
  · intro law event member alters
    obtain ⟨failed, differ⟩ := left.1 ⟨event, member, alters⟩
    exact differ (law failed)
  · intro none failed
    by_contra differ
    obtain ⟨event, member, alters⟩ := left.2 ⟨failed, differ⟩
    exact none event member alters

end Retry

/-! ## Samples -/

def sampleObjects : Objects := Objects.empty.set rsaHandle (some rsaParent)

/-- There was a parent, and the HMAC key cannot be made. -/
def refusedKey : KeyCall := .flaky sampleMac sampleCrypto .default 0 .init (sampleObjects, ⟨none⟩)
  (List.replicate 6 none ++ [some ⟨0⟩])

theorem failed_call_keeps_keys_once : SameKeys sampleObjects refusedKey.after.1 :=
  (failed_call_keeps_keys_iff .init KeyCall.flaky_goes).2 (fun _ => by decide +kernel) (by
    decide +kernel) ⟨_, rfl⟩

/-- A parent is made, and the HMAC key cannot be. -/
def orphanedParent : KeyCall :=
  .flaky sampleMac sampleCrypto .default 0 (.importToTpm "abandon".toList) (.empty, ⟨some [8, 9, 10]⟩)
    (List.replicate 12 none ++ [some ⟨0⟩])

/-- The parent stays, and no import is let in any more. -/
theorem failed_import_leaves_parent : ¬ ∀ (mac : Bytes → Bytes → Bytes) (crypto : Crypto)
    (policy : PinPolicy) (uid : UInt32) (op : MasterKeyOp) (v v' : Vault)
    (events : List (Event CallCmd Vault)) (r : PinResult op.Out), MakesKeys op →
      (MasterKey.program policy crypto uid op).run.Runs (Vault.any mac).labelled v events r v' →
        (∀ event ∈ events, RollsBack event) → (∃ e, r = .error e) → SameKeys v.1 v'.1 := by
  intro claim
  have stays : (orphanedParent.after.1.persistent rsaHandle).isSome := by decide +kernel
  have same : orphanedParent.after.1.persistent rsaHandle = none :=
    (claim sampleMac sampleCrypto .default 0 _ _ _ _ orphanedParent.result (.importToTpm _)
      KeyCall.flaky_goes (by decide +kernel) ⟨_, rfl⟩).1
  rw [same] at stays
  cases stays

end Pinpam
