import Pinpam.MasterKey.Rules

/-!
# Clearing the TPM

`clear_from_tpm` drops the results of both evictions, so its `Ok` says that the keys are
gone exactly when no command on a key that is there failed.
-/

namespace Pinpam
set_option autoImplicit false
open Pinpam.Effect Pinpam.Effect.Fallible

/-- A command on an object that is there fails. -/
def misses : Event CallCmd Vault → Bool
  | ⟨v, ⟨_, .inl (.trFromTpmPublic h)⟩, .error _, _⟩ => (v.1.persistent h).isSome
  | ⟨v, ⟨_, .inl (.evictControl _ h)⟩, .error _, _⟩ => (v.1.persistent h).isSome
  | _ => false

abbrev Misses (event : Event CallCmd Vault) : Prop := misses event = true

/-- A key is made persistent under the HMAC handle. -/
def makesKey : Event CallCmd Vault → Bool
  | ⟨_, ⟨_, .inl (.evictControl (.transient _) h)⟩, .ok _, _⟩ => decide (h = hmacHandle)
  | _ => false

abbrev MakesKey (event : Event CallCmd Vault) : Prop := makesKey event = true

section Clearing

variable {mac : Bytes → Bytes → Bytes} {G : Event CallCmd Vault → Prop} {l : Call} {o : Objects}
  {d : Disk} {b : Prop} {handle : UInt32} {h : PersistentTpmHandle} {policy : PinPolicy}
  {crypto : Crypto} {uid : UInt32} {v v' v'' : Vault}

theorem lets_misses : Lets Misses l h (o, d) where
  present := nofun
  absent gone := by simpa [misses, refuse] using gone
  evicted := nofun

/-- What an eviction leaves is what was missed. -/
theorem part_evict_misses (known : MasterKey.persistentHandle handle = .ok h) :
    Part mac G Misses l (MasterKey.evictPersistentIfPresent handle) (fun _ y => y.1.2 = d ∧
      (∀ j, j ≠ h → y.1.1.persistent j = o.persistent j) ∧ (y.2 ↔ b ∨ (y.1.1.persistent h).isSome))
        (o, d) b := by
  apply part_evict known lets_misses
  · intro _
    refine ⟨rfl, fun j other => ?_, ?_⟩
    · simp [other]
    · simp
  · intro gone
    simp [gone]
  · rintro c f e b' (_ | _) _ rfl
    · exact ⟨rfl, fun _ _ => rfl, Iff.rfl⟩
    · exact ⟨rfl, fun _ _ => rfl, Iff.rfl⟩

/-- A call that returns `Ok` missed exactly what is still there; one that does not missed
nothing. -/
theorem whole_clearFromTpm : Whole mac G Misses (MasterKey.program policy crypto uid .clearFromTpm)
    (fun r y => (r = .ok () → ¬ y.2 → y.1.1.persistent hmacHandle = none ∧
      y.1.1.persistent rsaHandle = none) ∧
      (y.2 → r = .ok () ∧ ((y.1.1.persistent hmacHandle).isSome ∨ (y.1.1.persistent rsaHandle).isSome)))
        (o, d) False := by
  apply whole_part
  unfold MasterKey.clearFromTpm MasterKey.ensureRootRealUid
  by_cases root : uid = 0
  · rw [if_neg (not_not.2 root), ofResult_ok_bind]
    refine seq (part_object ?_ ?_)
    · simp only [Objects.exec]
      intro b' _ seen
      obtain rfl := unseen seen (by simp [misses])
      refine seq_attempt (wpx_mono (part_evict_misses persistentHandle_hmac) ?_)
      rintro r ⟨⟨o', d'⟩, b'⟩ - ⟨rfl, others, hmac⟩
      refine seq_attempt (wpx_mono (part_evict_misses persistentHandle_rsa) ?_)
      rintro r ⟨⟨o'', d''⟩, b''⟩ - ⟨rfl, others', rsa⟩
      have same : o''.persistent hmacHandle = o'.persistent hmacHandle := others' _ hmac_ne_rsa
      simp only [false_or] at hmac rsa
      refine ⟨trivial, ?_⟩
      simp only [rsa, hmac, same, true_and, not_or, Option.not_isSome_iff_eq_none, imp_self]
    · intro f b' _ seen
      obtain rfl := unseen seen (by simp [misses])
      exact ⟨by simp, False.elim⟩
  · rw [if_pos root]
    exact ⟨trivial, by simp⟩

/-- Nothing but the making of a key puts one under the HMAC handle. -/
theorem absent_kept {event : Event CallCmd Vault}
    (act : (Vault.any mac).labelled event.op event.before event.answer event.after)
    (other : ¬ MakesKey event) (absent : event.before.1.persistent hmacHandle = none) :
    event.after.1.persistent hmacHandle = none := by
  obtain ⟨⟨o, d⟩, ⟨l, c | c⟩, r, ⟨o', d'⟩⟩ := event
  · have step : Faulty (Objects.exec mac) (fun _ => True) c o r o' := act.1
    have here : o.persistent hmacHandle = none := absent
    clear act absent
    cases step with
    | failed => exact here
    | done =>
      cases c with
      | evictControl object h =>
        by_cases there : (o.persistent h).isSome
        · cases object with
          | persistent j =>
            simp only [Objects.exec, Objects.evictControl]
            split <;> simp [here]
          | transient x => simp [Objects.exec, Objects.evictControl, there, here]
        · cases object with
          | persistent j => simp [Objects.exec, Objects.evictControl, there, here]
          | transient x =>
            have ne : hmacHandle ≠ h := by
              rintro rfl
              simp [Objects.exec, Objects.evictControl, there, makesKey] at other
            simp [Objects.exec, Objects.evictControl, there, here, ne]
      | _ => exact here
  · obtain ⟨-, same⟩ := act
    exact (congrArg (Objects.persistent · hmacHandle) same).trans absent

/-- A vault without the key has none until one is made. -/
theorem absent_throughout {calls : List KeyCall} (run : KeyRun mac crypto v calls v')
    (others : ∀ call ∈ calls, ∀ event ∈ call.events, ¬ MakesKey event)
    (absent : v.1.persistent hmacHandle = none) :
    v'.1.persistent hmacHandle = none := by
  induction run with
  | stop => exact absent
  | @call call calls v goes _ ih =>
    apply ih fun later member => others later (List.mem_cons_of_mem _ member)
    have own := others call List.mem_cons_self
    exact Prog.Runs.keeps (I := fun v => v.1.persistent hmacHandle = none) goes
      (fun event member act => absent_kept act (own event member)) absent

/-- No token without the key. -/
theorem whole_deriveUserToken_absent {username : Str} (absent : o.persistent hmacHandle = none) :
    Whole mac (fun _ => True) (fun _ => False)
      (MasterKey.program policy crypto uid (.deriveUserToken username))
      (fun r _ => ∃ e, r = .error e) (o, d) False := by
  apply whole_part
  unfold MasterKey.deriveUserToken
  refine seq (part_object ?_ fun f b' _ _ => ⟨_, rfl⟩)
  intro b' _ _
  simp only [Objects.exec]
  rw [persistentHandle_hmac, ofResult_ok_bind]
  refine seq (part_object ?_ fun f b' _ _ => ⟨_, rfl⟩)
  intro b' _ _
  simp only [Objects.exec, absent]
  exact ⟨_, rfl⟩

/-- The keys are gone, and no token is derived until a key has been made. -/
structure Cleared (mac : Bytes → Bytes → Bytes) (crypto : Crypto) (v : Vault) : Prop where
  hmac : v.1.persistent hmacHandle = none
  rsa : v.1.persistent rsaHandle = none
  tokens : ∀ calls v', KeyRun mac crypto v calls v' →
    (∀ call ∈ calls, ∀ event ∈ call.events, ¬ MakesKey event) →
      ∀ (policy : PinPolicy) (uid : UInt32) (username : Str) events r v'',
        (MasterKey.program policy crypto uid (.deriveUserToken username)).run.Runs
          (Vault.any mac).labelled v' events r v'' →
            ∃ e, r = .error e

theorem cleared (hmac : v.1.persistent hmacHandle = none) (rsa : v.1.persistent rsaHandle = none) :
    Cleared mac crypto v where
  hmac := hmac
  rsa := rsa
  tokens calls v' run others policy uid username events r v'' derives := by
    have absent := absent_throughout run others hmac
    have whole :
        Whole mac (fun _ => True) (fun _ => False)
          (MasterKey.program policy crypto uid (.deriveUserToken username))
          (fun r _ => ∃ e, r = .error e) (v'.1, v'.2) False :=
      whole_deriveUserToken_absent absent
    exact whole.runs derives fun _ _ => trivial

/-- A clearing that returns `Ok` has cleared the TPM exactly when no command on a key that
is there failed. -/
theorem clear_clears_iff {events : List (Event CallCmd Vault)} {r : PinResult Unit}
    (run : (MasterKey.program policy crypto uid .clearFromTpm).run.Runs
      (Vault.any mac).labelled v events r v') :
    (r = .ok () → Cleared mac crypto v') ↔ ∀ event ∈ events, ¬ Misses event := by
  have post := whole_clearFromTpm.runs (v := (v.1, v.2)) run fun _ _ => trivial
  obtain ⟨gone, missed⟩ := post
  constructor
  · intro law event member misses
    obtain ⟨ok, there⟩ := missed ⟨event, member, misses⟩
    have all := law ok
    simp [all.hmac, all.rsa] at there
  · intro none ok
    have both := gone ok fun ⟨event, member, misses⟩ => none event member misses
    exact cleared both.1 both.2

end Clearing

/-! ## Samples -/

/-- Both objects, the key of zeros, and no file. -/
def sampleVault : Vault :=
  ((Objects.empty.set rsaHandle (some (.primary MasterKey.rsaParentPublic))).set hmacHandle
    (some (.keyedHash MasterKey.hmacKeyPublic (List.replicate 32 0))), ⟨none⟩)

theorem clear_clears_once : Cleared sampleMac sampleCrypto
    (KeyCall.flaky sampleMac sampleCrypto .default 0 .clearFromTpm sampleVault []).after := by
  have ok : (KeyCall.flaky sampleMac sampleCrypto .default 0 .clearFromTpm sampleVault []).result =
      .ok () := by rfl
  exact (clear_clears_iff KeyCall.flaky_goes).2 (by decide +kernel) ok

/-- The probe of the HMAC handle fails. -/
def missedClearing : KeyCall :=
  .flaky sampleMac sampleCrypto .default 0 .clearFromTpm sampleVault [none, some ⟨0⟩]

/-- The key stays, though the call returned `Ok`. -/
theorem clear_leaves_key : ¬ ∀ (mac : Bytes → Bytes → Bytes) (crypto : Crypto) (policy : PinPolicy)
    (uid : UInt32) (v v' : Vault) (events : List (Event CallCmd Vault)) (r : PinResult Unit),
    (MasterKey.program policy crypto uid .clearFromTpm).run.Runs
      (Vault.any mac).labelled v events r v' →
        r = .ok () → Cleared mac crypto v' := by
  intro claim
  have stays : (missedClearing.after.1.persistent hmacHandle).isSome := by decide +kernel
  have gone : missedClearing.after.1.persistent hmacHandle = none :=
    (claim sampleMac sampleCrypto .default 0 _ _ _ missedClearing.result KeyCall.flaky_goes rfl).hmac
  rw [gone] at stays
  cases stays

end Pinpam
