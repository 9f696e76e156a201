import Pinpam.MasterKey.Rules

/-!
# The recovery phrase

Only a call of `init` that returns `Ok` hands the phrase out. One that fails leaves the
sealed file as it was exactly when nothing failed once the file had been made: neither of
the two writes, nor the status query at the end.
-/

namespace Pinpam
set_option autoImplicit false
open Pinpam.Effect Pinpam.Effect.Fallible

/-- With the file there, a write fails, or a connection, or a probe. -/
def strands : Event CallCmd Vault → Bool
  | ⟨v, ⟨_, .inr (.writeAll _)⟩, .error _, _⟩ => v.2.sealedFile.isSome
  | ⟨v, ⟨_, .inl (.connect _)⟩, .error _, _⟩ => v.2.sealedFile.isSome
  | ⟨_, ⟨_, .inl (.trFromTpmPublic _)⟩, .error (.tss2 (some .handle)), _⟩ => false
  | ⟨v, ⟨_, .inl (.trFromTpmPublic _)⟩, .error _, _⟩ => v.2.sealedFile.isSome
  | _ => false

abbrev Strands (event : Event CallCmd Vault) : Prop := strands event = true

section Phrase

variable {mac : Bytes → Bytes → Bytes} {G P : Event CallCmd Vault → Prop} {l : Call} {o : Objects}
  {d : Disk} {v : Vault} {b : Prop} {ε α : Type} {policy : PinPolicy} {crypto : Crypto}
  {uid : UInt32}

/-- Without the file nothing strands it. -/
theorem not_strands {event : Event CallCmd Vault} (absent : event.before.2.sealedFile = none) :
    ¬ Strands event := by
  unfold Strands strands
  split <;> simp_all

theorem unwatched_strands : Unwatched Strands l where
  inert v c r v' inert := by cases c <;> first | exact inert.elim | nofun
  create := nofun
  write := nofun

/-- What the TPM is asked leaves the disk, and without the file strands nothing. -/
theorem part_onTpm {x : Fallible KeyCmd ε α} (only : OnlyX OnTpm x) (calm : d.sealedFile = none → ¬ b) :
    Part mac G Strands l x (fun _ y => y.1.2 = d ∧ (d.sealedFile = none → ¬ y.2)) (o, d) b := by
  apply part_keeps (I := fun v b => v.2 = d ∧ (d.sealedFile = none → ¬ b)) only _ ⟨rfl, calm⟩
  rintro (c | c) ⟨o, d'⟩ r ⟨o', d''⟩ b own ⟨-, same⟩ _ ⟨rfl, calm⟩
  · obtain rfl : d'' = d' := same
    refine ⟨rfl, fun absent => not_or.2 ⟨calm absent, not_strands absent⟩⟩
  · exact own.elim

/-- What has been seen stays seen. -/
theorem part_onTpm_seen {x : Fallible KeyCmd ε α} (only : OnlyX OnTpm x) (seen : b) :
    Part mac G P l x (fun _ y => y.1.2 = d ∧ y.2) (o, d) b := by
  apply part_keeps (I := fun v b => v.2 = d ∧ b) only _ ⟨rfl, seen⟩
  rintro (c | c) ⟨o, d'⟩ r ⟨o', d''⟩ b own ⟨-, same⟩ _ ⟨rfl, seen⟩
  · obtain rfl : d'' = d' := same
    exact ⟨rfl, .inl seen⟩
  · exact own.elim

theorem calm_strands : Calm Strands l (o, d) where
  asked := nofun
  connected := nofun
  present := nofun
  absent := nofun

/-- A file that was there stays. If there was none, what a failing call leaves is what was
stranded. -/
theorem whole_init_strands : Whole mac G Strands (MasterKey.program policy crypto uid .init)
    (fun r y => (d.sealedFile ≠ none → y.1.2 = d) ∧
      (d.sealedFile = none → (y.2 ↔ (∃ e, r = .error e) ∧ y.1.2.sealedFile.isSome))) (o, d) False := by
  have kept : ∀ (e : PinError) (y : Vault × Prop), y.1.2 = d ∧ (d.sealedFile = none → ¬ y.2) →
      (d.sealedFile ≠ none → y.1.2 = d) ∧ (d.sealedFile = none → (y.2 ↔
        (∃ e', (.error e : PinResult MasterKeyInitResult) = .error e') ∧ y.1.2.sealedFile.isSome)) := by
    rintro e ⟨⟨o, d'⟩, b⟩ ⟨same, calm⟩
    obtain rfl : d = d' := same.symm
    refine ⟨fun _ => rfl, fun absent => ?_⟩
    have quiet : ¬ b := calm absent
    simp [quiet, absent]
  apply whole_init unwatched_strands
  · exact fun e => kept e _ ⟨rfl, fun _ => id⟩
  · intro root _ hmacKey phrase
    refine wpx_mono (part_onTpm provisionTpmObjects_onTpm fun _ => id) ?_
    rintro (e | _) ⟨⟨o', d'⟩, b'⟩ - ⟨same, calm⟩
    all_goals obtain rfl : d = d' := same.symm
    · exact kept e _ ⟨rfl, calm⟩
    apply part_seal unwatched_strands
    · intro e
      exact wpx_mono (part_onTpm clearFromTpm_onTpm calm) fun r y _ post => kept e y post
    · intro absent json part _ _ _ e before data err b'' there seen
      have stranded : b'' := by
        rw [seen]
        exact .inr there
      refine wpx_mono (part_onTpm_seen clearFromTpm_onTpm stranded) ?_
      rintro r ⟨⟨o'', d''⟩, b'''⟩ - ⟨same, seen⟩
      obtain rfl : d'' = ⟨some part⟩ := same
      refine ⟨fun there => absurd absent there, fun _ => ?_⟩
      exact ⟨fun _ => ⟨⟨e, rfl⟩, rfl⟩, fun _ => seen⟩
    · intro absent json _
      have calm : ¬ b' := calm absent
      apply part_status calm_strands
      · intro present _
        refine ⟨fun there => absurd absent there, fun _ => ?_⟩
        simp [calm, Except.map]
      · rintro c f e b'' asks _ rfl
        refine ⟨fun there => absurd absent there, fun _ => ?_⟩
        have stranded :
            Strands
              ⟨(o', ⟨some (json ++ [10])⟩), ⟨.status, .inl c⟩, .error f.error,
                (o', ⟨some (json ++ [10])⟩)⟩ := by
          cases asks with
          | connect => rfl
          | probe => rfl
        exact ⟨fun _ => ⟨⟨_, rfl⟩, rfl⟩, fun _ => .inr stranded⟩

/-- A call of `init` that fails leaves the sealed file as it was exactly when, if there
was no file, nothing failed once it had been made. -/
theorem init_keeps_file_iff {v v' : Vault} {events : List (Event CallCmd Vault)}
    {r : PinResult MasterKeyInitResult}
    (run : (MasterKey.program policy crypto uid .init).run.Runs
      (Vault.any mac).labelled v events r v') :
    ((∃ e, r = .error e) → v'.2.sealedFile = v.2.sealedFile) ↔
      (v.2.sealedFile = none → ∀ event ∈ events, ¬ Strands event) := by
  obtain ⟨present, absent⟩ := whole_init_strands.runs (v := (v.1, v.2)) run fun _ _ => trivial
  cases file : v.2.sealedFile with
  | some data =>
    have same : v'.2 = v.2 := present (by simp [file])
    simp [same, file]
  | none =>
    have stranded := absent file
    simp only [true_imp_iff]
    constructor
    · intro law event member strands
      obtain ⟨failed, there⟩ := stranded.1 ⟨event, member, strands⟩
      simp [law failed] at there
    · intro none failed
      by_contra there
      obtain ⟨event, member, strands⟩ := stranded.2 ⟨failed, Option.isSome_iff_ne_none.2 there⟩
      exact none event member strands

end Phrase

/-! ## Samples -/

/-- The file cannot be made. -/
def refusedSealing : KeyCall :=
  .flaky sampleMac sampleCrypto .default 0 .init emptyVault (List.replicate 21 none ++ [some ⟨0⟩])

theorem init_keeps_file_once : refusedSealing.after.2.sealedFile = none :=
  (init_keeps_file_iff KeyCall.flaky_goes).2 (by decide +kernel) ⟨.ioError [], rfl⟩

/-- The status query cannot connect. -/
def lostPhrase : KeyCall :=
  .flaky sampleMac sampleCrypto .default 0 .init emptyVault (List.replicate 27 none ++ [some ⟨0⟩])

/-- The file stays, though the call failed. -/
theorem init_strands_file : ¬ ∀ (mac : Bytes → Bytes → Bytes) (crypto : Crypto) (policy : PinPolicy)
    (uid : UInt32) (v v' : Vault) (events : List (Event CallCmd Vault))
    (r : PinResult MasterKeyInitResult),
    (MasterKey.program policy crypto uid .init).run.Runs (Vault.any mac).labelled v events r v' →
      (∃ e, r = .error e) → v'.2.sealedFile = v.2.sealedFile := by
  intro claim
  have there : lostPhrase.after.2.sealedFile.isSome := by decide +kernel
  have gone : lostPhrase.after.2.sealedFile = none :=
    claim sampleMac sampleCrypto .default 0 _ _ _ lostPhrase.result KeyCall.flaky_goes ⟨_, rfl⟩
  rw [gone] at there
  cases there

end Pinpam
