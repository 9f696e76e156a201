import Pinpam.MasterKey.Commands

/-!
# Rules for the master-key functions

The calls of a part of `init` or `import_to_tpm` under watch: `G` is what is assumed of
every event, `P` the kind of event that is watched for. A rule has a premise for the
answer of a call and one for its failure.
-/

namespace Pinpam
set_option autoImplicit false
open Pinpam.Effect Pinpam.Effect.Fallible

/-- The events of one part, as those of the whole. -/
def Event.at (l : Call) (event : Event KeyCmd Vault) : Event CallCmd Vault :=
  ⟨event.before, ⟨l, event.op⟩, event.answer, event.after⟩

/-- Any calls of the kind `G`. -/
def Vault.given (mac : Bytes → Bytes → Bytes) (G : Event CallCmd Vault → Prop) :
    Behaviour CallCmd Vault := fun c v r v' =>
  (Vault.any mac).labelled c v r v' ∧ G ⟨v, c, r, v'⟩

/-- One part under watch. -/
def Vault.seen (mac : Bytes → Bytes → Bytes) (G P : Event CallCmd Vault → Prop) (l : Call) :
    Behaviour KeyCmd (Vault × Prop) :=
  fun c x r y => (Vault.any mac c x.1 r y.1 ∧ G (Event.at l ⟨x.1, c, r, y.1⟩)) ∧
  y.2 = (x.2 ∨ P (Event.at l ⟨x.1, c, r, y.1⟩))

/-- The judgement of a part. -/
abbrev Part {ε α : Type} (mac : Bytes → Bytes → Bytes) (G P : Event CallCmd Vault → Prop) (l : Call)
    (x : Fallible KeyCmd ε α) (Q : Except ε α → Vault × Prop → Prop) (v : Vault) (b : Prop) :
    Prop :=
  wpx (Vault.seen mac G P l) (fun _ => True) x Q (v, b)

/-- The judgement of the whole. -/
abbrev Whole {ε α : Type} (mac : Bytes → Bytes → Bytes) (G P : Event CallCmd Vault → Prop)
    (x : Fallible CallCmd ε α) (Q : Except ε α → Vault × Prop → Prop) (v : Vault) (b : Prop) :
    Prop :=
  wpx (Watching P (Vault.given mac G)) (fun _ => True) x Q (v, b)

section Rules

variable {mac : Bytes → Bytes → Bytes} {G P : Event CallCmd Vault → Prop} {l : Call}
  {o o' : Objects} {d : Disk} {v : Vault} {b : Prop} {ε ε' α β : Type}

theorem whole_part {x : Fallible KeyCmd ε α} {Q : Except ε α → Vault × Prop → Prop}
    (part : Part mac G P l x Q v b) :
    Whole mac G P (x.label l) Q v b := wpx_label.2 part

/-- What is known of the whole holds of its runs. -/
theorem Whole.runs {x : Fallible CallCmd ε α} {Q : Except ε α → Vault × Prop → Prop}
    {events : List (Event CallCmd Vault)} {r : Except ε α} {v' : Vault}
    (whole : Whole mac G P x Q v False) (run : x.run.Runs (Vault.any mac).labelled v events r v')
    (all : ∀ event ∈ events, G event) :
    Q r (v', ∃ event ∈ events, P event) := (run.confined all).judged whole

theorem seq {x : Fallible KeyCmd ε α} {f : α → Fallible KeyCmd ε β}
    {Q : Except ε β → Vault × Prop → Prop}
    (first : Part mac G P l x (fun r y => match r with
      | .ok a => Part mac G P l (f a) Q y.1 y.2
      | .error e => Q (.error e) y) v b) : Part mac G P l (x >>= f) Q v b := by
  refine wpx_bind.2 (wpx_mono first fun r y _ post => ?_)
  cases r with
  | ok a => exact post
  | error e => exact ⟨trivial, post⟩

theorem seq_attempt {x : Fallible KeyCmd ε α} {f : Except ε α → Fallible KeyCmd ε' β}
    {Q : Except ε' β → Vault × Prop → Prop}
    (first : Part mac G P l x (fun r y => Part mac G P l (f r) Q y.1 y.2) v b) :
    Part mac G P l ((attempt x : Fallible KeyCmd ε' (Except ε α)) >>= f) Q v b :=
  seq (wpx_attempt.2 first)

theorem whole_seq {x : Fallible CallCmd ε α} {f : α → Fallible CallCmd ε β}
    {Q : Except ε β → Vault × Prop → Prop}
    (first : Whole mac G P x (fun r y => match r with
      | .ok a => Whole mac G P (f a) Q y.1 y.2
      | .error e => Q (.error e) y) v b) : Whole mac G P (x >>= f) Q v b := by
  refine wpx_bind.2 (wpx_mono first fun r y _ post => ?_)
  cases r with
  | ok a => exact post
  | error e => exact ⟨trivial, post⟩

theorem whole_attempt {x : Fallible CallCmd ε α} {f : Except ε α → Fallible CallCmd ε' β}
    {Q : Except ε' β → Vault × Prop → Prop}
    (first : Whole mac G P x (fun r y => Whole mac G P (f r) Q y.1 y.2) v b) :
    Whole mac G P ((attempt x : Fallible CallCmd ε' (Except ε α)) >>= f) Q v b :=
  whole_seq (wpx_attempt.2 first)

/-- The watch after an event that is not watched for. -/
theorem unseen {b b' p : Prop} (seen : b' = (b ∨ p)) (calm : ¬ p) : b' = b := by simp [seen, calm]

/-- A command of the TPM is answered, or fails. -/
theorem part_object {c : ObjectCmd} {read : Except TssError c.Out → Except ε α}
    {Q : Except ε α → Vault × Prop → Prop}
    (done : ∀ b', G ⟨(o, d), ⟨l, .inl c⟩, (Objects.exec mac c o).1, ((Objects.exec mac c o).2, d)⟩ →
      b' = (b ∨ P ⟨(o, d), ⟨l, .inl c⟩, (Objects.exec mac c o).1, ((Objects.exec mac c o).2, d)⟩) →
      Q (read (Objects.exec mac c o).1) (((Objects.exec mac c o).2, d), b'))
    (failed : ∀ (f : Fault) b', G ⟨(o, d), ⟨l, .inl c⟩, .error f.error, (o, d)⟩ →
      b' = (b ∨ P ⟨(o, d), ⟨l, .inl c⟩, .error f.error, (o, d)⟩) →
      Q (read (.error f.error)) ((o, d), b')) :
    Part mac G P l (op (Sum.inl c) read) Q (o, d) b := by
  refine ⟨trivial, ?_⟩
  rintro r ⟨⟨o', d'⟩, b'⟩ ⟨⟨⟨step, same⟩, given⟩, seen⟩
  obtain rfl : d' = d := same
  dsimp only at step given seen
  refine ⟨trivial, ?_⟩
  cases step with
  | done => exact done b' given seen
  | failed _ _ f => exact failed f b' given seen

/-- A call of the process. -/
theorem part_sys {c : SysCmd} {read : Answer c → Except ε α} {Q : Except ε α → Vault × Prop → Prop}
    (act : ∀ r d' b', Disk.any c d r d' → G ⟨(o, d), ⟨l, .inr c⟩, r, (o, d')⟩ →
      b' = (b ∨ P ⟨(o, d), ⟨l, .inr c⟩, r, (o, d')⟩) → Q (read r) ((o, d'), b')) :
    Part mac G P l (op (Sum.inr c) read) Q (o, d) b := by
  refine ⟨trivial, ?_⟩
  rintro r ⟨⟨o', d'⟩, b'⟩ ⟨⟨⟨step, same⟩, given⟩, seen⟩
  obtain rfl : o' = o := same
  dsimp only at step given seen
  refine ⟨trivial, ?_⟩
  exact act r d' b' step given seen

/-- A part that keeps an invariant of the vault and the watch. -/
theorem part_keeps {I : Vault → Prop → Prop} {O : KeyCmd → Prop} {x : Fallible KeyCmd ε α}
    (only : OnlyX O x)
    (keeps : ∀ c v r v' b, O c → Vault.any mac c v r v' → G ⟨v, ⟨l, c⟩, r, v'⟩ → I v b →
      I v' (b ∨ P ⟨v, ⟨l, c⟩, r, v'⟩))
    (start : I v b) : Part mac G P l x (fun _ y => I y.1 y.2) v b := by
  have judged : wpx (Vault.seen mac G P l) (fun y => I y.1 y.2) x (fun _ y => I y.1 y.2) (v, b) :=
    wpx_only (fun c y r y' own inv step => step.2 ▸ keeps c y.1 r y'.1 y.2 own step.1.1 step.1.2 inv)
      only start
  exact Prog.wp_behaviour judged (fun _ _ _ _ step => step) fun _ _ => trivial

end Rules

/-! ## Handles -/

def rsaHandle : PersistentTpmHandle := ⟨MASTER_KEY_RSA_PARENT_HANDLE, by decide, by decide⟩

def hmacHandle : PersistentTpmHandle := ⟨MASTER_KEY_HMAC_HANDLE, by decide, by decide⟩

@[simp] theorem persistentHandle_rsa :
    MasterKey.persistentHandle MASTER_KEY_RSA_PARENT_HANDLE = .ok rsaHandle := by decide +kernel

@[simp] theorem persistentHandle_hmac :
    MasterKey.persistentHandle MASTER_KEY_HMAC_HANDLE = .ok hmacHandle := by decide +kernel

@[simp] theorem rsa_ne_hmac : rsaHandle ≠ hmacHandle := by decide

@[simp] theorem hmac_ne_rsa : hmacHandle ≠ rsaHandle := by decide

section Handles

variable {mac : Bytes → Bytes → Bytes} {G P : Event CallCmd Vault → Prop} {l : Call} {o : Objects}
  {d : Disk} {b : Prop} {handle : UInt32} {h : PersistentTpmHandle}

/-- A probe: the handle is in use, it is free, or the command fails. -/
theorem part_persistentPresent {Q : PinResult Bool → Vault × Prop → Prop}
    (known : MasterKey.persistentHandle handle = .ok h)
    (present : ∀ b', (o.persistent h).isSome →
      G ⟨(o, d), ⟨l, .inl (.trFromTpmPublic h)⟩, .ok (), (o, d)⟩ →
      b' = (b ∨ P ⟨(o, d), ⟨l, .inl (.trFromTpmPublic h)⟩, .ok (), (o, d)⟩) → Q (.ok true) ((o, d), b'))
    (absent : ∀ b', o.persistent h = none →
      G ⟨(o, d), ⟨l, .inl (.trFromTpmPublic h)⟩, refuse .handle, (o, d)⟩ →
      b' = (b ∨ P ⟨(o, d), ⟨l, .inl (.trFromTpmPublic h)⟩, refuse .handle, (o, d)⟩) →
      Q (.ok false) ((o, d), b'))
    (failed : ∀ (f : Fault) b', G ⟨(o, d), ⟨l, .inl (.trFromTpmPublic h)⟩, .error f.error, (o, d)⟩ →
      b' = (b ∨ P ⟨(o, d), ⟨l, .inl (.trFromTpmPublic h)⟩, .error f.error, (o, d)⟩) →
      Q (.error (.ofTss f.error)) ((o, d), b')) :
    Part mac G P l (MasterKey.persistentPresent handle) Q (o, d) b := by
  unfold MasterKey.persistentPresent
  rw [known, ofResult_ok_bind]
  refine seq_attempt (part_object ?_ fun f b' given seen => ⟨trivial, failed f b' given seen⟩)
  intro b'
  cases there : o.persistent h with
  | some x =>
    have found : (o.persistent h).isSome := by simp [there]
    simp only [Objects.exec, there, Option.isSome_some, if_true]
    exact fun given seen => ⟨trivial, present b' found given seen⟩
  | none =>
    simp only [Objects.exec, there, Option.isSome_none, Bool.false_eq_true, if_false]
    exact fun given seen => ⟨trivial, absent b' there given seen⟩

/-- The commands of an eviction. -/
inductive Evicts (h : PersistentTpmHandle) : ObjectCmd → Prop where
  | load : Evicts h (.trFromTpmPublic h)
  | evict : Evicts h (.evictControl (.persistent h) h)

/-- The answers of an eviction that meets no failure are not watched for. -/
structure Lets (P : Event CallCmd Vault → Prop) (l : Call) (h : PersistentTpmHandle) (v : Vault) :
    Prop where
  present : ¬ P ⟨v, ⟨l, .inl (.trFromTpmPublic h)⟩, .ok (), v⟩
  absent : v.1.persistent h = none → ¬ P ⟨v, ⟨l, .inl (.trFromTpmPublic h)⟩, refuse .handle, v⟩
  evicted : ¬ P ⟨v, ⟨l, .inl (.evictControl (.persistent h) h)⟩, .ok none, (v.1.set h none, v.2)⟩

/-- An eviction that meets no failure frees the handle; any other leaves it in use. -/
theorem part_evict {Q : PinResult Unit → Vault × Prop → Prop}
    (known : MasterKey.persistentHandle handle = .ok h) (lets : Lets P l h (o, d))
    (freed : (o.persistent h).isSome → Q (.ok ()) ((o.set h none, d), b))
    (free : o.persistent h = none → Q (.ok ()) ((o, d), b))
    (failed : ∀ (c : ObjectCmd) (f : Fault) (e : PinError) b', Evicts h c →
      G ⟨(o, d), ⟨l, .inl c⟩, .error f.error, (o, d)⟩ →
      b' = (b ∨ P ⟨(o, d), ⟨l, .inl c⟩, .error f.error, (o, d)⟩) → Q (.error e) ((o, d), b')) :
    Part mac G P l (MasterKey.evictPersistentIfPresent handle) Q (o, d) b := by
  unfold MasterKey.evictPersistentIfPresent
  refine seq (part_persistentPresent known ?_ ?_ fun f b' given seen =>
    failed _ f _ b' .load given seen)
  · intro b' there _ seen
    obtain rfl := unseen seen lets.present
    dsimp only
    rw [if_pos rfl, known, ofResult_ok_bind]
    refine seq (part_object ?_ fun f b' given seen => failed _ f _ b' .load given seen)
    simp only [Objects.exec, there, if_true]
    intro b' _ seen
    obtain rfl := unseen seen lets.present
    refine seq (part_object ?_ fun f b' given seen => failed _ f _ b' .evict given seen)
    simp only [Objects.exec, Objects.evictControl, there, and_self, if_true]
    intro b' _ seen
    obtain rfl := unseen seen lets.evicted
    exact ⟨trivial, freed there⟩
  · intro b' gone _ seen
    obtain rfl := unseen seen (lets.absent gone)
    exact ⟨trivial, free gone⟩

end Handles

/-! ## Parts of one kind -/

def OnTpm : KeyCmd → Prop
  | .inl _ => True
  | .inr _ => False

/-- A call of the process without an effect on the file. -/
def Inert : SysCmd → Prop
  | .createNew _ | .writeAll _ | .removeFile => False
  | _ => True

section Kinds

variable {policy : PinPolicy} {uid handle : UInt32} {hmacKey : Vector UInt8 HMAC_KEY_LEN}
  {username : Str} {c : SysCmd} {d d' : Disk} {r : Answer c}

theorem inert_same (inert : Inert c) (step : Disk.any c d r d') : d' = d := by
  cases c with
  | «exists» => exact step.1
  | read => exact step.1
  | createNew => exact inert.elim
  | writeAll => exact inert.elim
  | removeFile => exact inert.elim
  | _ => exact step

theorem onTpm_send {c : ObjectCmd} : OnlyX OnTpm (send c) := onlyX_op trivial

theorem onTpm_attempt {c : ObjectCmd} : OnlyX OnTpm (attempt (ask c) : KeyM (Except TssError c.Out)) :=
  onlyX_attempt (onlyX_op trivial)

theorem persistentPresent_onTpm : OnlyX OnTpm (MasterKey.persistentPresent handle) := by
  apply onlyX_bind onlyX_ofResult
  intro h
  apply onlyX_bind onTpm_attempt
  rintro (e | _)
  · split
    · exact onlyX_pure
    · exact onlyX_pure
    · exact onlyX_throw
  · exact onlyX_pure

theorem createAndPersistRsaParent_onTpm : OnlyX OnTpm MasterKey.createAndPersistRsaParent :=
  onlyX_bind onTpm_send fun _ => onlyX_bind onlyX_ofResult fun _ => onlyX_bind onTpm_send fun _ =>
    onlyX_bind onTpm_attempt fun _ => onlyX_pure

theorem createAndPersistHmacKey_onTpm : OnlyX OnTpm (MasterKey.createAndPersistHmacKey hmacKey) :=
  onlyX_bind onlyX_ofResult fun _ =>
    onlyX_bind onTpm_send fun _ => onlyX_bind onTpm_send fun _ => onlyX_bind onTpm_send fun _ =>
    onlyX_bind onlyX_ofResult fun _ =>
      onlyX_bind onTpm_send fun _ => onlyX_bind onTpm_attempt fun _ => onlyX_pure

theorem provisionTpmObjects_onTpm : OnlyX OnTpm (MasterKey.provisionTpmObjects policy hmacKey) := by
  refine onlyX_bind onTpm_send fun _ =>
    onlyX_bind persistentPresent_onTpm fun rsa => onlyX_bind ?_ fun _ =>
    onlyX_bind persistentPresent_onTpm fun hmac => ?_
  · split
    · exact onlyX_pure
    · exact createAndPersistRsaParent_onTpm
  · split
    · exact onlyX_throw
    · exact createAndPersistHmacKey_onTpm

theorem evictPersistentIfPresent_onTpm : OnlyX OnTpm (MasterKey.evictPersistentIfPresent handle) := by
  refine onlyX_bind persistentPresent_onTpm fun present => ?_
  split
  · exact onlyX_bind onlyX_ofResult fun _ =>
      onlyX_bind onTpm_send fun _ => onlyX_bind onTpm_send fun _ => onlyX_pure
  · exact onlyX_pure

theorem clearFromTpm_onTpm : OnlyX OnTpm (MasterKey.clearFromTpm policy uid) :=
  onlyX_bind onlyX_ofResult fun _ => onlyX_bind onTpm_send fun _ =>
    onlyX_bind (onlyX_attempt evictPersistentIfPresent_onTpm) fun _ =>
      onlyX_bind (onlyX_attempt evictPersistentIfPresent_onTpm) fun _ => onlyX_pure

theorem deriveUserToken_onTpm : OnlyX OnTpm (MasterKey.deriveUserToken policy username) :=
  onlyX_bind onTpm_send fun _ =>
    onlyX_bind onlyX_ofResult fun _ => onlyX_bind onTpm_send fun _ => onlyX_bind onlyX_ofResult fun _ =>
    onlyX_bind onTpm_send fun _ =>
      onlyX_bind (onlyX_attempt onTpm_send) fun _ => onlyX_bind onTpm_send fun _ =>
      onlyX_bind onlyX_ofResult fun _ => onlyX_pure

end Kinds

/-! ## The sealed file -/

/-- A record of the key under the phrase, as `seal_key_bytes_to_path` writes it. -/
def Sealed (crypto : Crypto) (phrase : Str) (key json : Bytes) : Prop :=
  ∃ (salt nonce aesKey ciphertext : Bytes) (createdUnixMs : UInt64), nonce.length = 12 ∧
    crypto.hashPasswordInto (asBytes phrase) salt = .ok aesKey ∧
    crypto.encrypt aesKey nonce key = .ok ciphertext ∧
    crypto.toVec ⟨SEALED_FILE_VERSION, createdUnixMs, crypto.encode salt, crypto.encode nonce,
      crypto.encode ciphertext⟩ = .ok json

theorem Sealed.made {crypto : Crypto} {phrase : Str} {key aesKey ciphertext json : Bytes}
    {salt : Vector UInt8 16} {nonce : Vector UInt8 12} {createdUnixMs : UInt64}
    (hashed : MasterKey.deriveAesKeyFromPhrase crypto phrase salt.toList = .ok aesKey)
    (encrypted : crypto.encrypt aesKey nonce.toList key = .ok ciphertext)
    (written : crypto.toVec ⟨SEALED_FILE_VERSION, createdUnixMs, crypto.encode salt.toList,
      crypto.encode nonce.toList, crypto.encode ciphertext⟩ = .ok json) :
    Sealed crypto phrase key json := by
  refine ⟨salt.toList, nonce.toList, aesKey, ciphertext, createdUnixMs, by simp, ?_, encrypted,
    written⟩
  unfold MasterKey.deriveAesKeyFromPhrase at hashed
  cases result : crypto.hashPasswordInto (asBytes phrase) salt.toList with
  | error e =>
    rw [result] at hashed
    cases hashed
  | ok key =>
    rw [result] at hashed
    exact congrArg Except.ok (Except.ok.inj hashed)

/-- Of the calls that seal a key only a failed write may be watched for. -/
structure Unwatched (P : Event CallCmd Vault → Prop) (l : Call) : Prop where
  inert : ∀ v c r v', Inert c → ¬ P ⟨v, ⟨l, .inr c⟩, r, v'⟩
  create : ∀ v mode r v', ¬ P ⟨v, ⟨l, .inr (.createNew mode)⟩, r, v'⟩
  write : ∀ v data v', ¬ P ⟨v, ⟨l, .inr (.writeAll data)⟩, .ok (), v'⟩

section Sealing

variable {mac : Bytes → Bytes → Bytes} {G P : Event CallCmd Vault → Prop} {l : Call} {o : Objects}
  {d : Disk} {b : Prop} {ε α β : Type}

/-- A call without an effect, and then the rest. -/
theorem part_inert {c : SysCmd} {read : Answer c → Except ε α} {f : α → Fallible KeyCmd ε β}
    {Q : Except ε β → Vault × Prop → Prop} (inert : Inert c)
    (calm : ∀ r, ¬ P ⟨(o, d), ⟨l, .inr c⟩, r, (o, d)⟩)
    (next : ∀ r a, read r = .ok a → Part mac G P l (f a) Q (o, d) b)
    (fails : ∀ r e, read r = .error e → Q (.error e) ((o, d), b)) :
    Part mac G P l (op (Sum.inr c) read >>= f) Q (o, d) b := by
  refine seq (part_sys ?_)
  intro r d' b' step _ seen
  obtain rfl := inert_same inert step
  obtain rfl := unseen seen (calm r)
  cases answer : read r with
  | error e => exact fails r e answer
  | ok a => exact next r a answer

/-- And whatever it answers. -/
theorem part_ignored {c : SysCmd} {read : Answer c → Except ε α}
    {f : Except ε α → Fallible KeyCmd ε β} {Q : Except ε β → Vault × Prop → Prop} (inert : Inert c)
    (calm : ∀ r, ¬ P ⟨(o, d), ⟨l, .inr c⟩, r, (o, d)⟩)
    (next : ∀ r, Part mac G P l (f r) Q (o, d) b) :
    Part mac G P l ((attempt (op (Sum.inr c) read) : Fallible KeyCmd ε (Except ε α)) >>= f) Q
      (o, d) b := by
  refine seq_attempt (part_sys ?_)
  intro r d' b' step _ seen
  obtain rfl := inert_same inert step
  obtain rfl := unseen seen (calm r)
  exact next _

theorem part_ensureDir {tighten : Bool} {Q : PinResult Unit → Vault × Prop → Prop}
    (unwatched : Unwatched P l) (done : ∀ r, Q r ((o, d), b)) :
    Part mac G P l (MasterKey.ensureDirForPath tighten) Q (o, d) b := by
  have calm : ∀ c r, Inert c → ¬ P ⟨(o, d), ⟨l, .inr c⟩, r, (o, d)⟩ :=
    fun c r inert => unwatched.inert _ _ _ _ inert
  unfold MasterKey.ensureDirForPath
  refine part_inert trivial (fun r => calm _ r trivial) (fun r a _ => ?_) fun _ _ _ => done _
  cases tighten with
  | false => exact ⟨trivial, done _⟩
  | true =>
    refine part_ignored trivial (fun r => calm _ r trivial) fun r => ?_
    refine part_ignored trivial (fun r => calm _ r trivial) fun r => ?_
    exact ⟨trivial, done _⟩

/-- Sealing stops before there is a file, or in one of the two writes, or the record is
whole. -/
theorem part_seal {crypto : Crypto} {keyBytes : Vector UInt8 HMAC_KEY_LEN} {phrase : Str}
    {Q : PinResult Unit → Vault × Prop → Prop} (unwatched : Unwatched P l)
    (kept : ∀ e, Q (.error e) ((o, d), b))
    (torn : d.sealedFile = none → ∀ json part, Sealed crypto phrase keyBytes.toList json →
      part <+: json ++ [10] →
      part ≠ json ++ [10] → ∀ e before data (err : IoError) b', before.sealedFile.isSome →
        b' = (b ∨ P ⟨(o, before), ⟨l, .inr (.writeAll data)⟩, .error err, (o, ⟨some part⟩)⟩) →
        Q (.error e) ((o, ⟨some part⟩), b'))
    (done : d.sealedFile = none → ∀ json, Sealed crypto phrase keyBytes.toList json →
      Q (.ok ()) ((o, ⟨some (json ++ [10])⟩), b)) :
    Part mac G P l (MasterKey.sealKeyBytesToPath crypto keyBytes phrase) Q (o, d) b := by
  have calm : ∀ d c r, Inert c → ¬ P ⟨(o, d), ⟨l, .inr c⟩, r, (o, d)⟩ :=
    fun d c r inert => unwatched.inert _ _ _ _ inert
  unfold MasterKey.sealKeyBytesToPath
  refine seq (part_ensureDir unwatched ?_)
  rintro (e | _)
  · exact kept e
  refine part_inert trivial (fun r => calm _ _ r trivial) (fun _ salt _ => ?_) nofun
  refine part_inert trivial (fun r => calm _ _ r trivial) (fun _ nonce _ => ?_) nofun
  cases hashed : MasterKey.deriveAesKeyFromPhrase crypto phrase salt.toList with
  | error e => exact ⟨trivial, kept e⟩
  | ok aesKey =>
  rw [ofResult_ok_bind]
  cases encrypted : crypto.encrypt aesKey nonce.toList keyBytes.toList with
  | error e => exact ⟨trivial, kept _⟩
  | ok ciphertext =>
  refine part_inert trivial (fun r => calm _ _ r trivial) (fun _ createdUnixMs _ => ?_) nofun
  cases written : crypto.toVec ⟨SEALED_FILE_VERSION, createdUnixMs, crypto.encode salt.toList,
      crypto.encode nonce.toList, crypto.encode ciphertext⟩ with
  | error e => exact ⟨trivial, kept _⟩
  | ok json =>
  have sealed_ : Sealed crypto phrase keyBytes.toList json := .made hashed encrypted written
  rw [show (Except.mapError PinError.ioError (Except.ok json) : PinResult Bytes) = .ok json from rfl,
    ofResult_ok_bind]
  -- the file is made, and written twice
  refine seq (part_sys ?_)
  rintro (err | _) d' b' step _ seen
  · obtain rfl := unseen seen (unwatched.create _ _ _ _)
    obtain rfl : d' = d := step
    exact kept _
  obtain rfl := unseen seen (unwatched.create _ _ _ _)
  obtain ⟨absent, rfl⟩ : d.sealedFile = none ∧ d' = ⟨some []⟩ := step
  refine seq (part_sys ?_)
  rintro (err | _) d' b' step _ seen
  · obtain ⟨part, prefix_, strict, rfl⟩ :
      ∃ part, part <+: json ∧ part ≠ json ∧ d' = Disk.write ⟨some []⟩ part := step
    have shorter : part ≠ json ++ [10] := by
      rintro rfl
      have short := prefix_.length_le
      simp only [List.length_append, List.length_singleton] at short
      omega
    exact torn absent json part sealed_ (prefix_.trans (List.prefix_append _ _)) shorter _
      ⟨some []⟩ json err b' rfl seen
  obtain rfl := unseen seen (unwatched.write _ _ _)
  obtain rfl : d' = Disk.write ⟨some []⟩ json := step
  refine seq (part_sys ?_)
  rintro (err | _) d' b' step _ seen
  · obtain ⟨part, prefix_, strict, rfl⟩ :
      ∃ part, part <+: [10] ∧ part ≠ [10] ∧ d' = Disk.write (Disk.write ⟨some []⟩ json) part := step
    obtain rfl : part = [] := by
      cases part with
      | nil => rfl
      | cons x rest => exact absurd (prefix_.eq_of_length_le (by simp)) strict
    have unended : json ≠ json ++ [10] := by simp
    have same : Disk.write (Disk.write ⟨some []⟩ json) [] = ⟨some json⟩ := by simp [Disk.write]
    rw [same] at seen ⊢
    exact torn absent json json sealed_ (List.prefix_append _ _) unended _ ⟨some json⟩
      [10] err b' rfl seen
  obtain rfl := unseen seen (unwatched.write _ _ _)
  obtain rfl : d' = Disk.write (Disk.write ⟨some []⟩ json) [10] := step
  refine part_ignored trivial (fun r => calm _ _ r trivial) fun _ => ?_
  refine part_ignored trivial (fun r => calm _ _ r trivial) fun _ => ?_
  exact ⟨trivial, done absent json sealed_⟩

end Sealing

/-! ## The status -/

/-- The commands of a status query. -/
inductive Queries : ObjectCmd → Prop where
  | connect (tcti : Str) : Queries (.connect tcti)
  | probe (h : PersistentTpmHandle) : Queries (.trFromTpmPublic h)

/-- The answers of a status query that meets no failure are not watched for. -/
structure Calm (P : Event CallCmd Vault → Prop) (l : Call) (v : Vault) : Prop where
  asked : ∀ r, ¬ P ⟨v, ⟨l, .inr .exists⟩, r, v⟩
  connected : ∀ tcti, ¬ P ⟨v, ⟨l, .inl (.connect tcti)⟩, .ok (), v⟩
  present : ∀ h, ¬ P ⟨v, ⟨l, .inl (.trFromTpmPublic h)⟩, .ok (), v⟩
  absent : ∀ h, v.1.persistent h = none → ¬ P ⟨v, ⟨l, .inl (.trFromTpmPublic h)⟩, refuse .handle, v⟩

section Status

variable {mac : Bytes → Bytes → Bytes} {G P : Event CallCmd Vault → Prop} {l : Call} {o : Objects}
  {d : Disk} {b : Prop} {policy : PinPolicy} {crypto : Crypto} {uid : UInt32}

/-- A probe is right, or fails. -/
theorem part_probe {handle : UInt32} {h : PersistentTpmHandle}
    {Q : PinResult Bool → Vault × Prop → Prop} (known : MasterKey.persistentHandle handle = .ok h)
    (calm : Calm P l (o, d)) (done : Q (.ok (o.persistent h).isSome) ((o, d), b))
    (failed : ∀ (c : ObjectCmd) (f : Fault)
      (e : PinError) b', Queries c → G ⟨(o, d), ⟨l, .inl c⟩, .error f.error, (o, d)⟩ →
        b' = (b ∨ P ⟨(o, d), ⟨l, .inl c⟩, .error f.error, (o, d)⟩) → Q (.error e) ((o, d), b')) :
    Part mac G P l (MasterKey.persistentPresent handle) Q (o, d) b := by
  apply part_persistentPresent known
  · intro b' there _ seen
    obtain rfl := unseen seen (calm.present _)
    rwa [there] at done
  · intro b' gone _ seen
    obtain rfl := unseen seen (calm.absent _ gone)
    rwa [gone] at done
  · exact fun f b' given seen => failed _ f _ b' (.probe h) given seen

/-- A status query tells what is there, or fails. -/
theorem part_status {Q : PinResult MasterKeyStatus → Vault × Prop → Prop} (calm : Calm P l (o, d))
    (done : ∀ present : Bool, (present = true → d.sealedFile.isSome) →
      Q (.ok ⟨present, (o.persistent rsaHandle).isSome, (o.persistent hmacHandle).isSome,
        MASTER_KEY_SEALED_FILE, MASTER_KEY_RSA_PARENT_HANDLE, MASTER_KEY_HMAC_HANDLE⟩)
        ((o, d), b))
    (failed : ∀ (c : ObjectCmd) (f : Fault) (e : PinError) b', Queries c →
      G ⟨(o, d), ⟨l, .inl c⟩, .error f.error, (o, d)⟩ →
        b' = (b ∨ P ⟨(o, d), ⟨l, .inl c⟩, .error f.error, (o, d)⟩) → Q (.error e) ((o, d), b')) :
    Part mac G P l (MasterKey.status policy) Q (o, d) b := by
  unfold MasterKey.status MasterKey.tpmStatus
  refine seq (part_sys ?_)
  rintro present d' b' ⟨rfl, there⟩ _ seen
  obtain rfl := unseen seen (calm.asked _)
  refine seq (seq (part_object ?_ ?_))
  · simp only [Objects.exec]
    intro b' _ seen
    obtain rfl := unseen seen (calm.connected _)
    refine seq (part_probe persistentHandle_rsa calm ?_ failed)
    refine seq (part_probe persistentHandle_hmac calm ?_ failed)
    exact ⟨trivial, trivial, done present there⟩
  · exact fun f b' given seen => failed _ f _ b' (.connect _) given seen

end Status

/-! ## Provisioning -/

/-- The answers that end a provisioning early. -/
def stops : (c : ObjectCmd) → Except TssError c.Out → Bool
  | .trFromTpmPublic h, .ok _ => decide (h = hmacHandle)
  | .trFromTpmPublic _, .error (.tss2 (some .handle)) => false
  | .flushContext, _ => false
  | _, .error _ => true
  | _, .ok _ => false

def rsaParent : KeyObject := .primary MasterKey.rsaParentPublic

def hmacObject (key : Bytes) : KeyObject := .keyedHash MasterKey.hmacKeyPublic key

section Provision

variable {mac : Bytes → Bytes → Bytes} {G P : Event CallCmd Vault → Prop} {l : Call} {o : Objects}
  {d : Disk} {b : Prop} {policy : PinPolicy} {hmacKey : Vector UInt8 HMAC_KEY_LEN}
  {Q : PinResult Unit → Vault × Prop → Prop}

theorem part_createRsa (calm : ∀ v c r v', stops c r = false → ¬ P ⟨v, ⟨l, .inl c⟩, r, v'⟩)
    (free : o.persistent rsaHandle = none)
    (done : Q (.ok ()) ((o.set rsaHandle (some rsaParent), d), b))
    (failed : ∀ c r e b', stops c r = true → b' = (b ∨ P ⟨(o, d), ⟨l, .inl c⟩, r, (o, d)⟩) →
      Q (.error e) ((o, d), b')) :
    Part mac G P l MasterKey.createAndPersistRsaParent Q (o, d) b := by
  unfold MasterKey.createAndPersistRsaParent
  refine seq (part_object ?_ fun f b' _ seen => failed _ _ _ b' rfl seen)
  simp only [Objects.exec]
  intro b' _ seen
  obtain rfl := unseen seen (calm _ _ _ _ rfl)
  dsimp only [Except.mapError]
  rw [persistentHandle_rsa, ofResult_ok_bind]
  refine seq (part_object ?_ fun f b' _ seen => failed _ _ _ b' rfl seen)
  simp only [Objects.exec, Objects.evictControl, free, Option.isSome_none, Bool.false_eq_true, if_false]
  intro b' _ seen
  obtain rfl := unseen seen (calm _ _ _ _ rfl)
  refine seq_attempt (part_object ?_ ?_)
  · simp only [Objects.exec]
    intro b' _ seen
    obtain rfl := unseen seen (calm _ _ _ _ rfl)
    exact ⟨trivial, done⟩
  · intro f b' _ seen
    obtain rfl := unseen seen (calm _ _ _ _ rfl)
    exact ⟨trivial, done⟩

theorem part_createHmac (calm : ∀ v c r v', stops c r = false → ¬ P ⟨v, ⟨l, .inl c⟩, r, v'⟩)
    {parent : KeyObject} (there : o.persistent rsaHandle = some parent)
    (free : o.persistent hmacHandle = none)
    (done : Q (.ok ()) ((o.set hmacHandle (some (hmacObject hmacKey.toList)), d), b))
    (failed : ∀ c r e b', stops c r = true → b' = (b ∨ P ⟨(o, d), ⟨l, .inl c⟩, r, (o, d)⟩) →
      Q (.error e) ((o, d), b')) :
    Part mac G P l (MasterKey.createAndPersistHmacKey hmacKey) Q (o, d) b := by
  unfold MasterKey.createAndPersistHmacKey
  rw [persistentHandle_rsa, ofResult_ok_bind]
  refine seq (part_object ?_ fun f b' _ seen => failed _ _ _ b' rfl seen)
  simp only [Objects.exec, there, Option.isSome_some, if_true]
  intro b' _ seen
  obtain rfl := unseen seen (calm _ _ _ _ (by decide))
  refine seq (part_object ?_ fun f b' _ seen => failed _ _ _ b' rfl seen)
  simp only [Objects.exec, Objects.create, there]
  cases kind : parent.isParent with
  | false => exact fun b' _ seen => failed _ _ _ b' rfl seen
  | true =>
  intro b' _ seen
  obtain rfl := unseen seen (calm _ _ _ _ rfl)
  refine seq (part_object ?_ fun f b' _ seen => failed _ _ _ b' rfl seen)
  simp only [Objects.exec, Objects.load, there, if_true]
  intro b' _ seen
  obtain rfl := unseen seen (calm _ _ _ _ rfl)
  dsimp only [Except.mapError]
  rw [persistentHandle_hmac, ofResult_ok_bind]
  refine seq (part_object ?_ fun f b' _ seen => failed _ _ _ b' rfl seen)
  simp only [Objects.exec, Objects.evictControl, free, Option.isSome_none, Bool.false_eq_true, if_false]
  intro b' _ seen
  obtain rfl := unseen seen (calm _ _ _ _ rfl)
  refine seq_attempt (part_object ?_ ?_)
  · simp only [Objects.exec]
    intro b' _ seen
    obtain rfl := unseen seen (calm _ _ _ _ rfl)
    exact ⟨trivial, done⟩
  · intro f b' _ seen
    obtain rfl := unseen seen (calm _ _ _ _ rfl)
    exact ⟨trivial, done⟩

/-- A provisioning stops with the objects as they were, or with a new parent only, or the
key is made under a handle that was free. -/
theorem part_provision (calm : ∀ v c r v', stops c r = false → ¬ P ⟨v, ⟨l, .inl c⟩, r, v'⟩)
    (done : o.persistent hmacHandle = none → ∀ o', o'.persistent hmacHandle =
      some (hmacObject hmacKey.toList) →
      Q (.ok ()) ((o', d), b))
    (failed : ∀ o', o' = o ∨ o.persistent rsaHandle = none ∧ o' = o.set rsaHandle (some rsaParent) →
      ∀ c r e b',
      stops c r = true → b' = (b ∨ P ⟨(o', d), ⟨l, .inl c⟩, r, (o', d)⟩) → Q (.error e) ((o', d), b')) :
    Part mac G P l (MasterKey.provisionTpmObjects policy hmacKey) Q (o, d) b := by
  -- from the second probe on, with a parent
  have second : ∀ o', o' = o ∨ o.persistent rsaHandle = none ∧ o' = o.set rsaHandle (some rsaParent) →
      (o'.persistent rsaHandle).isSome → o'.persistent hmacHandle = o.persistent hmacHandle →
      Part mac G P l (do
        let hmac ← MasterKey.persistentPresent MASTER_KEY_HMAC_HANDLE
        if hmac then throw (.tpmError (.locale "mk_hmac_handle_already_exists"))
        else MasterKey.createAndPersistHmacKey hmacKey) Q (o', d) b := by
    intro o' old there same
    refine seq (part_persistentPresent persistentHandle_hmac ?_ ?_ ?_)
    · exact fun b' _ _ seen => ⟨trivial, failed o' old _ _ _ b' (by decide) seen⟩
    · intro b' free _ seen
      obtain rfl := unseen seen (calm _ _ _ _ rfl)
      obtain ⟨parent, there⟩ := Option.isSome_iff_exists.1 there
      exact part_createHmac calm there free (done (same ▸ free) _ (by simp)) (failed o' old)
    · exact fun f b' _ seen => failed o' old _ _ _ b' rfl seen
  unfold MasterKey.provisionTpmObjects
  refine seq (part_object ?_ fun f b' _ seen => failed o (.inl rfl) _ _ _ b' rfl seen)
  simp only [Objects.exec]
  intro b' _ seen
  obtain rfl := unseen seen (calm _ _ _ _ rfl)
  refine seq (part_persistentPresent persistentHandle_rsa ?_ ?_ ?_)
  · intro b' there _ seen
    obtain rfl := unseen seen (calm _ _ _ _ (by decide))
    exact second o (.inl rfl) there rfl
  · intro b' free _ seen
    obtain rfl := unseen seen (calm _ _ _ _ rfl)
    refine seq (part_createRsa calm free ?_ (failed o (.inl rfl)))
    exact second _ (.inr ⟨free, rfl⟩) (by simp) (by simp)
  · exact fun f b' _ seen => failed o (.inl rfl) _ _ _ b' rfl seen

end Provision

/-! ## The two calls that make a key -/

/-- Nothing that a call asks for itself is watched for. -/
structure OwnUnwatched (P : Event CallCmd Vault → Prop) : Prop where
  tpm : ∀ v c r v', ¬ P ⟨v, ⟨.own, .inl c⟩, r, v'⟩
  sys : Unwatched P .own

section Made

variable {mac : Bytes → Bytes → Bytes} {G P : Event CallCmd Vault → Prop} {o : Objects} {d : Disk}
  {b : Prop} {policy : PinPolicy} {crypto : Crypto} {uid : UInt32}

theorem OwnUnwatched.calm {v : Vault} (own : OwnUnwatched P) : Calm P .own v where
  asked := fun _ => own.sys.inert _ _ _ _ trivial
  connected := fun _ => own.tpm _ _ _ _
  present := fun _ => own.tpm _ _ _ _
  absent := fun _ _ => own.tpm _ _ _ _

/-- `init`, from the provisioning on. -/
theorem whole_init {Q : PinResult MasterKeyInitResult → Vault × Prop → Prop} (own : Unwatched P .own)
    (refused : ∀ e, Q (.error e) ((o, d), b))
    (made : uid = 0 → G ⟨(o, d), ⟨.own, .inr .exists⟩, false, (o, d)⟩ → ∀ hmacKey phrase,
      Part mac G P .provision (MasterKey.provisionTpmObjects policy hmacKey) (fun r y => match r with
        | .error e => Q (.error e) y
        | .ok _ =>
          Part mac G P .seal (MasterKey.sealKeyBytesToPath crypto hmacKey phrase) (fun r y => match r with
            | .error e => Part mac G P .rollback (MasterKey.clearFromTpm policy uid)
              (fun _ y => Q (.error e) y) y.1 y.2
            | .ok _ => Part mac G P .status (MasterKey.status policy)
              (fun r y => Q (r.map fun st => ⟨phrase, st⟩) y) y.1 y.2) y.1 y.2) (o, d) b) :
    Whole mac G P (MasterKey.program policy crypto uid .init) Q (o, d) b := by
  show Whole mac G P (MasterKey.init policy crypto uid) Q (o, d) b
  unfold MasterKey.init MasterKey.ensureRootRealUid
  by_cases root : uid = 0
  · rw [if_neg (not_not.2 root), ofResult_ok_bind]
    refine whole_seq (whole_part (part_sys ?_))
    rintro (_ | _) d' b' ⟨same, there⟩ given seen
    all_goals obtain rfl : d = d' := same.symm
    · obtain rfl := unseen seen (own.inert _ _ _ _ trivial)
      refine whole_seq (whole_part (part_sys ?_))
      intro hmacKey d' b' step _ seen
      obtain rfl : d = d' := Eq.symm step
      obtain rfl := unseen seen (own.inert _ _ _ _ trivial)
      refine whole_seq (whole_part (part_sys ?_))
      rintro (text | phrase) d' b' step _ seen
      · obtain rfl : d = d' := Eq.symm step
        obtain rfl := unseen seen (own.inert _ _ _ _ trivial)
        exact refused _
      obtain rfl : d = d' := Eq.symm step
      obtain rfl := unseen seen (own.inert _ _ _ _ trivial)
      refine whole_seq (whole_part (wpx_mono (made root given hmacKey phrase) ?_))
      rintro (e | _) ⟨⟨o, d⟩, b⟩ - sealing
      · exact sealing
      refine whole_attempt (whole_part (part_ensureDir own fun _ => ?_))
      refine whole_attempt (whole_part (wpx_mono sealing ?_))
      rintro (e | _) y - ended
      · refine whole_attempt (whole_part (wpx_mono ended ?_))
        exact fun r y _ post => ⟨trivial, post⟩
      · refine whole_seq (whole_part (wpx_mono ended ?_))
        rintro (e | st) y - post
        · exact post
        · exact ⟨trivial, post⟩
    · obtain rfl := unseen seen (own.inert _ _ _ _ trivial)
      exact ⟨trivial, refused _⟩
  · rw [if_pos root]
    exact ⟨trivial, refused _⟩

/-- `import_to_tpm`, from the provisioning on. -/
theorem whole_import {phrase : Str} {Q : PinResult MasterKeyStatus → Vault × Prop → Prop}
    (own : OwnUnwatched P) (refused : ∀ e, Q (.error e) ((o, d), b))
    (made : o.persistent rsaHandle = none → o.persistent hmacHandle = none →
      ∀ data (hmacKey : Vector UInt8 HMAC_KEY_LEN), d.sealedFile = some data →
        MasterKey.unsealBytes crypto phrase data = .ok hmacKey.toList →
          Part mac G P .provision (MasterKey.provisionTpmObjects policy hmacKey) (fun r y => match r with
            | .error e => Q (.error e) y
            | .ok _ => Part mac G P .status (MasterKey.status policy) Q y.1 y.2) (o, d) b) :
    Whole mac G P (MasterKey.program policy crypto uid (.importToTpm phrase)) Q (o, d) b := by
  show Whole mac G P (MasterKey.importToTpm policy crypto uid phrase) Q (o, d) b
  unfold MasterKey.importToTpm MasterKey.ensureRootRealUid
  by_cases root : uid = 0
  · rw [if_neg (not_not.2 root), ofResult_ok_bind]
    refine whole_seq (whole_part (part_status own.calm ?_ ?_))
    · intro present there
      dsimp only
      cases rsa : o.persistent rsaHandle with
      | some x => exact ⟨trivial, refused _⟩
      | none =>
      cases hmac : o.persistent hmacHandle with
      | some x => exact ⟨trivial, refused _⟩
      | none =>
      cases present with
      | false => exact ⟨trivial, refused _⟩
      | true =>
      refine whole_seq (whole_part (seq (part_sys ?_)))
      rintro (err | data) d' b' ⟨same, read⟩ _ seen
      all_goals obtain rfl : d = d' := same.symm
      all_goals obtain rfl := unseen seen (own.sys.inert _ _ _ _ trivial)
      · exact refused _
      have stored := read data rfl
      cases opened : MasterKey.unsealBytes crypto phrase data with
      | error e =>
        dsimp only [id, Except.mapError]
        rw [opened]
        exact ⟨trivial, refused e⟩
      | ok keyBytes =>
      dsimp only [id, Except.mapError]
      rw [opened]
      refine ⟨trivial, ?_⟩
      by_cases len : keyBytes.length = HMAC_KEY_LEN
      · dsimp only
        rw [dif_pos len]
        have hmacKey := made rsa hmac data ⟨keyBytes.toArray, len⟩ stored opened
        refine whole_seq (whole_part (wpx_mono hmacKey ?_))
        rintro (e | _) y - post
        · exact post
        · exact whole_part post
      · dsimp only
        rw [dif_neg len]
        exact ⟨trivial, refused _⟩
    · intro c f e b' _ _ seen
      obtain rfl := unseen seen (own.tpm _ _ _ _)
      exact refused e
  · rw [if_pos root]
    exact ⟨trivial, refused _⟩

end Made

end Pinpam
