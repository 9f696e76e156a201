import Pinpam.Effect.Holder
import Pinpam.Effect.Schedule
import Pinpam.MasterKey.Recovery

/-!
# Concurrent inits

Any number of processes make a master key at once, and any call of any of them may fail.
The one whose eviction puts its key at the handle holds the handle and the sealed file
until it takes the key back, so at most one of them returns `Ok`, and what it leaves is
what it would have left alone.
-/

namespace Pinpam
set_option autoImplicit false
open Pinpam.Effect Pinpam.Effect.Fallible

/-- The handle of the HMAC key and the sealed file: whoever fills the handle owns both. -/
def keyPlace : Resource Vault (Option KeyObject × Option Bytes) where
  part v := (v.1.persistent hmacHandle, v.2.sealedFile)
  taken place := place.1.isSome

@[simp] theorem keyPlace_part {v : Vault} :
    keyPlace.part v = (v.1.persistent hmacHandle, v.2.sealedFile) := rfl

@[simp] theorem keyPlace_taken {place : Option KeyObject × Option Bytes} :
    keyPlace.taken place = place.1.isSome := rfl

/-- Whatever else changes, the key and the file do not. -/
def Sparing : KeyCmd → Prop
  | .inl (.evictControl _ h) => h ≠ hmacHandle
  | .inl _ => True
  | .inr c => Inert c

section Parts

variable {mac : Bytes → Bytes → Bytes} {policy : PinPolicy} {crypto : Crypto} {uid : UInt32}
  {hmacKey : Vector UInt8 HMAC_KEY_LEN} {i : Nat} {z : Held keyPlace × Held keyPlace}
  {ε α : Type}

theorem exec_hmac_same {c : ObjectCmd} {o : Objects} (sparing : Sparing (.inl c)) :
    (Objects.exec mac c o).2.persistent hmacHandle = o.persistent hmacHandle := by
  cases c with
  | evictControl object h =>
    have ne : hmacHandle ≠ h := fun same => sparing same.symm
    cases object with
    | transient x =>
      simp only [Objects.exec, Objects.evictControl]
      split
      · rfl
      · simp only [Objects.persistent_set, if_neg ne]
    | persistent j =>
      simp only [Objects.exec, Objects.evictControl]
      split
      · simp only [Objects.persistent_set, if_neg ne]
      · rfl
  | _ => rfl

theorem sparing_mild {c : KeyCmd} (sparing : Sparing c) : Mild (Vault.any mac) keyPlace c := by
  rintro ⟨o, d⟩ r ⟨o', d'⟩ act
  cases c with
  | inl c =>
    obtain ⟨step, same⟩ := act
    obtain rfl : d' = d := same
    cases step with
    | done => exact Prod.ext (exec_hmac_same sparing) rfl
    | failed => rfl
  | inr c =>
    obtain ⟨step, same⟩ := act
    obtain rfl : o' = o := same
    exact Prod.ext rfl (congrArg Disk.sealedFile (inert_same sparing step))

theorem onlyX_mild {p : Fallible KeyCmd ε α} (only : OnlyX Sparing p) :
    OnlyX (Mild (Vault.any mac) keyPlace) p :=
  Prog.only_mono only fun _ => sparing_mild

/-! ## Parts that spare the place -/

theorem sparing_persistentPresent {handle : UInt32} :
    OnlyX Sparing (MasterKey.persistentPresent handle) := by
  apply onlyX_bind onlyX_ofResult
  intro h
  apply onlyX_bind (onlyX_attempt (onlyX_op trivial))
  rintro (e | _)
  · split
    · exact onlyX_pure
    · exact onlyX_pure
    · exact onlyX_throw
  · exact onlyX_pure

theorem sparing_evict {object : ObjectHandle} :
    Sparing (.inl (.evictControl object rsaHandle)) := rsa_ne_hmac

theorem sparing_flush :
    OnlyX Sparing (attempt (ask .flushContext) : KeyM (Except TssError Unit)) :=
  onlyX_attempt (onlyX_op trivial)

theorem sparing_createRsa : OnlyX Sparing MasterKey.createAndPersistRsaParent := by
  unfold MasterKey.createAndPersistRsaParent
  apply onlyX_bind (onlyX_op trivial)
  intro primary
  rw [persistentHandle_rsa, ofResult_ok_bind]
  apply onlyX_bind (onlyX_op sparing_evict)
  intro evicted
  exact onlyX_bind sparing_flush fun _ => onlyX_pure

theorem sparing_evictRsa :
    OnlyX Sparing (MasterKey.evictPersistentIfPresent MASTER_KEY_RSA_PARENT_HANDLE) := by
  apply onlyX_bind sparing_persistentPresent
  intro present
  split
  · rw [persistentHandle_rsa, ofResult_ok_bind]
    apply onlyX_bind (onlyX_op trivial)
    intro loaded
    exact onlyX_bind (onlyX_op sparing_evict) fun _ => onlyX_pure
  · exact onlyX_pure

theorem sparing_ensureDir {tighten : Bool} :
    OnlyX Sparing (MasterKey.ensureDirForPath tighten) := by
  apply onlyX_bind (onlyX_op trivial)
  intro made
  split
  · apply onlyX_bind (onlyX_attempt (onlyX_op trivial))
    intro set
    exact onlyX_bind (onlyX_attempt (onlyX_op trivial)) fun _ => onlyX_pure
  · exact onlyX_pure

theorem sparing_status : OnlyX Sparing (MasterKey.status policy) := by
  apply onlyX_bind (onlyX_op trivial)
  intro present
  apply onlyX_bind
  · apply onlyX_bind (onlyX_op trivial)
    intro connected
    apply onlyX_bind sparing_persistentPresent
    intro rsa
    exact onlyX_bind sparing_persistentPresent fun _ => onlyX_pure
  · exact fun _ => onlyX_pure

/-! ## Taking the handle -/

/-- The key is put at a free handle, or nothing changes. -/
theorem evict_takes {x : KeyObject} {v v' : Vault} {r : Answer (Sum.inl
      (.evictControl (.transient x) hmacHandle) : KeyCmd)}
    (act : Vault.any mac (.inl (.evictControl (.transient x) hmacHandle)) v r v') :
    (keyPlace.part v' = keyPlace.part v ∧ ∃ e, r = .error e) ∨
      (v.1.persistent hmacHandle = none ∧ r = .ok (some hmacHandle) ∧
        keyPlace.part v' = (some x, v.2.sealedFile)) := by
  obtain ⟨o, d⟩ := v
  obtain ⟨o', d'⟩ := v'
  obtain ⟨step, same⟩ := act
  obtain rfl : d' = d := same
  dsimp only at step
  cases step with
  | failed _ _ f => exact .inl ⟨rfl, _, rfl⟩
  | done =>
    cases held : o.persistent hmacHandle with
    | some y =>
      left
      have refused : Objects.exec mac (.evictControl (.transient x) hmacHandle) o =
          (refuse .nvDefined, o) := by
        simp [Objects.exec, Objects.evictControl, held]
      rw [refused]
      exact ⟨rfl, _, rfl⟩
    | none =>
      right
      have put : Objects.exec mac (.evictControl (.transient x) hmacHandle) o =
          (.ok (some hmacHandle), o.set hmacHandle (some x)) := by
        simp [Objects.exec, Objects.evictControl, held]
      have there : (o.set hmacHandle (some x)).persistent hmacHandle = some x := by simp
      rw [put]
      exact ⟨rfl, rfl, Prod.ext there rfl⟩

/-- What a command of the TPM may answer. -/
theorem object_answer {c : ObjectCmd} {v v' : Vault} {r : Except TssError c.Out} {out : c.Out}
    (act : Vault.any mac (.inl c) v r v') (ok : r = .ok out) :
    (Objects.exec mac c v.1).1 = .ok out := by
  obtain ⟨o, d⟩ := v
  obtain ⟨o', d'⟩ := v'
  have step := act.1
  dsimp only at step
  cases step with
  | done => exact ok
  | failed => cases ok

theorem create_answer {parent : PersistentTpmHandle} {pub : Public} {sensitive : Bytes}
    {v v' : Vault} {r : Except TssError Created} {created : Created}
    (act : Vault.any mac (.inl (.create parent pub sensitive)) v r v') (ok : r = .ok created) :
    created.pub = pub ∧ created.sensitive = sensitive := by
  have made := object_answer act ok
  simp only [Objects.exec, Objects.create] at made
  split at made
  · cases made
  · split at made
    · split at made
      · cases made
      · cases made
        exact ⟨rfl, rfl⟩
    · cases made

theorem load_answer {parent : PersistentTpmHandle} {created : Created} {v v' : Vault}
    {r : Except TssError KeyObject} {object : KeyObject}
    (act : Vault.any mac (.inl (.load parent created)) v r v') (ok : r = .ok object) :
    object = .keyedHash created.pub created.sensitive := by
  have loaded := object_answer act ok
  simp only [Objects.exec, Objects.load] at loaded
  split at loaded
  · cases loaded
  · split at loaded
    · cases loaded
      rfl
    · cases loaded

/-- A process that puts its key at the handle holds the place, and one that does not does
not. -/
theorem rival_createHmac (guards : Guards i z) (without : Without i z.2) :
    Rival (Vault.any mac) keyPlace i (MasterKey.createAndPersistHmacKey hmacKey) (fun r z =>
      match r with
      | .ok _ => ∃ file, Owns i (some (hmacObject hmacKey.toList), file) z.2
      | .error _ => Without i z.2) z := by
  unfold MasterKey.createAndPersistHmacKey
  rw [persistentHandle_rsa, ofResult_ok_bind]
  refine rival_mild_bind (onlyX_mild (onlyX_op trivial)) without_settled guards without ?_
    fun _ _ => id
  intro _ z guards without
  -- whatever the others make of the parent, what is loaded is what was asked for
  refine wpx_bind.2 (rival_answer (sparing_mild trivial) without_settled guards without ?_)
  rintro s (e | created) s' z act guards without
  · exact ⟨guards, without⟩
  obtain ⟨pub, sensitive⟩ := create_answer act rfl
  refine wpx_bind.2 (rival_answer (sparing_mild trivial) without_settled guards without ?_)
  rintro s (e | object) s' z act guards without
  · exact ⟨guards, without⟩
  obtain rfl : object = hmacObject hmacKey.toList := by
    rw [load_answer act rfl, pub, sensitive]
    rfl
  dsimp only [Except.mapError]
  rw [persistentHandle_hmac, ofResult_ok_bind]
  refine wpx_bind.2 (rival_take guards without ?_)
  intro s r s' act
  rcases evict_takes act with ⟨same, e, rfl⟩ | ⟨free, rfl, put⟩
  · exact .inl ⟨same, fun z guards without => ⟨guards, without⟩⟩
  refine .inr ⟨by simp [free], by rw [put]; rfl, fun z guards owns => ?_⟩
  rw [put] at owns
  refine rival_mild_attempt (onlyX_mild (onlyX_op trivial)) owns_settled guards owns ?_
  exact fun _ z guards owns => ⟨guards, _, owns⟩

theorem rival_provision (guards : Guards i z) (without : Without i z.2) :
    Rival (Vault.any mac) keyPlace i (MasterKey.provisionTpmObjects policy hmacKey) (fun r z =>
      match r with
      | .ok _ => ∃ file, Owns i (some (hmacObject hmacKey.toList), file) z.2
      | .error _ => Without i z.2) z := by
  have fails : ∀ (e : PinError) (z : Held keyPlace × Held keyPlace), Without i z.2 →
      Without i z.2 := fun _ _ => id
  unfold MasterKey.provisionTpmObjects
  refine rival_mild_bind (onlyX_mild (onlyX_op trivial)) without_settled guards without ?_ fails
  intro _ z guards without
  refine rival_mild_bind (onlyX_mild sparing_persistentPresent) without_settled guards without ?_
    fails
  intro rsa z guards without
  refine rival_mild_bind (onlyX_mild ?_) without_settled guards without ?_ fails
  · split
    · exact onlyX_pure
    · exact sparing_createRsa
  intro _ z guards without
  refine rival_mild_bind (onlyX_mild sparing_persistentPresent) without_settled guards without ?_
    fails
  intro hmac z guards without
  split
  · exact ⟨guards, without⟩
  · exact rival_createHmac guards without

/-! ## The holder -/

theorem owns_taken {key : Option KeyObject} {file : Option Bytes} {x : Held keyPlace}
    (owns : Owns i (key, file) x) : key.isSome = true := by
  have taken := x.fair (by rw [owns.1]; exact nofun)
  rwa [owns.2] at taken

/-- A call of the process that owns the place. -/
theorem rival_disk {key : Option KeyObject} {file : Option Bytes} {c : SysCmd}
    {read : Answer c → Except ε α} {Q : Except ε α → Held keyPlace × Held keyPlace → Prop}
    (guards : Guards i z) (owns : Owns i (key, file) z.2)
    (done : ∀ d r d' z, d.sealedFile = file → Disk.any c d r d' → Guards i z →
      Owns i (key, d'.sealedFile) z.2 → Q (read r) z) :
    Rival (Vault.any mac) keyPlace i (op (Sum.inr c) read) Q z := by
  refine rival_holder guards owns ?_
  rintro ⟨o, d⟩ r ⟨o', d'⟩ z same ⟨step, kept⟩ guards state holder
  obtain rfl : o' = o := kept
  obtain ⟨there, here⟩ := Prod.mk.inj same
  rw [keyPlace_taken, keyPlace_part, there, owns_taken owns, if_pos rfl] at holder
  refine done d r d' z here step guards ⟨holder, ?_⟩
  rw [state, keyPlace_part, there]

/-- The owner of the place seals its key: then the file is whole, or it still owns the
place. -/
theorem rival_seal {key : Option KeyObject} {file : Option Bytes} {phrase : Str}
    (guards : Guards i z) (owns : Owns i (key, file) z.2) :
    Rival (Vault.any mac) keyPlace i (MasterKey.sealKeyBytesToPath crypto hmacKey phrase) (fun r z =>
      match r with
      | .ok _ => ∃ json, Sealed crypto phrase hmacKey.toList json ∧
        Owns i (key, some (json ++ [10])) z.2
      | .error _ => ∃ file, Owns i (key, file) z.2) z := by
  have fails : ∀ (e : PinError) (z : Held keyPlace × Held keyPlace), Owns i (key, file) z.2 →
      ∃ file, Owns i (key, file) z.2 := fun _ _ owns => ⟨_, owns⟩
  unfold MasterKey.sealKeyBytesToPath
  refine rival_mild_bind (onlyX_mild sparing_ensureDir) owns_settled guards owns ?_ fails
  intro _ z guards owns
  refine rival_mild_bind (onlyX_mild (onlyX_op trivial)) owns_settled guards owns ?_ fails
  intro salt z guards owns
  refine rival_mild_bind (onlyX_mild (onlyX_op trivial)) owns_settled guards owns ?_ fails
  intro nonce z guards owns
  cases hashed : MasterKey.deriveAesKeyFromPhrase crypto phrase salt.toList with
  | error e => exact ⟨guards, _, owns⟩
  | ok aesKey =>
  rw [ofResult_ok_bind]
  cases encrypted : crypto.encrypt aesKey nonce.toList hmacKey.toList with
  | error e => exact ⟨guards, _, owns⟩
  | ok ciphertext =>
  dsimp only [Except.mapError]
  rw [ofResult_ok_bind]
  refine rival_mild_bind (onlyX_mild (onlyX_op trivial)) owns_settled guards owns ?_ fails
  intro createdUnixMs z guards owns
  cases written : crypto.toVec ⟨SEALED_FILE_VERSION, createdUnixMs, crypto.encode salt.toList,
      crypto.encode nonce.toList, crypto.encode ciphertext⟩ with
  | error e => exact ⟨guards, _, owns⟩
  | ok json =>
  have sealed_ : Sealed crypto phrase hmacKey.toList json := .made hashed encrypted written
  rw [ofResult_ok_bind]
  -- the file is made, and written twice
  refine wpx_bind.2 (rival_disk guards owns ?_)
  rintro d (e | _) d' z - step guards owns
  · exact ⟨guards, _, owns⟩
  obtain ⟨-, rfl⟩ : d.sealedFile = none ∧ d' = ⟨some []⟩ := step
  refine wpx_bind.2 (rival_disk guards owns ?_)
  rintro ⟨file⟩ (e | _) d' z rfl step guards owns
  · exact ⟨guards, _, owns⟩
  obtain rfl : d' = Disk.write ⟨some []⟩ json := step
  refine wpx_bind.2 (rival_disk guards owns ?_)
  rintro ⟨file⟩ (e | _) d' z rfl step guards owns
  · exact ⟨guards, _, owns⟩
  obtain rfl : d' = Disk.write (Disk.write ⟨some []⟩ json) [10] := step
  refine rival_mild_attempt (onlyX_mild (onlyX_op trivial)) owns_settled guards owns ?_
  intro _ z guards owns
  refine rival_mild_attempt (onlyX_mild (onlyX_op trivial)) owns_settled guards owns ?_
  exact fun _ z guards owns => ⟨guards, json, sealed_, owns⟩

/-- The rollback takes the owner's key back, or fails to. -/
theorem rival_clearFromTpm {place : Option KeyObject × Option Bytes} (guards : Guards i z)
    (owns : Owns i place z.2) :
    Rival (Vault.any mac) keyPlace i (MasterKey.clearFromTpm policy uid) (fun _ _ => True) z := by
  unfold MasterKey.clearFromTpm MasterKey.ensureRootRealUid
  by_cases root : uid = 0
  · rw [if_neg (not_not.2 root), ofResult_ok_bind]
    refine rival_mild_bind (onlyX_mild (onlyX_op trivial)) owns_settled guards owns ?_
      fun _ _ _ => trivial
    intro _ z guards owns
    have second : ∀ z, Guards i z →
        Rival (Vault.any mac) keyPlace i (do
          let _ ← (attempt (MasterKey.evictPersistentIfPresent MASTER_KEY_RSA_PARENT_HANDLE) : KeyM
            (PinResult Unit))
          pure ()) (fun _ _ => True) z := by
      intro z guards
      refine rival_mild_attempt (onlyX_mild sparing_evictRsa) any_settled guards trivial ?_
      exact fun _ z guards _ => ⟨guards, trivial⟩
    refine wpx_bind.2 (wpx_attempt.2 ?_)
    unfold MasterKey.evictPersistentIfPresent
    refine wpx_bind.2 (wpx_mono (rival_mild (onlyX_mild sparing_persistentPresent) owns_settled
      guards owns) ?_)
    rintro (e | present) z guards owns
    · exact ⟨guards, second z guards⟩
    dsimp only
    split
    · rw [persistentHandle_hmac, ofResult_ok_bind]
      refine wpx_bind.2 (wpx_mono (rival_mild (onlyX_mild (onlyX_op trivial)) owns_settled guards
        owns) ?_)
      rintro (e | _) z guards owns
      · exact ⟨guards, second z guards⟩
      refine wpx_bind.2 (rival_holder guards owns ?_)
      rintro s (e | evicted) s' z - - guards - -
      · exact ⟨guards, second z guards⟩
      · exact ⟨guards, second z guards⟩
    · exact ⟨guards, second z guards⟩
  · rw [if_pos root]
    exact ⟨guards, trivial⟩

/-! ## The whole -/

/-- What a process that returned `Ok` has: the place, with the key sealed under its phrase. -/
def Prevails (crypto : Crypto) (i : Nat) (made : MasterKeyInitResult) (x : Held keyPlace) : Prop :=
  ∃ key json, Sealed crypto made.recoveryPhrase key json ∧
    Owns i (some (hmacObject key), some (json ++ [10])) x

theorem rival_init (guards : Guards i z) (without : Without i z.2) :
    Rival (Vault.any mac).labelled keyPlace i (MasterKey.init policy crypto uid)
      (fun r z => ∀ made, r = .ok made → Prevails crypto i made z.2) z := by
  unfold MasterKey.init MasterKey.ensureRootRealUid
  by_cases root : uid = 0
  · rw [if_neg (not_not.2 root), ofResult_ok_bind]
    refine rival_label (rival_mild (onlyX_mild (onlyX_op trivial)) without_settled guards without)
      ?_ fun _ _ _ => nofun
    intro sealedFilePresent z guards without
    split
    · exact ⟨guards, nofun⟩
    refine rival_label (rival_mild (onlyX_mild (onlyX_op trivial)) without_settled guards without)
      ?_ fun _ _ _ => nofun
    intro hmacKey z guards without
    refine rival_label (rival_mild (onlyX_mild (onlyX_op trivial)) without_settled guards without)
      ?_ fun _ _ _ => nofun
    intro recoveryPhrase z guards without
    refine rival_label (rival_provision guards without) ?_ fun _ _ _ => nofun
    rintro _ z guards ⟨file, owns⟩
    refine rival_label_attempt (rival_mild (onlyX_mild sparing_ensureDir) owns_settled guards
      owns) ?_
    intro _ z guards owns
    refine rival_label_attempt (rival_seal guards owns) ?_
    rintro (e | _) z guards sealed_
    · obtain ⟨file, owns⟩ := sealed_
      refine rival_label_attempt (rival_clearFromTpm guards owns) ?_
      exact fun _ z guards _ => ⟨guards, nofun⟩
    · obtain ⟨json, sealed_, owns⟩ := sealed_
      refine rival_label (rival_mild (onlyX_mild sparing_status) owns_settled guards owns) ?_
        fun _ _ _ => nofun
      rintro status z guards owns
      refine ⟨guards, ?_⟩
      rintro made ⟨⟩
      exact ⟨_, json, sealed_, owns⟩
  · rw [if_pos root]
    exact ⟨guards, nofun⟩

end Parts

/-- The processes, each with its policy and user. -/
def inits (crypto : Crypto) (procs : List (PinPolicy × UInt32)) :
    List (Prog CallCmd (PinResult MasterKeyInitResult)) :=
  procs.map fun x => (MasterKey.program x.1 crypto x.2 .init).run

section Winner

variable {mac : Bytes → Bytes → Bytes} {crypto : Crypto} {procs : List (PinPolicy × UInt32)}
  {v v' : Vault} {events : List (Nat × Event CallCmd Vault)}
  {pool : List (Prog CallCmd (PinResult MasterKeyInitResult))} {i j : Nat}
  {made made' : MasterKeyInitResult}

/-- All that have returned `Ok` own the place at once. -/
theorem inits_won
    (run : Pool.Steps (Vault.any mac).labelled (inits crypto procs) v events pool v') :
    ∃ x : Held keyPlace, x.state = v' ∧
      ∀ i made, pool[i]? = some (.ret (.ok made)) → Prevails crypto i made x := by
  have begins : ∀ i p, (inits crypto procs)[i]? = some p →
      (rival (Vault.any mac).labelled keyPlace i fun r x => ∀ made, r = .ok made →
        Prevails crypto i made x).Keeps p ⟨v, none, nofun⟩ := by
    intro i p at_
    obtain ⟨proc, -, rfl⟩ :
        ∃ proc, procs[i]? = some proc ∧ (MasterKey.program proc.1 crypto proc.2 .init).run = p := by
      simpa [inits] using at_
    refine ⟨(⟨v, none, nofun⟩, ⟨v, none, nofun⟩), ?_, .refl⟩
    refine wpx_mono (rival_init guards_self nofun) fun r z _ won y kept made ok => ?_
    obtain ⟨key, json, sealed_, owns⟩ := won made ok
    exact ⟨key, json, sealed_, owns_settled.relied _ _ owns kept⟩
  obtain ⟨x, shown, kept⟩ := Pool.Steps.rivals (x := ⟨v, none, nofun⟩) run begins
  exact ⟨x, shown, fun i made returned => (kept i _ returned).ret made rfl⟩

/-- However the calls of the inits fall between each other, and whichever of them fail, at
most one process has returned `Ok`, and its phrase opens the sealed file to the key that
the TPM holds. -/
theorem at_most_one_init (lawful : crypto.Lawful)
    (run : Pool.Steps (Vault.any mac).labelled (inits crypto procs) v events pool v')
    (returned : pool[i]? = some (.ret (.ok made))) :
    (∃ key data, v'.1.persistent hmacHandle = some (hmacObject key) ∧ v'.2.sealedFile = some data ∧
      MasterKey.unsealBytes crypto made.recoveryPhrase data = .ok key) ∧
    ∀ j made', pool[j]? = some (.ret (.ok made')) → j = i := by
  obtain ⟨x, rfl, won⟩ := inits_won run
  obtain ⟨key, json, sealed_, holder, place⟩ := won i made returned
  obtain ⟨held, file⟩ := Prod.mk.inj place
  constructor
  · exact ⟨key, _, held, file, (unsealBytes_whole lawful sealed_ (.inr rfl)).1⟩
  · intro j made' returned'
    obtain ⟨-, -, -, holder', -⟩ := won j made' returned'
    exact Option.some.inj (holder'.symm.trans holder)

end Winner

/-! ## Samples -/

instance : Failing CallCmd Fault where
  failAnswer fault c := failAnswer fault c.op

/-- Two inits in turn on a machine without a key. -/
def twoInits : List (Prog CallCmd (PinResult MasterKeyInitResult)) × Vault :=
  Pool.play (Handler.labelled (Vault.exec sampleMac)) (Pool.inTurn ((List.range 80).map (· % 2)))
    (inits sampleCrypto [(.default, 0), (.default, 0)]) emptyVault

def succeeded (pool : List (Prog CallCmd (PinResult MasterKeyInitResult))) (i : Nat) : Bool :=
  match pool[i]? with
  | some (.ret (.ok _)) => true
  | _ => false

theorem succeeded_made {pool : List (Prog CallCmd (PinResult MasterKeyInitResult))} {i : Nat}
    (ok : succeeded pool i = true) : ∃ made, pool[i]? = some (.ret (.ok made)) := by
  unfold succeeded at ok
  split at ok
  next made returned => exact ⟨made, returned⟩
  next => cases ok

theorem at_most_one_init_of_two : ∃ made, twoInits.1[0]? = some (.ret (.ok made)) ∧
    ∀ j made', twoInits.1[j]? = some (.ret (.ok made')) → j = 0 := by
  have within : Within (Handler.labelled (Vault.exec sampleMac) : Handler CallCmd Vault) id
      (Vault.any sampleMac).labelled := fun c v => Vault.exec_within c.op v
  have run := Pool.Steps.seen within (@Pool.steps_play CallCmd Vault Fault _ _ _
    (Handler.labelled (Vault.exec sampleMac)) (Pool.inTurn ((List.range 80).map (· % 2)))
    (inits sampleCrypto [(.default, 0), (.default, 0)]) emptyVault Pool.inTurn_calm)
  obtain ⟨made, returned⟩ : ∃ made, twoInits.1[0]? = some (.ret (.ok made)) :=
    succeeded_made (by decide +kernel)
  exact ⟨made, returned, (at_most_one_init sampleCrypto_lawful run returned).2⟩

end Pinpam
