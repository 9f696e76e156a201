import Pinpam.MasterKey.Retry

/-!
# Recovering the key

The sealed file holds the key that is in the TPM, or a torn part of its record. A call of
`init` that misreads a file as absent makes a second key, and takes it back unless the
rollback fails too; in every other run the two agree, and an import brings back the key
that the phrase was given out with.
-/

namespace Pinpam
set_option autoImplicit false
open Pinpam.Effect Pinpam.Effect.Fallible

/-- What the crates promise: decoding inverts encoding, JSON may be followed by a newline
but not cut short, and a ciphertext opens under the key it was made with and under that of
no other phrase. -/
structure Crypto.Lawful (crypto : Crypto) : Prop where
  decode_encode : ∀ data, crypto.decode (crypto.encode data) = .ok data
  fromSlice_toVec : ∀ x json, crypto.toVec x = .ok json → crypto.fromSlice json = .ok x
  fromSlice_newline : ∀ x json, crypto.toVec x = .ok json → crypto.fromSlice (json ++ [10]) = .ok x
  fromSlice_cut :
    ∀ x json part, crypto.toVec x = .ok json → part <+: json → part ≠ json →
    ∃ e, crypto.fromSlice part = .error e
  decrypt_encrypt : ∀ key nonce data ciphertext, crypto.encrypt key nonce data = .ok ciphertext →
    crypto.decrypt key nonce ciphertext = .ok data
  decrypt_other : ∀ phrase other salt key otherKey nonce data ciphertext, phrase ≠ other →
    crypto.hashPasswordInto (asBytes phrase) salt = .ok key →
    crypto.hashPasswordInto (asBytes other) salt = .ok otherKey →
    crypto.encrypt key nonce data = .ok ciphertext →
    ∃ e, crypto.decrypt otherKey nonce ciphertext = .error e

section Unsealing

variable {crypto : Crypto} {phrase other : Str} {key key' json data : Bytes}

/-- A whole record opens to its key under its phrase, and to nothing else under any. -/
theorem unsealBytes_whole (lawful : crypto.Lawful) (sealed_ : Sealed crypto phrase key json)
    (whole : data = json ∨ data = json ++ [10]) :
    MasterKey.unsealBytes crypto phrase data = .ok key ∧
      ∀ other key', MasterKey.unsealBytes crypto other data = .ok key' → key' = key := by
  obtain ⟨salt, nonce, aesKey, ciphertext, createdUnixMs, len, hashed, encrypted, written⟩ := sealed_
  have read : crypto.fromSlice data = .ok ⟨SEALED_FILE_VERSION, createdUnixMs, crypto.encode salt,
      crypto.encode nonce,
      crypto.encode ciphertext⟩ := by
    rcases whole with rfl | rfl
    · exact lawful.fromSlice_toVec _ _ written
    · exact lawful.fromSlice_newline _ _ written
  have opens : ∀ other, MasterKey.unsealBytes crypto other data = (do
      let otherKey ← MasterKey.deriveAesKeyFromPhrase crypto other salt
      (crypto.decrypt otherKey nonce ciphertext).mapError .ioError) := by
    intro other
    unfold MasterKey.unsealBytes
    simp only [read, lawful.decode_encode, Except.mapError, bind, Except.bind, len, ne_eq,
      not_true_eq_false, if_false]
  have own : MasterKey.unsealBytes crypto phrase data = .ok key := by
    simp only [opens, MasterKey.deriveAesKeyFromPhrase, hashed, Except.mapError, bind, Except.bind]
    rw [lawful.decrypt_encrypt _ _ _ _ encrypted]
  refine ⟨own, fun other key' opened => ?_⟩
  by_cases same : phrase = other
  · subst same
    exact Except.ok.inj (opened.symm.trans own)
  · -- another phrase gives another key, and nothing opens under that
    rw [opens, MasterKey.deriveAesKeyFromPhrase] at opened
    cases derived : crypto.hashPasswordInto (asBytes other) salt with
    | error e => simp [derived, Except.mapError, bind, Except.bind] at opened
    | ok otherKey =>
      obtain ⟨e, closed⟩ := lawful.decrypt_other _ _ _ _ _ _ _ _ same hashed derived encrypted
      simp [derived, closed, Except.mapError, bind, Except.bind] at opened

/-- The file holds the record of a key, or a torn part of it. -/
def Holds (crypto : Crypto) (data key : Bytes) : Prop :=
  ∃ phrase json, Sealed crypto phrase key json ∧ data <+: json ++ [10]

/-- A file opens to the key that it holds, if it opens at all. -/
theorem Holds.opens (lawful : crypto.Lawful) (holds : Holds crypto data key)
    (opened : MasterKey.unsealBytes crypto other data = .ok key') : key' = key := by
  obtain ⟨phrase, json, sealed_, part⟩ := holds
  by_cases whole : data = json ∨ data = json ++ [10]
  · exact (unsealBytes_whole lawful sealed_ whole).2 other key' opened
  · -- a torn record is not JSON
    obtain ⟨ne_json, ne_all⟩ := not_or.1 whole
    have cut : data <+: json := (List.prefix_concat_iff.1 part).resolve_left ne_all
    obtain ⟨salt, nonce, aesKey, ciphertext, createdUnixMs, _, _, _, written⟩ := sealed_
    obtain ⟨e, refused⟩ := lawful.fromSlice_cut _ _ _ written cut ne_json
    simp [MasterKey.unsealBytes, refused, Except.mapError, bind, Except.bind] at opened

end Unsealing

/-! ## The file and the key agree -/

/-- The HMAC handle holds no key but this one. -/
def OnlyKey (o : Objects) (key : Bytes) : Prop :=
  ∀ pub k, o.persistent hmacHandle = some (.keyedHash pub k) → k = key

/-- If there is a file, it holds the key that is in the TPM. -/
def Kept (crypto : Crypto) (v : Vault) : Prop :=
  ∀ data, v.2.sealedFile = some data → ∃ key, Holds crypto data key ∧ OnlyKey v.1 key

/-- What the file opens to under any phrase is the key in the TPM. -/
def Agree (crypto : Crypto) (v : Vault) : Prop := ∀ phrase data key pub k, v.2.sealedFile = some data →
  MasterKey.unsealBytes crypto phrase data = .ok key → v.1.persistent hmacHandle =
  some (.keyedHash pub k) → key = k

/-- `exists` does not see the file. -/
def misreads : Event CallCmd Vault → Bool
  | ⟨v, ⟨.own, .inr .exists⟩, false, _⟩ => v.2.sealedFile.isSome
  | _ => false

/-- The eviction of the HMAC key fails. -/
def stays : (c : ObjectCmd) → Except TssError c.Out → Bool
  | .connect _, r => fails r
  | .trFromTpmPublic h, r => decide (h = hmacHandle) && fails r
  | .evictControl _ h, r => decide (h = hmacHandle) && fails r
  | _, _ => false

/-- The eviction of the HMAC key fails in the rollback. -/
def strays : Event CallCmd Vault → Bool
  | ⟨_, ⟨.rollback, .inl c⟩, r, _⟩ => stays c r
  | _ => false

/-- Not both: the file is not seen, and the rollback leaves the key. -/
def KeyCall.Sound (call : KeyCall) : Prop :=
  (∀ event ∈ call.events, misreads event = false) ∨ ∀ event ∈ call.events, strays event = false

section Kept

variable {mac : Bytes → Bytes → Bytes} {G : Event CallCmd Vault → Prop} {l : Call} {o o' : Objects}
  {d d' : Disk} {v v' : Vault} {b : Prop} {policy : PinPolicy} {crypto : Crypto} {uid : UInt32}
  {op : MasterKeyOp} {key : Bytes}

theorem Kept.agree (lawful : crypto.Lawful) (kept : Kept crypto v) : Agree crypto v := by
  intro phrase data key pub k file opened held
  obtain ⟨key', holds, only⟩ := kept data file
  exact (holds.opens lawful opened).trans (only pub k held).symm

theorem kept_none (absent : d.sealedFile = none) : Kept crypto (o, d) := by
  intro data file
  cases absent.symm.trans file

/-- Taking away the key or the file takes nothing from it. -/
theorem Kept.less (kept : Kept crypto (o, d))
    (objects : o'.persistent hmacHandle = none ∨ o'.persistent hmacHandle = o.persistent hmacHandle)
    (file : d'.sealedFile = none ∨ d' = d) : Kept crypto (o', d') := by
  intro data there
  obtain absent | rfl := file
  · cases absent.symm.trans there
  obtain ⟨key, holds, only⟩ := kept data there
  refine ⟨key, holds, fun pub k held => ?_⟩
  obtain free | same := objects
  · cases free.symm.trans held
  · exact only pub k (same.symm.trans held)

/-- Nothing is watched for. -/
abbrev Nothing (_ : Event CallCmd Vault) : Prop := False

theorem unwatched_nothing : Unwatched Nothing l where
  inert _ _ _ _ _ := id
  create _ _ _ _ := id
  write _ _ _ := id

theorem own_nothing : OwnUnwatched Nothing where
  tpm _ _ _ _ := id
  sys := unwatched_nothing

theorem calm_nothing : Calm Nothing l v where
  asked _ := id
  connected _ := id
  present _ := id
  absent _ _ := id

theorem lets_nothing {h : PersistentTpmHandle} : Lets Nothing l h v where
  present := id
  absent _ := id
  evicted := id

/-- A clearing frees the HMAC handle, or its eviction fails. -/
theorem part_clearFromTpm {Q : PinResult Unit → Vault × Prop → Prop}
    (cleared : ∀ r o', o'.persistent hmacHandle = none → Q r ((o', d), b))
    (stayed : ∀ r o', o'.persistent hmacHandle = o.persistent hmacHandle →
      (uid = 0 → ∃ v c r, G ⟨v, ⟨l, .inl c⟩, r, v⟩ ∧ stays c r = true) → Q r ((o', d), b)) :
    Part mac G Nothing l (MasterKey.clearFromTpm policy uid) Q (o, d) b := by
  -- the parent is evicted after the key
  have second : ∀ (o' : Objects), (∀ r o'', o''.persistent hmacHandle = o'.persistent hmacHandle →
      Q r ((o'', d), b)) →
      Part mac G Nothing l (do
        let _ ← (attempt (MasterKey.evictPersistentIfPresent MASTER_KEY_RSA_PARENT_HANDLE) : KeyM
            (PinResult Unit))
        pure ()) Q (o', d) b := by
    intro o' done
    refine seq_attempt (part_evict persistentHandle_rsa lets_nothing ?_ ?_ ?_)
    · exact fun _ => ⟨trivial, done _ _ (by simp)⟩
    · exact fun _ => ⟨trivial, done _ _ rfl⟩
    · intro c f e b' _ _ seen
      obtain rfl := unseen seen id
      exact ⟨trivial, done _ _ rfl⟩
  unfold MasterKey.clearFromTpm MasterKey.ensureRootRealUid
  by_cases root : uid = 0
  · rw [if_neg (not_not.2 root), ofResult_ok_bind]
    refine seq (part_object ?_ ?_)
    · simp only [Objects.exec]
      intro b' _ seen
      obtain rfl := unseen seen id
      refine seq_attempt (part_evict persistentHandle_hmac lets_nothing ?_ ?_ ?_)
      · intro _
        exact second _ fun r o'' same => cleared r o'' (same.trans (by simp))
      · exact fun free => second _ fun r o'' same => cleared r o'' (same.trans free)
      · intro c f e b'' evicts given seen
        obtain rfl := unseen seen id
        refine second _ fun r o'' same => stayed r o'' same fun _ => ⟨_, _, _, given, ?_⟩
        cases evicts with
        | load => rfl
        | evict => rfl
    · intro f b' given seen
      obtain rfl := unseen seen id
      exact stayed _ _ rfl fun _ => ⟨_, _, _, given, rfl⟩
  · rw [if_pos root]
    exact ⟨trivial, stayed _ _ rfl fun isRoot => absurd isRoot root⟩

/-- A key and a file that were made together. -/
theorem kept_made {data : Bytes} (made : o.persistent hmacHandle = some (hmacObject key))
    (file : d.sealedFile = some data) (holds : Holds crypto data key) : Kept crypto (o, d) := by
  intro data' there
  cases file.symm.trans there
  refine ⟨key, holds, fun pub k held => ?_⟩
  cases made.symm.trans held
  rfl

/-- A provisioning that stops leaves the HMAC handle alone. -/
theorem same_hmac
    (old : o' = o ∨ o.persistent rsaHandle = none ∧ o' = o.set rsaHandle (some rsaParent)) :
    o'.persistent hmacHandle = o.persistent hmacHandle := by
  obtain rfl | ⟨-, rfl⟩ := old
  · rfl
  · simp

theorem whole_init_kept
    (sound : (∀ event, G event → misreads event = false) ∨ ∀ event, G event → strays event = false)
    (kept : Kept crypto (o, d)) :
    Whole mac G Nothing (MasterKey.program policy crypto uid .init) (fun _ y => Kept crypto y.1)
      (o, d) False := by
  apply whole_init unwatched_nothing
  · exact fun _ => kept
  intro root given hmacKey phrase
  apply part_provision fun _ _ _ _ _ => id
  · intro free o' made
    apply part_seal unwatched_nothing
    · -- no file was made: the key is taken back, or there is none to differ from
      intro e
      apply part_clearFromTpm
      · exact fun _ _ gone => kept.less (.inl gone) (.inr rfl)
      · intro r o'' _ stayed
        rcases sound with read | cleared
        · have absent : d.sealedFile = none := by simpa [misreads] using read _ given
          exact kept_none absent
        · obtain ⟨v, c, r, happened, stay⟩ := stayed root
          have cleared : stays c r = false := cleared _ happened
          rw [stay] at cleared
          cases cleared
    · intro _ json part sealed_ prefix_ _ e before data err b' _ seen
      obtain rfl := unseen seen id
      have torn : Kept crypto (o', ⟨some part⟩) := kept_made made rfl ⟨phrase, json, sealed_, prefix_⟩
      apply part_clearFromTpm
      · exact fun _ _ gone => torn.less (.inl gone) (.inr rfl)
      · exact fun _ _ same _ => torn.less (.inr same) (.inr rfl)
    · intro _ json sealed_
      have whole : Kept crypto (o', ⟨some (json ++ [10])⟩) :=
        kept_made made rfl ⟨phrase, json, sealed_, List.prefix_rfl⟩
      apply part_status calm_nothing
      · exact fun _ _ => whole
      · exact fun _ _ _ _ _ _ _ => whole
  · intro o' old _ _ _ _ _ _
    exact kept.less (.inr (same_hmac old)) (.inr rfl)

theorem whole_import_kept {phrase : Str} (lawful : crypto.Lawful) (kept : Kept crypto (o, d)) :
    Whole mac G Nothing (MasterKey.program policy crypto uid (.importToTpm phrase))
      (fun _ y => Kept crypto y.1) (o, d) False := by
  apply whole_import own_nothing
  · exact fun _ => kept
  intro _ _ data hmacKey stored opened
  obtain ⟨key, holds, -⟩ := kept data stored
  obtain rfl := holds.opens lawful opened
  apply part_provision fun _ _ _ _ _ => id
  · intro _ o' made
    have restored : Kept crypto (o', d) := kept_made made stored holds
    apply part_status calm_nothing
    · exact fun _ _ => restored
    · exact fun _ _ _ _ _ _ _ => restored
  · intro o' old _ _ _ _ _ _
    exact kept.less (.inr (same_hmac old)) (.inr rfl)

theorem whole_clearFromDisk {Q : PinResult Unit → Vault × Prop → Prop}
    (kept : ∀ e, Q (.error e) ((o, d), False))
    (gone : ∀ d', d'.sealedFile = none → Q (.ok ()) ((o, d'), False)) :
    Whole mac G Nothing (MasterKey.program policy crypto uid .clearFromDisk) Q (o, d) False := by
  apply whole_part
  unfold MasterKey.clearFromDisk MasterKey.ensureRootRealUid
  by_cases root : uid = 0
  · rw [if_neg (not_not.2 root), ofResult_ok_bind]
    refine part_sys ?_
    rintro (err | _) d' b' step _ seen
    all_goals obtain rfl := unseen seen id
    · obtain ⟨same, notFound⟩ : d' = d ∧ (err.kind = .notFound → d.sealedFile = none) := step
      subst same
      by_cases missing : err.kind = .notFound
      · simp only [missing, if_true]
        exact gone _ (notFound missing)
      · simp only [missing, if_false]
        exact kept _
    · obtain ⟨-, rfl⟩ : d.sealedFile.isSome ∧ d' = ⟨none⟩ := step
      exact gone _ rfl
  · rw [if_pos root]
    exact ⟨trivial, kept _⟩

theorem whole_status {Q : PinResult MasterKeyStatus → Vault × Prop → Prop}
    (done : ∀ r, Q r ((o, d), False)) :
    Whole mac G Nothing (MasterKey.program policy crypto uid .status) Q (o, d) False := by
  apply whole_part
  apply part_status calm_nothing
  · exact fun _ _ => done _
  · intro c f e b' _ _ seen
    obtain rfl := unseen seen id
    exact done _

theorem whole_deriveUserToken {username : Str} {Q : PinResult Str → Vault × Prop → Prop}
    (failed : ∀ e, Q (.error e) ((o, d), False))
    (done : ∀ pub key, o.persistent hmacHandle = some (.keyedHash pub key) →
      (asBytes username).length ≤ 1024 →
      Q (.ok (hexEncode (mac key (asBytes username)))) ((o, d), False)) :
    Whole mac G Nothing (MasterKey.program policy crypto uid (.deriveUserToken username)) Q
      (o, d) False := by
  have fails : ∀ (e : PinError) b', b' = (False ∨ False) → Q (.error e) ((o, d), b') := by
    intro e b' seen
    obtain rfl := unseen seen id
    exact failed e
  apply whole_part
  unfold MasterKey.deriveUserToken
  refine seq (part_object ?_ fun f b' _ seen => fails _ b' seen)
  simp only [Objects.exec]
  intro b' _ seen
  obtain rfl := unseen seen id
  rw [persistentHandle_hmac, ofResult_ok_bind]
  refine seq (part_object ?_ fun f b' _ seen => fails _ b' seen)
  cases held : o.persistent hmacHandle with
  | none =>
    simp only [Objects.exec, held, Option.isSome_none, Bool.false_eq_true, if_false]
    exact fun b' _ seen => fails _ b' seen
  | some x =>
  simp only [Objects.exec, held, Option.isSome_some, if_true]
  intro b' _ seen
  obtain rfl := unseen seen id
  by_cases short : (asBytes username).length ≤ 1024
  · rw [maxBuffer, if_pos short]
    dsimp only [Except.mapError]
    rw [ofResult_ok_bind]
    refine seq (part_object ?_ fun f b' _ seen => fails _ b' seen)
    intro b' _ seen
    obtain rfl := unseen seen id
    -- the session is flushed whatever the HMAC gave, and then its result is read
    have flushed : ∀ res : PinResult Bytes, Q (res.map hexEncode) ((o, d), False) →
        Part mac G Nothing .own (do
          send .flushContext
          let digest ← ofResult res
          pure (hexEncode digest)) Q (o, d) False := by
      intro res post
      refine seq (part_object ?_ fun f b' _ seen => fails _ b' seen)
      intro b' _ seen
      obtain rfl := unseen seen id
      cases res with
      | error e => exact ⟨trivial, post⟩
      | ok digest => exact ⟨trivial, post⟩
    refine seq_attempt (part_object ?_ ?_)
    · intro b' _ seen
      obtain rfl := unseen seen id
      apply flushed
      cases x with
      | primary pub =>
        simp only [Objects.exec, Objects.hmac, held]
        exact failed _
      | keyedHash pub key =>
        simp only [Objects.exec, Objects.hmac, held]
        split
        · exact done pub key held short
        · exact failed _
    · intro f b' _ seen
      obtain rfl := unseen seen id
      exact flushed _ (failed _)
  · rw [maxBuffer, if_neg short]
    exact ⟨trivial, failed _⟩

/-- One call. -/
theorem KeyCall.kept {call : KeyCall} (lawful : crypto.Lawful) (goes : call.Goes mac crypto)
    (sound : call.Sound) (kept : Kept crypto call.before) : Kept crypto call.after := by
  obtain ⟨policy, uid, op, ⟨o, d⟩, events, r, v'⟩ := call
  have any : ∀ event ∈ events, True := fun _ _ => trivial
  cases op with
  | status =>
    refine (whole_status (Q := fun _ y => Kept crypto y.1) fun _ => kept).runs goes any
  | init =>
    rcases sound with read | cleared
    · exact (whole_init_kept (.inl fun _ => id) kept).runs goes read
    · exact (whole_init_kept (.inr fun _ => id) kept).runs goes cleared
  | clearFromTpm =>
    refine Whole.runs (Q := fun _ y => Kept crypto y.1) (whole_part (part_clearFromTpm ?_ ?_)) goes any
    · exact fun _ _ gone => kept.less (.inl gone) (.inr rfl)
    · exact fun _ _ same _ => kept.less (.inr same) (.inr rfl)
  | clearFromDisk =>
    refine Whole.runs (whole_clearFromDisk (Q :=
      fun _ y => Kept crypto y.1) (fun _ => kept) fun d' gone => ?_) goes any
    exact kept.less (.inr rfl) (.inl gone)
  | importToTpm phrase => exact (whole_import_kept lawful kept).runs goes any
  | deriveUserToken username =>
    exact (whole_deriveUserToken (Q :=
      fun _ y => Kept crypto y.1) (fun _ => kept) fun _ _ _ _ => kept).runs goes any

/-- A run of calls. -/
theorem KeyRun.kept {calls : List KeyCall} (lawful : crypto.Lawful) (run : KeyRun mac crypto v calls v')
    (sound : ∀ call ∈ calls, call.Sound) (kept : Kept crypto v) : Kept crypto v' := by
  induction run with
  | stop => exact kept
  | call goes _ ih =>
    apply ih fun call member => sound call (List.mem_cons_of_mem _ member)
    exact KeyCall.kept lawful goes (sound _ List.mem_cons_self) kept

/-! ### An import after an init -/

/-- A file that is there is not touched by an init or an import. -/
theorem part_onTpm_disk {ε α : Type} {x : Fallible KeyCmd ε α} (only : OnlyX OnTpm x) :
    Part mac G Nothing l x (fun _ y => y.1.2 = d) (o, d) b := by
  apply part_keeps (I := fun v _ => v.2 = d) only _ rfl
  rintro (c | c) ⟨o, d'⟩ r ⟨o', d''⟩ b own ⟨-, same⟩ _ rfl
  · exact same
  · exact own.elim

theorem whole_init_there (there : d.sealedFile.isSome) :
    Whole mac G Nothing (MasterKey.program policy crypto uid .init) (fun _ y => y.1.2 = d)
      (o, d) False := by
  have no : ¬ d.sealedFile = none := by simpa [Option.isSome_iff_ne_none] using there
  apply whole_init unwatched_nothing
  · exact fun _ => rfl
  intro _ _ hmacKey phrase
  refine wpx_mono (part_onTpm_disk provisionTpmObjects_onTpm) ?_
  rintro (e | _) ⟨⟨o', d'⟩, b'⟩ - same
  · exact same
  obtain rfl : d = d' := Eq.symm same
  apply part_seal unwatched_nothing
  · exact fun _ => part_onTpm_disk clearFromTpm_onTpm
  · exact fun absent => absurd absent no
  · exact fun absent => absurd absent no

theorem whole_import_disk {phrase : Str} :
    Whole mac G Nothing (MasterKey.program policy crypto uid (.importToTpm phrase))
      (fun _ y => y.1.2 = d) (o, d) False := by
  apply whole_import own_nothing
  · exact fun _ => rfl
  intro _ _ data hmacKey _ _
  apply part_provision fun _ _ _ _ _ => id
  · intro _ o' _
    apply part_status calm_nothing
    · exact fun _ _ => rfl
    · exact fun _ _ _ _ _ _ _ => rfl
  · exact fun _ _ _ _ _ _ _ _ => rfl

/-- The file stays in every call but a clearing of the disk that succeeds. -/
theorem KeyCall.keeps_file {call : KeyCall} (goes : call.Goes mac crypto)
    (there : call.before.2.sealedFile.isSome)
    (failed : call.op = .clearFromDisk → ∃ e, call.result = .error e) :
    call.after.2 = call.before.2 := by
  obtain ⟨policy, uid, op, ⟨o, d⟩, events, r, v'⟩ := call
  have any : ∀ event ∈ events, True := fun _ _ => trivial
  cases op with
  | status => exact (whole_status (Q := fun _ y => y.1.2 = d) fun _ => rfl).runs goes any
  | init => exact (whole_init_there there).runs goes any
  | clearFromTpm =>
    exact Whole.runs (Q :=
      fun _ y => y.1.2 = d) (whole_part (part_onTpm_disk clearFromTpm_onTpm)) goes any
  | clearFromDisk =>
    obtain ⟨e, error⟩ := failed rfl
    refine (whole_clearFromDisk (Q :=
      fun r y => (∃ e, r = .error e) → y.1.2 = d) (fun _ _ => rfl) ?_).runs goes any ⟨e, error⟩
    rintro d' _ ⟨e, same⟩
    cases same
  | importToTpm phrase => exact whole_import_disk.runs goes any
  | deriveUserToken username =>
    exact Whole.runs (Q :=
      fun _ y => y.1.2 = d) (whole_part (part_onTpm_disk deriveUserToken_onTpm)) goes any

theorem KeyRun.keeps_file {calls : List KeyCall} (run : KeyRun mac crypto v calls v')
    (there : v.2.sealedFile.isSome)
    (failed : ∀ call ∈ calls, call.op = .clearFromDisk → ∃ e, call.result = .error e) :
    v'.2 = v.2 := by
  induction run with
  | stop => rfl
  | call goes _ ih =>
    have same := KeyCall.keeps_file goes there (failed _ List.mem_cons_self)
    exact (ih (same ▸ there) fun call member => failed call (List.mem_cons_of_mem _ member)).trans same

/-- What an init that returns `Ok` leaves. -/
theorem whole_init_ok :
    Whole mac G Nothing (MasterKey.program policy crypto uid .init)
      (fun r y => ∀ made, r = .ok made → ∃ key json, Sealed crypto made.recoveryPhrase key json ∧
        y.1.2.sealedFile = some (json ++ [10]) ∧ y.1.1.persistent hmacHandle = some (hmacObject key))
      (o, d) False := by
  apply whole_init unwatched_nothing
  · exact fun _ => nofun
  intro _ _ hmacKey phrase
  apply part_provision fun _ _ _ _ _ => id
  · intro _ o' provisioned
    have fails : ∀ (e : PinError) d' b',
        Part mac G Nothing .rollback (MasterKey.clearFromTpm policy uid)
          (fun _ y => ∀ made, (.error e : PinResult MasterKeyInitResult) = .ok made →
            ∃ key json, Sealed crypto made.recoveryPhrase key json ∧
              y.1.2.sealedFile = some (json ++ [10]) ∧
              y.1.1.persistent hmacHandle = some (hmacObject key))
          (o', d') b' := by
      intro e d' b'
      exact wpx_mono (part_onTpm_disk clearFromTpm_onTpm) fun _ _ _ _ => nofun
    apply part_seal unwatched_nothing
    · exact fun e => fails e _ _
    · exact fun _ _ _ _ _ _ e _ _ _ _ _ _ => fails e _ _
    · intro _ json sealed_
      apply part_status calm_nothing
      · rintro present _ made ⟨⟩
        exact ⟨_, json, sealed_, rfl, provisioned⟩
      · exact fun _ _ _ _ _ _ _ => nofun
  · exact fun _ _ _ _ _ _ _ _ => nofun

/-- What an import of a whole record leaves if it returns `Ok`. -/
theorem whole_import_ok {phrase : Str} {json : Bytes} (lawful : crypto.Lawful)
    (sealed_ : Sealed crypto phrase key json) (file : d.sealedFile = some (json ++ [10])) :
    Whole mac G Nothing (MasterKey.program policy crypto uid (.importToTpm phrase))
      (fun r y => (∃ st, r = .ok st) → y.1.1.persistent hmacHandle = some (hmacObject key))
      (o, d) False := by
  have refused : ∀ (e : PinError) (o : Objects),
      (∃ st : MasterKeyStatus, (.error e : PinResult MasterKeyStatus) = .ok st) →
        o.persistent hmacHandle = some (hmacObject key) := by
    rintro e o ⟨st, same⟩
    cases same
  apply whole_import own_nothing
  · exact fun e => refused e _
  intro _ _ data hmacKey stored opened
  cases file.symm.trans stored
  have same := (unsealBytes_whole lawful sealed_ (.inr rfl)).2 _ _ opened
  apply part_provision fun _ _ _ _ _ => id
  · intro _ o' made
    rw [same] at made
    apply part_status calm_nothing
    · exact fun _ _ _ => made
    · exact fun _ _ e _ _ _ _ => refused e _
  · exact fun _ _ _ _ e _ _ _ => refused e _

/-- A token that `derive_user_token` may give. -/
def Token (mac : Bytes → Bytes → Bytes) (crypto : Crypto) (v : Vault) (username token : Str) : Prop :=
  ∃ policy uid events v', (MasterKey.program policy crypto uid (.deriveUserToken username)).run.Runs
    (Vault.any mac).labelled v
    events (.ok token) v'

/-- The token is the HMAC of the name under the key that is held. -/
theorem token_iff {username token : Str} (held : v.1.persistent hmacHandle = some (hmacObject key)) :
    Token mac crypto v username token ↔ (asBytes username).length ≤ 1024 ∧
    token = hexEncode (mac key (asBytes username)) := by
  constructor
  · rintro ⟨policy, uid, events, v', derives⟩
    refine (whole_deriveUserToken (o := v.1) (d := v.2) (Q := fun r _ => ∀ token, r = .ok token →
      (asBytes username).length ≤ 1024 ∧ token = hexEncode (mac key (asBytes username)))
        (fun _ => nofun) ?_).runs derives
        (fun _ _ => trivial) token rfl
    rintro pub key' held' short _ ⟨⟩
    cases held.symm.trans held'
    exact ⟨short, rfl⟩
  · rintro ⟨short, rfl⟩
    have step : ∀ {c : ObjectCmd} {k r events a}, Objects.exec mac c v.1 = (r, v.1) →
        (k r).Runs (α := PinResult Str) (Vault.any mac).labelled v events a v →
          (Prog.call (⟨.own, .inl c⟩ : CallCmd) k).Runs (Vault.any mac).labelled v
            (⟨v, ⟨.own, .inl c⟩, r, v⟩ :: events) a v := by
      intro c k r events a answer rest
      have done := Faulty.done (h := Objects.exec mac) (P := fun _ => True) c v.1
      rw [answer] at done
      exact .call ⟨done, rfl⟩ rest
    have loaded : Objects.exec mac (.trFromTpmPublic hmacHandle) v.1 = (.ok (), v.1) := by
      simp [Objects.exec, held]
    have digest : Objects.exec mac (.hmac hmacHandle (asBytes username)) v.1 =
        (.ok (mac key (asBytes username)), v.1) := by
      simp [Objects.exec, Objects.hmac, held, hmacObject, MasterKey.hmacKeyPublic]
    have derives : ∃ events,
        (MasterKey.program .default crypto 0 (.deriveUserToken username)).run.Runs
          (Vault.any mac).labelled v events (.ok (hexEncode (mac key (asBytes username)))) v := by
      unfold MasterKey.program MasterKey.deriveUserToken
      simp only [persistentHandle_hmac, maxBuffer, short, if_true]
      constructor
      apply step (c := .connect _) rfl
      apply step loaded
      apply step (c := .startAuthSession) rfl
      apply step digest
      apply step (c := .flushContext) rfl
      exact .ret _ _
    obtain ⟨events, derives⟩ := derives
    exact ⟨.default, 0, events, v, derives⟩

/-- From no file, and unless a call both misses the file and fails to take its key back,
the file opens to nothing but the key in the TPM. An import of the phrase of an `init`
restores its tokens, if the disk has not been cleared. -/
theorem recovery_restores (lawful : crypto.Lawful) :
    (∀ calls v v', v.2.sealedFile = none → KeyRun mac crypto v calls v' →
      (∀ call ∈ calls, call.Sound) → Agree crypto v') ∧
    ∀ (policy : PinPolicy) (uid : UInt32) v events made v₁,
      (MasterKey.program policy crypto uid .init).run.Runs (Vault.any mac).labelled v events
        (.ok made) v₁ → ∀ calls v₂, KeyRun mac crypto v₁ calls v₂ →
          (∀ call ∈ calls, call.op = .clearFromDisk → ∃ e, call.result = .error e) →
            ∀ (policy : PinPolicy) (uid : UInt32) events st v₃,
              (MasterKey.program policy crypto uid (.importToTpm made.recoveryPhrase)).run.Runs
                (Vault.any mac).labelled v₂ events (.ok st) v₃ →
                  ∀ username token, Token mac crypto v₁ username token ↔
                    Token mac crypto v₃ username token := by
  constructor
  · intro calls v v' absent run sound
    exact (run.kept lawful sound (kept_none absent)).agree lawful
  · intro policy uid v events made v₁ inits calls v₂ run failed policy' uid' events' st v₃
      imports username token
    have any : ∀ (events : List (Event CallCmd Vault)), ∀ event ∈ events, True := fun _ _ _ => trivial
    have post : ∀ made', Except.ok made = .ok made' → _ :=
      whole_init_ok.runs (v := (v.1, v.2)) inits (any events)
    obtain ⟨key, json, sealed_, file, there⟩ := post made rfl
    dsimp only at file there
    have same : v₂.2 = v₁.2 := run.keeps_file (by simp only [file, Option.isSome_some]) failed
    have restored :=
      (whole_import_ok (o := v₂.1) (d := v₂.2) lawful sealed_ (same ▸ file)).runs imports (any events')
    rw [token_iff there, token_iff (restored ⟨st, rfl⟩)]

end Kept

/-! ## Samples -/

theorem sampleCrypto_lawful : sampleCrypto.Lawful where
  decode_encode data := by
    have small : ∀ n < 256, (Char.ofNat n).toNat = n := by decide +kernel
    have each : ∀ x : UInt8, UInt8.ofNat (Char.ofNat x.toNat).toNat = x := by
      intro x
      rw [small _ x.toNat_lt, UInt8.ofNat_toNat]
    have same : (fun c : Char => UInt8.ofNat c.toNat) ∘ (fun x : UInt8 => Char.ofNat x.toNat) = id :=
      funext each
    simp only [sampleCrypto, List.map_map, same, List.map_id_fun, id]
  fromSlice_toVec x json written := by
    simp only [sampleCrypto] at written ⊢
    split at written <;> simp_all
  fromSlice_newline x json written := by
    simp only [sampleCrypto] at written ⊢
    split at written
    · cases written
      simp_all
    · cases written
  fromSlice_cut x json part written prefix_ ne := by
    simp only [sampleCrypto] at written
    split at written
    · cases written
      obtain ⟨rest, split⟩ := prefix_
      have short : part = [] ∨ part = [8] := by
        match part, split with
        | [], _ => exact .inl rfl
        | [_], split => simp_all
        | [_, _], split => simp_all
        | _ :: _ :: _ :: _, split => simp_all
      rcases short with rfl | rfl
      · exact ⟨_, rfl⟩
      · exact ⟨_, rfl⟩
    · cases written
  decrypt_encrypt key nonce data ciphertext encrypted := by
    simp only [sampleCrypto] at encrypted ⊢
    split at encrypted <;> simp_all
  decrypt_other phrase other salt key otherKey nonce data ciphertext ne hashed hashed' encrypted := by
    simp only [sampleCrypto, Except.ok.injEq] at hashed hashed' encrypted ⊢
    split at encrypted
    next own =>
      have differ : otherKey ≠ key := by
        rintro rfl
        exact ne (asBytes_injective (List.append_cancel_right (hashed.trans hashed'.symm)))
      rw [if_neg fun also => differ (also.1.trans own.1.symm)]
      exact ⟨_, rfl⟩
    next => cases encrypted

/-- The first key of a machine. -/
def firstKey : KeyCall := .flaky sampleMac sampleCrypto .default 0 .init emptyVault []

def lostKey : KeyCall := .flaky sampleMac sampleCrypto .default 0 .clearFromTpm firstKey.after []

def restoredKey : KeyCall :=
  .flaky sampleMac sampleCrypto .default 0 (.importToTpm "abandon".toList) lostKey.after []

theorem recovery_restores_once : Agree sampleCrypto restoredKey.after ∧ ∀ username token,
    Token sampleMac sampleCrypto firstKey.after username token ↔
    Token sampleMac sampleCrypto restoredKey.after username token := by
  have lost : KeyRun sampleMac sampleCrypto firstKey.after [lostKey] lostKey.after :=
    .call KeyCall.flaky_goes (.stop _)
  have restored :
      KeyRun sampleMac sampleCrypto emptyVault [firstKey, lostKey, restoredKey] restoredKey.after :=
    .call KeyCall.flaky_goes (.call KeyCall.flaky_goes (.call KeyCall.flaky_goes (.stop _)))
  obtain ⟨agree, tokens⟩ := @recovery_restores sampleMac sampleCrypto sampleCrypto_lawful
  constructor
  · refine agree _ _ _ rfl restored fun call member => ?_
    simp only [List.mem_cons, List.not_mem_nil, or_false] at member
    rcases member with rfl | rfl | rfl <;> exact .inl (by decide +kernel)
  · have made : ∃ made, firstKey.result = .ok made ∧ made.recoveryPhrase = "abandon".toList :=
      ⟨_, rfl, rfl⟩
    have inits : firstKey.Goes sampleMac sampleCrypto := KeyCall.flaky_goes
    have imports : restoredKey.Goes sampleMac sampleCrypto := KeyCall.flaky_goes
    refine tokens .default 0 _ _ _ _ inits [lostKey] _ lost ?_ .default 0 _ _ _ imports
    intro call member clears
    cases List.mem_singleton.1 member
    cases clears

/-- The same disk with other random bytes. -/
def Disk.reseeded : Handler SysCmd Disk
  | .fillBytes len, d => (Vector.replicate len 1, d)
  | c, d => Disk.exec c d

def Vault.reseeded : Handler KeyCmd Vault := (Objects.exec sampleMac).sum Disk.reseeded

/-- `exists` fails, and so does the twentieth call after it. -/
def straying : Flaky Fault Vault := ⟨lostKey.after, [some ⟨0⟩] ++ List.replicate 19 none ++ [some ⟨0⟩]⟩

/-- The file is not seen, a second key cannot be sealed, and the rollback cannot connect. -/
def strayKey : KeyCall where
  policy := .default
  uid := 0
  op := .init
  before := lostKey.after
  events := ((MasterKey.program .default sampleCrypto 0 .init).run.trace
    (Handler.labelled Vault.reseeded.flaky) straying).map
    fun event => ⟨event.before.state, event.op, event.answer, event.after.state⟩
  result := ((MasterKey.program .default sampleCrypto 0 .init).run.run
    (Handler.labelled Vault.reseeded.flaky) straying).1
  after := ((MasterKey.program .default sampleCrypto 0 .init).run.run
    (Handler.labelled Vault.reseeded.flaky) straying).2.state

theorem strayKey_goes : strayKey.Goes sampleMac sampleCrypto := by
  have sound : ∀ c v, Vault.any sampleMac c v (Vault.reseeded c v).1 (Vault.reseeded c v).2 := by
    rintro (c | c) ⟨o, d⟩
    · exact ⟨.done c o, rfl⟩
    · refine ⟨?_, rfl⟩
      cases c with
      | fillBytes len => exact rfl
      | _ => exact Disk.exec_within _ d
  have within : Within (Handler.labelled Vault.reseeded.flaky : Handler CallCmd (Flaky Fault Vault))
      Flaky.state (Vault.any sampleMac).labelled := by
    rintro ⟨l, c⟩ ⟨v, _ | ⟨_ | f, faults⟩⟩
    · exact sound c v
    · exact sound c v
    · exact Vault.fail_within c v f
  exact Prog.runs_run within (MasterKey.program .default sampleCrypto 0 .init).run straying

/-- The TPM ends with a key that no phrase restores. -/
theorem stray_key_disagrees : ¬ ∀ (mac : Bytes → Bytes → Bytes) (crypto : Crypto),
    crypto.Lawful → ∀ calls v v',
    v.2.sealedFile = none → KeyRun mac crypto v calls v' → Agree crypto v' := by
  intro claim
  have run : KeyRun sampleMac sampleCrypto emptyVault [firstKey, lostKey, strayKey] strayKey.after :=
    .call KeyCall.flaky_goes (.call KeyCall.flaky_goes (.call strayKey_goes (.stop _)))
  have agree := claim sampleMac sampleCrypto sampleCrypto_lawful _ _ _ rfl run
  have file : strayKey.after.2.sealedFile = some [8, 9, 10] := by decide +kernel
  have held : strayKey.after.1.persistent hmacHandle = some (hmacObject (List.replicate 32 1)) := by
    decide +kernel
  have opened : MasterKey.unsealBytes sampleCrypto "abandon".toList [8, 9, 10] =
      .ok (List.replicate 32 0) := by rfl
  have same : List.replicate 32 (0 : UInt8) = List.replicate 32 1 := agree _ _ _ _ _ file opened held
  exact absurd same (by decide)

end Pinpam
