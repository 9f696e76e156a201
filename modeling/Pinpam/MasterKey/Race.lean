import Pinpam.MasterKey.Rivals

/-!
# A race of inits

Inits that run at once on a machine where nothing fails. A process only loses to another:
to the one that made the parent before it, or to the one that put its key at the handle.
The maker of the parent can only lose to the latter, and that one seals its key, so once
all have finished one of them has returned `Ok`.
-/

namespace Pinpam
set_option autoImplicit false
open Pinpam.Effect Pinpam.Effect.Fallible

/-! ## A machine that works -/

/-- A disk on which nothing fails, with any clock and any random numbers. -/
def Disk.works : Behaviour SysCmd Disk
  | .exists, d, r, d' => d' = d ∧ r = d.sealedFile.isSome
  | .mnemonic, d, r, d' => d' = d ∧ ∃ phrase, r = .ok phrase
  | .fillBytes _, d, _, d' | .nowUnixMs, d, _, d' => d' = d
  | .createDirAll, d, r, d' | .setPermissions .., d, r, d' | .chown .., d, r, d' =>
    d' = d ∧ r = .ok ()
  | .createNew _, d, r, d' =>
    match d.sealedFile with
    | none => r = .ok () ∧ d' = ⟨some []⟩
    | some _ => (∃ text, r = .error ⟨.alreadyExists, text⟩) ∧ d' = d
  | .writeAll data, d, r, d' => r = .ok () ∧ d' = d.write data
  | .read, d, r, d' => d' = d ∧
    match d.sealedFile with
    | none => ∃ text, r = .error ⟨.notFound, text⟩
    | some data => r = .ok data
  | .removeFile, d, r, d' =>
    match d.sealedFile with
    | none => (∃ text, r = .error ⟨.notFound, text⟩) ∧ d' = d
    | some _ => r = .ok () ∧ d' = ⟨none⟩

def Vault.works (mac : Bytes → Bytes → Bytes) : Behaviour KeyCmd Vault :=
  (Objects.exec mac).graph.sum Disk.works

/-- The crates never refuse what `seal_key_bytes_to_path` gives them. -/
structure Crypto.Total (crypto : Crypto) : Prop where
  hashPasswordInto : ∀ (phrase : Str) (salt : Bytes), salt.length = 16 →
    ∃ key, crypto.hashPasswordInto (asBytes phrase) salt = .ok key
  encrypt : ∀ key nonce data : Bytes, nonce.length = 12 → data.length = HMAC_KEY_LEN →
    ∃ ciphertext, crypto.encrypt key nonce data = .ok ciphertext
  toVec : ∀ sealedFile, ∃ json, crypto.toVec sealedFile = .ok json

theorem Disk.works_any {c : SysCmd} {d d' : Disk} {r : Answer c} (works : Disk.works c d r d') :
    Disk.any c d r d' := by
  obtain ⟨file⟩ := d
  cases c with
  | «exists» =>
    obtain ⟨same, rfl⟩ := works
    exact ⟨same, id⟩
  | createNew mode =>
    cases file with
    | none =>
      obtain ⟨rfl, rfl⟩ := works
      exact ⟨rfl, rfl⟩
    | some data =>
      obtain ⟨⟨text, rfl⟩, same⟩ := works
      exact same
  | writeAll data =>
    obtain ⟨rfl, rfl⟩ := works
    exact rfl
  | read =>
    obtain ⟨same, answer⟩ := works
    cases file with
    | none =>
      obtain ⟨text, rfl⟩ := answer
      exact ⟨same, fun data ok => by cases ok⟩
    | some data =>
      obtain rfl := answer
      exact ⟨same, fun data' ok => congrArg some (Except.ok.inj ok)⟩
  | removeFile =>
    cases file with
    | none =>
      obtain ⟨⟨text, rfl⟩, same⟩ := works
      exact ⟨same, fun _ => rfl⟩
    | some data =>
      obtain ⟨rfl, rfl⟩ := works
      exact ⟨rfl, rfl⟩
  | fillBytes len => exact works
  | nowUnixMs => exact works
  | mnemonic => exact works.1
  | createDirAll => exact works.1
  | setPermissions target mode => exact works.1
  | chown target uid gid => exact works.1

theorem Vault.works_any {mac : Bytes → Bytes → Bytes} {c : KeyCmd} {v v' : Vault} {r : Answer c}
    (works : Vault.works mac c v r v') : Vault.any mac c v r v' := by
  cases c with
  | inl c =>
    obtain ⟨answer, same⟩ := works
    refine ⟨?_, same⟩
    have done := Faulty.done (h := Objects.exec mac) (P := fun _ => True) c v.1
    rwa [show Objects.exec mac c v.1 = (r, v'.1) from answer] at done
  | inr c => exact ⟨Disk.works_any works.1, works.2⟩

/-! ## The race -/

/-- The vault, with the process that put its key at the handle and the one that made the
parent. -/
structure Race where
  vault : Vault
  holder : Option Nat
  maker : Option Nat

namespace Race

/-- The objects at the two handles, and the sealed file. -/
def key (x : Race) : Option KeyObject := x.vault.1.persistent hmacHandle

def parent (x : Race) : Option KeyObject := x.vault.1.persistent rsaHandle

def file (x : Race) : Option Bytes := x.vault.2.sealedFile

/-- The race after an operation of process `i`. -/
def next (x : Race) (i : Nat) (v : Vault) : Race where
  vault := v
  holder :=
    if x.key = none ∧ v.1.persistent hmacHandle ≠ none then some i else x.holder
  maker :=
    if x.parent = none ∧ v.1.persistent rsaHandle ≠ none then some i else x.maker

/-- A key and a file have a holder, and a parent that was not there at the start has a
maker. -/
structure Fair (parented : Bool) (x : Race) : Prop where
  key : x.key.isSome = x.holder.isSome
  file : x.holder = none → x.file = none
  parent : ∀ p, x.parent = some p → p.isParent = true
  made : x.parent.isSome = (parented || x.maker.isSome)

/-- What process `i` may rely on. -/
structure Kept (i : Nat) (x y : Race) : Prop where
  holder : ∀ j, x.holder = some j → y.holder = some j
  place : x.holder = some i → y.key = x.key ∧ y.file = x.file
  held : y.holder = some i → x.holder = some i
  parent : ∀ p, x.parent = some p → y.parent = some p
  maker : ∀ j, x.maker = some j → y.maker = some j
  made : y.maker = some i → x.maker = some i

variable {x y z : Race} {i j : Nat} {v : Vault} {parented : Bool}

theorem Kept.refl : Kept i x x :=
  ⟨fun _ => id, fun _ => ⟨rfl, rfl⟩, id, fun _ => id, fun _ => id, id⟩

theorem Kept.trans (first : Kept i x y) (second : Kept i y z) : Kept i x z where
  holder j held := second.holder j (first.holder j held)
  place held := by
    obtain ⟨key, file⟩ := first.place held
    obtain ⟨key', file'⟩ := second.place (first.holder i held)
    exact ⟨key'.trans key, file'.trans file⟩
  held held := first.held (second.held held)
  parent p there := second.parent p (first.parent p there)
  maker j made := second.maker j (first.maker j made)
  made made := first.made (second.made made)

/-- An operation that changes nothing. -/
theorem next_same : x.next i x.vault = x := by
  have idle : ∀ (o : Option KeyObject), ¬ (o = none ∧ o ≠ none) := fun _ both => both.2 both.1
  unfold next
  obtain ⟨v, holder, maker⟩ := x
  simp only [key, parent, idle, if_false]

/-- Process `i` makes the parent. -/
theorem next_parent {p : KeyObject} (free : x.parent = none) :
    x.next i (x.vault.1.set rsaHandle (some p), x.vault.2) =
      ⟨(x.vault.1.set rsaHandle (some p), x.vault.2), x.holder, some i⟩ := by
  have same : (x.vault.1.set rsaHandle (some p)).persistent hmacHandle = x.key := by
    simp [key]
  have put : (x.vault.1.set rsaHandle (some p)).persistent rsaHandle = some p := by simp
  unfold next
  rw [if_neg (by rw [same]; exact fun both => both.2 both.1), if_pos ⟨free, by rw [put]; exact nofun⟩]

/-- Process `i` puts its key at the handle. -/
theorem next_key {k : KeyObject} (free : x.key = none) :
    x.next i (x.vault.1.set hmacHandle (some k), x.vault.2) =
      ⟨(x.vault.1.set hmacHandle (some k), x.vault.2), some i, x.maker⟩ := by
  have same : (x.vault.1.set hmacHandle (some k)).persistent rsaHandle = x.parent := by
    simp [parent]
  have put : (x.vault.1.set hmacHandle (some k)).persistent hmacHandle = some k := by simp
  unfold next
  rw [if_pos ⟨free, by rw [put]; exact nofun⟩, if_neg (by rw [same]; exact fun both => both.2 both.1)]

/-- Process `i` changes the file. -/
theorem next_file {d : Disk} : x.next i (x.vault.1, d) = ⟨(x.vault.1, d), x.holder, x.maker⟩ := by
  unfold next
  rw [if_neg fun both => both.2 both.1, if_neg fun both => both.2 both.1]

end Race

/-! ## What a racer knows -/

/-- It has put nothing in place yet. -/
def Starting (i : Nat) (x : Race) : Prop := x.holder ≠ some i ∧ x.maker ≠ some i

/-- The parent is there. -/
def Parented (i : Nat) (p : KeyObject) (x : Race) : Prop := x.holder ≠ some i ∧ x.parent = some p

/-- Another process was first. -/
def Beaten (i : Nat) (x : Race) : Prop :=
  x.holder ≠ some i ∧ ∃ j, j ≠ i ∧ (x.holder = some j ∨ x.maker = some j)

/-- Its key is in place. -/
def Leading (i : Nat) (file : Option Bytes) (x : Race) : Prop := x.holder = some i ∧ x.file = file

/-- It put the key in place. -/
def Ahead (i : Nat) (x : Race) : Prop := x.holder = some i

/-- What the others' operations leave. -/
def Lasting (i : Nat) (φ : Race → Prop) : Prop := ∀ x y, φ x → Race.Kept i x y → φ y

theorem starting_lasting {i : Nat} : Lasting i (Starting i) :=
  fun _ _ known kept => ⟨fun held => known.1 (kept.held held), fun made => known.2 (kept.made made)⟩

theorem parented_lasting {i : Nat} {p : KeyObject} : Lasting i (Parented i p) := by
  rintro x y ⟨other, there⟩ kept
  exact ⟨fun held => other (kept.held held), kept.parent p there⟩

theorem beaten_lasting {i : Nat} : Lasting i (Beaten i) := by
  rintro x y ⟨other, j, ne, first⟩ kept
  exact ⟨fun held => other (kept.held held), j, ne, first.imp (kept.holder j) (kept.maker j)⟩

theorem leading_lasting {i : Nat} {file : Option Bytes} : Lasting i (Leading i file) := by
  rintro x y ⟨held, same⟩ kept
  exact ⟨kept.holder i held, (kept.place held).2.trans same⟩

/-- Process `i` in the race: it is ahead once it has returned `Ok`, and was beaten if it
has not. -/
def racer (mac : Bytes → Bytes → Bytes) (parented : Bool) (i : Nat) :
    Contract CallCmd Race (PinResult MasterKeyInitResult) where
  acts c x r y := Vault.works mac c.op x.vault r y.vault ∧ y = x.next i y.vault
  rely x y := x.Fair parented → y.Fair parented ∧ Race.Kept i x y
  guar x y := x.Fair parented → y.Fair parented ∧ ∀ j, j ≠ i → Race.Kept j x y
  ends r x := x.Fair parented → (∃ made, r = .ok made ∧ Ahead i x) ∨ ∃ e, r = .error e ∧ Beaten i x

section Judged

variable {mac : Bytes → Bytes → Bytes} {parented : Bool} {i : Nat} {z : Race × Race} {φ : Race → Prop}
  {ε α β : Type}

/-- The last step, and what is known after it. -/
structure At (parented : Bool) (i : Nat) (φ : Race → Prop) (z : Race × Race) : Prop where
  guar : z.1.Fair parented → z.2.Fair parented ∧ ∀ j, j ≠ i → Race.Kept j z.1 z.2
  fair : z.2.Fair parented
  known : φ z.2

/-- A part went through, or another process was first. -/
def Reaches (parented : Bool) (i : Nat) (φ : Race → Prop) (r : Except ε α) (z : Race × Race) : Prop :=
  (∃ a, r = .ok a ∧ At parented i φ z) ∨ ∃ e, r = .error e ∧ At parented i (Beaten i) z

/-- The judgement of a part of a racer's program. -/
abbrev Racing (mac : Bytes → Bytes → Bytes) (parented : Bool) (i : Nat) (x : Fallible KeyCmd ε α)
    (Q : Except ε α → Race × Race → Prop) (z : Race × Race) : Prop :=
  wpx
    (Amid (fun c x r y => Vault.works mac c x.vault r y.vault ∧ y = x.next i y.vault)
      fun x y => x.Fair parented → y.Fair parented ∧ Race.Kept i x y)
    (fun z => z.1.Fair parented → z.2.Fair parented ∧ ∀ j, j ≠ i → Race.Kept j z.1 z.2) x Q z

theorem racing_seq {x : Fallible KeyCmd ε α} {f : α → Fallible KeyCmd ε β} {ψ : Race → Prop}
    (first : Racing mac parented i x (Reaches parented i φ) z)
    (next : ∀ a z, At parented i φ z → Racing mac parented i (f a) (Reaches parented i ψ) z) :
    Racing mac parented i (x >>= f) (Reaches parented i ψ) z := by
  refine wpx_seq first ?_ ?_
  · rintro a z - (⟨b, same, at_⟩ | ⟨e, no, -⟩)
    · exact next a z at_
    · cases no
  · rintro e z - (⟨a, no, -⟩ | ⟨e', same, beaten⟩)
    · cases no
    · exact .inr ⟨e, rfl, beaten⟩

/-- An operation whose effect the others may meet. -/
theorem racing_op {c : KeyCmd} {read : Answer c → Except ε α} {Q : Except ε α → Race × Race → Prop}
    (lasting : Lasting i φ) (at_ : At parented i φ z)
    (done : ∀ x r v, x.Fair parented → φ x → Vault.works mac c x.vault r v →
      (x.next i v).Fair parented ∧ (∀ j, j ≠ i → Race.Kept j x (x.next i v)) ∧
      ∀ z, At parented i (· = x.next i v) z → Q (read r) z) :
    Racing mac parented i (op c read) Q z := by
  refine ⟨at_.guar, ?_⟩
  rintro r ⟨x, y⟩ ⟨relied, act, moved⟩
  obtain ⟨fair, kept⟩ := relied at_.fair
  dsimp only at fair kept act moved
  obtain ⟨fair', guar, post⟩ := done x r y.vault fair (lasting _ _ at_.known kept) act
  rw [← moved] at fair' guar post
  exact ⟨fun _ => ⟨fair', guar⟩, post _ ⟨fun _ => ⟨fair', guar⟩, fair', rfl⟩⟩

/-- An operation without an effect. -/
theorem racing_quiet {c : KeyCmd} {read : Answer c → Except ε α}
    {Q : Except ε α → Race × Race → Prop} (quiet : ∀ v r v', Vault.works mac c v r v' → v' = v)
    (lasting : Lasting i φ) (at_ : At parented i φ z)
    (done : ∀ r z, At parented i φ z → Vault.works mac c z.2.vault r z.2.vault → Q (read r) z) :
    Racing mac parented i (op c read) Q z := by
  refine racing_op lasting at_ fun x r v fair known act => ?_
  obtain rfl := quiet _ _ _ act
  rw [Race.next_same]
  refine ⟨fair, fun j _ => .refl, fun z at_ => done r z ⟨at_.guar, at_.fair, ?_⟩ ?_⟩
  · rw [at_.known]
    exact known
  · rw [at_.known]
    exact act

/-- A command of the TPM without an effect. -/
theorem racing_tpm {c : ObjectCmd} {read : Except TssError c.Out → Except ε α}
    {Q : Except ε α → Race × Race → Prop} (same : ∀ o, (Objects.exec mac c o).2 = o)
    (lasting : Lasting i φ) (at_ : At parented i φ z)
    (done : ∀ z, At parented i φ z → Q (read (Objects.exec mac c z.2.vault.1).1) z) :
    Racing mac parented i (op (Sum.inl c) read) Q z := by
  have quiet : ∀ v r v', Vault.works mac (.inl c) v r v' → v' = v := by
    rintro ⟨o, d⟩ r ⟨o', d'⟩ ⟨answer, kept⟩
    have after : o' = (Objects.exec mac c o).2 := (congrArg Prod.snd answer).symm
    rw [same o] at after
    exact Prod.ext after kept
  refine racing_quiet quiet lasting at_ fun r z at_ act => ?_
  have answer : (Objects.exec mac c z.2.vault.1).1 = r := congrArg Prod.fst act.1
  rw [← answer]
  exact done z at_

/-- A call of the process without an effect. -/
theorem racing_inert {c : SysCmd} {read : Answer c → Except ε α}
    {Q : Except ε α → Race × Race → Prop} (inert : Inert c) (lasting : Lasting i φ)
    (at_ : At parented i φ z)
    (done : ∀ r z, At parented i φ z → Disk.works c z.2.vault.2 r z.2.vault.2 → Q (read r) z) :
    Racing mac parented i (op (Sum.inr c) read) Q z := by
  have quiet : ∀ v r v', Vault.works mac (.inr c) v r v' → v' = v := by
    rintro ⟨o, d⟩ r ⟨o', d'⟩ ⟨works, kept⟩
    exact Prod.ext kept (inert_same inert (Disk.works_any works))
  exact racing_quiet quiet lasting at_ fun r z at_ act => done r z at_ act.1

/-- A probe is right. -/
theorem racing_probe {handle : UInt32} {h : PersistentTpmHandle}
    {Q : PinResult Bool → Race × Race → Prop} (known : MasterKey.persistentHandle handle = .ok h)
    (lasting : Lasting i φ) (at_ : At parented i φ z)
    (done : ∀ z, At parented i φ z → Q (.ok (z.2.vault.1.persistent h).isSome) z) :
    Racing mac parented i (MasterKey.persistentPresent handle) Q z := by
  unfold MasterKey.persistentPresent
  rw [known, ofResult_ok_bind]
  refine wpx_bind.2 (wpx_attempt.2 (racing_tpm (fun _ => rfl) lasting at_ fun z at_ => ?_))
  have post := done z at_
  cases there : z.2.vault.1.persistent h with
  | some x =>
    rw [there] at post
    simp only [Objects.exec, there, Option.isSome_some, if_true]
    exact ⟨at_.guar, post⟩
  | none =>
    rw [there] at post
    simp only [Objects.exec, there, Option.isSome_none, Bool.false_eq_true, if_false]
    exact ⟨at_.guar, post⟩

/-! ## Making the parent -/

/-- A new parent is put at the handle, or another process made one. -/
theorem racing_evictParent (at_ : At parented i (Starting i) z) (bare : parented = false) :
    Racing mac parented i
      (send (.evictControl (.transient rsaParent) rsaHandle))
      (Reaches parented i (Parented i rsaParent)) z := by
  refine racing_op starting_lasting at_ ?_
  rintro x r ⟨o, d⟩ fair ⟨idle, made⟩ ⟨act, kept⟩
  obtain rfl : d = x.vault.2 := kept
  cases there : x.parent with
  | some p =>
    -- somebody made it
    have refused : Objects.exec mac (.evictControl (.transient rsaParent) rsaHandle) x.vault.1 =
        (refuse .nvDefined, x.vault.1) := by
      have held : x.vault.1.persistent rsaHandle = some p := there
      simp [Objects.exec, Objects.evictControl, held]
    obtain ⟨rfl, rfl⟩ := Prod.mk.inj (refused.symm.trans act)
    rw [Race.next_same]
    refine ⟨fair, fun j _ => .refl, fun z at_ => .inr ⟨_, rfl, at_.guar, at_.fair, ?_⟩⟩
    rw [at_.known]
    have someone := fair.made
    rw [there, bare] at someone
    obtain ⟨j, maker⟩ := Option.isSome_iff_exists.1 someone.symm
    exact ⟨idle, j, fun same => made (same ▸ maker), .inr maker⟩
  | none =>
    have free : x.vault.1.persistent rsaHandle = none := there
    have put : Objects.exec mac (.evictControl (.transient rsaParent) rsaHandle) x.vault.1 =
        (.ok (some rsaHandle), x.vault.1.set rsaHandle (some rsaParent)) := by
      simp [Objects.exec, Objects.evictControl, free]
    obtain ⟨rfl, rfl⟩ := Prod.mk.inj (put.symm.trans act)
    have nobody : x.maker = none := by
      have none_ := fair.made
      cases maker : x.maker with
      | none => rfl
      | some j =>
        rw [there, bare, maker] at none_
        cases none_
    have same : (x.vault.1.set rsaHandle (some rsaParent)).persistent hmacHandle = x.key := by
      simp [Race.key]
    have made_ : (x.vault.1.set rsaHandle (some rsaParent)).persistent rsaHandle =
        some rsaParent := by
      simp
    rw [Race.next_parent there]
    refine ⟨?_, fun j ne => ?_, fun z at_ => .inl ⟨_, rfl, at_.guar, at_.fair, ?_⟩⟩
    · constructor
      case key => exact (congrArg Option.isSome same).trans fair.key
      case file => exact fair.file
      case parent =>
        intro p put
        cases made_.symm.trans put
        rfl
      case made =>
        rw [bare]
        exact congrArg Option.isSome made_
    · constructor
      case holder => exact fun _ => id
      case place => exact fun _ => ⟨same, rfl⟩
      case held => exact id
      case parent =>
        intro p was
        cases there.symm.trans was
      case maker =>
        intro k was
        cases nobody.symm.trans was
      case made => exact fun was => absurd (Option.some.inj was).symm ne
    · rw [at_.known]
      exact ⟨idle, made_⟩

/-- What is flushed does not matter. -/
theorem racing_flush (lasting : Lasting i φ) (at_ : At parented i φ z) :
    Racing mac parented i (do
      let _ ← (attempt (ask .flushContext) : KeyM (Except TssError Unit))
      pure ()) (Reaches parented i φ) z := by
  refine wpx_bind.2 (wpx_attempt.2 (racing_tpm (fun _ => rfl) lasting at_ fun z at_ => ?_))
  exact ⟨at_.guar, .inl ⟨_, rfl, at_⟩⟩

theorem racing_createRsa (at_ : At parented i (Starting i) z) (bare : parented = false) :
    Racing mac parented i MasterKey.createAndPersistRsaParent
      (Reaches parented i (Parented i rsaParent)) z := by
  unfold MasterKey.createAndPersistRsaParent
  refine wpx_bind.2 (racing_tpm (fun _ => rfl) starting_lasting at_ fun z at_ => ?_)
  dsimp only [Objects.exec, Except.mapError]
  rw [persistentHandle_rsa, ofResult_ok_bind]
  refine racing_seq (racing_evictParent at_ bare) ?_
  exact fun _ z at_ => racing_flush parented_lasting at_

/-! ## Putting the key in place -/

/-- The key is put at the handle, or another process was first. -/
theorem racing_evictKey {key : Bytes} {p : KeyObject} (at_ : At parented i (Parented i p) z) :
    Racing mac parented i
      (send (.evictControl (.transient (hmacObject key)) hmacHandle))
      (Reaches parented i (Leading i none)) z := by
  refine racing_op parented_lasting at_ ?_
  rintro x r ⟨o, d⟩ fair ⟨idle, there⟩ ⟨act, kept⟩
  obtain rfl : d = x.vault.2 := kept
  cases held : x.key with
  | some k =>
    have present : x.vault.1.persistent hmacHandle = some k := held
    have refused : Objects.exec mac (.evictControl (.transient (hmacObject key)) hmacHandle)
        x.vault.1 = (refuse .nvDefined, x.vault.1) := by
      simp [Objects.exec, Objects.evictControl, present]
    obtain ⟨rfl, rfl⟩ := Prod.mk.inj (refused.symm.trans act)
    rw [Race.next_same]
    refine ⟨fair, fun j _ => .refl, fun z at_ => .inr ⟨_, rfl, at_.guar, at_.fair, ?_⟩⟩
    rw [at_.known]
    have someone := fair.key
    rw [held] at someone
    obtain ⟨j, holder⟩ := Option.isSome_iff_exists.1 someone.symm
    exact ⟨idle, j, fun same => idle (same ▸ holder), .inl holder⟩
  | none =>
    have free : x.vault.1.persistent hmacHandle = none := held
    have put : Objects.exec mac (.evictControl (.transient (hmacObject key)) hmacHandle)
        x.vault.1 = (.ok (some hmacHandle), x.vault.1.set hmacHandle (some (hmacObject key))) := by
      simp [Objects.exec, Objects.evictControl, free]
    obtain ⟨rfl, rfl⟩ := Prod.mk.inj (put.symm.trans act)
    have nobody : x.holder = none := by
      have none_ := fair.key
      cases holder : x.holder with
      | none => rfl
      | some j =>
        rw [held, holder] at none_
        cases none_
    have same : (x.vault.1.set hmacHandle (some (hmacObject key))).persistent rsaHandle =
        x.parent := by
      simp [Race.parent]
    have here : (x.vault.1.set hmacHandle (some (hmacObject key))).persistent hmacHandle =
        some (hmacObject key) := by simp
    rw [Race.next_key held]
    refine ⟨?_, fun j ne => ?_, fun z at_ => .inl ⟨_, rfl, at_.guar, at_.fair, ?_⟩⟩
    · constructor
      case key => exact congrArg Option.isSome here
      case file =>
        intro no
        cases no
      case parent => exact fun p was => fair.parent p (same.symm.trans was)
      case made => exact (congrArg Option.isSome same).trans fair.made
    · constructor
      case holder =>
        intro k was
        cases nobody.symm.trans was
      case place =>
        intro was
        cases nobody.symm.trans was
      case held => exact fun was => absurd (Option.some.inj was).symm ne
      case parent => exact fun p was => same.trans was
      case maker => exact fun _ => id
      case made => exact id
    · rw [at_.known]
      exact ⟨rfl, fair.file nobody⟩

theorem racing_createHmac {hmacKey : Vector UInt8 HMAC_KEY_LEN} {p : KeyObject}
    (at_ : At parented i (Parented i p) z) :
    Racing mac parented i (MasterKey.createAndPersistHmacKey hmacKey)
      (Reaches parented i (Leading i none)) z := by
  unfold MasterKey.createAndPersistHmacKey
  rw [persistentHandle_rsa, ofResult_ok_bind]
  refine wpx_bind.2 (racing_tpm (fun _ => rfl) parented_lasting at_ fun z at_ => ?_)
  have there : z.2.vault.1.persistent rsaHandle = some p := at_.known.2
  simp only [Objects.exec, there, Option.isSome_some, if_true, Except.mapError]
  refine wpx_bind.2 (racing_tpm (fun _ => rfl) parented_lasting at_ fun z at_ => ?_)
  have there : z.2.vault.1.persistent rsaHandle = some p := at_.known.2
  have kind : p.isParent = true := at_.fair.parent p at_.known.2
  simp only [Objects.exec, Objects.create, there, kind, if_true, Except.mapError]
  rw [if_neg (by decide)]
  refine wpx_bind.2 (racing_tpm (fun _ => rfl) parented_lasting at_ fun z at_ => ?_)
  have there : z.2.vault.1.persistent rsaHandle = some p := at_.known.2
  simp only [Objects.exec, Objects.load, there, if_true, Except.mapError]
  rw [persistentHandle_hmac, ofResult_ok_bind]
  refine racing_seq (racing_evictKey at_) ?_
  exact fun _ z at_ => racing_flush leading_lasting at_

theorem racing_provision {policy : PinPolicy} {hmacKey : Vector UInt8 HMAC_KEY_LEN}
    (at_ : At parented i (Starting i) z) :
    Racing mac parented i (MasterKey.provisionTpmObjects policy hmacKey)
      (Reaches parented i (Leading i none)) z := by
  -- from the second probe on, with a parent
  have second : ∀ p z, At parented i (Parented i p) z → Racing mac parented i (do
      let hmac ← MasterKey.persistentPresent MASTER_KEY_HMAC_HANDLE
      if hmac then throw (.tpmError (.locale "mk_hmac_handle_already_exists"))
      else MasterKey.createAndPersistHmacKey hmacKey) (Reaches parented i (Leading i none)) z := by
    intro p z at_
    refine wpx_bind.2 (racing_probe persistentHandle_hmac parented_lasting at_ fun z at_ => ?_)
    have key := at_.fair.key
    cases held : z.2.key with
    | some k =>
      have there : z.2.vault.1.persistent hmacHandle = some k := held
      rw [held] at key
      obtain ⟨j, holder⟩ := Option.isSome_iff_exists.1 key.symm
      simp only [there, Option.isSome_some, if_true]
      refine ⟨at_.guar, .inr ⟨_, rfl, at_.guar, at_.fair, at_.known.1, j, ?_, .inl holder⟩⟩
      exact fun same => at_.known.1 (same ▸ holder)
    | none =>
      have free : z.2.vault.1.persistent hmacHandle = none := held
      simp only [free, Option.isSome_none, Bool.false_eq_true, if_false]
      exact racing_createHmac at_
  unfold MasterKey.provisionTpmObjects
  refine wpx_bind.2 (racing_tpm (fun _ => rfl) starting_lasting at_ fun z at_ => ?_)
  dsimp only [Objects.exec, Except.mapError]
  refine wpx_bind.2 (racing_probe persistentHandle_rsa starting_lasting at_ fun z at_ => ?_)
  have made := at_.fair.made
  cases present : z.2.parent with
  | some p =>
    have there : z.2.vault.1.persistent rsaHandle = some p := present
    simp only [there, Option.isSome_some, if_true]
    exact second p z ⟨at_.guar, at_.fair, at_.known.1, present⟩
  | none =>
    have free : z.2.vault.1.persistent rsaHandle = none := present
    have bare : parented = false := by
      rw [present] at made
      cases parented with
      | false => rfl
      | true => cases made
    simp only [free, Option.isSome_none, Bool.false_eq_true, if_false]
    exact racing_seq (racing_createRsa at_ bare) fun _ z at_ => second rsaParent z at_

/-! ## Sealing it -/

/-- The holder changes the file. -/
theorem racing_file {c : SysCmd} {file : Option Bytes} {read : Answer c → Except ε α}
    {Q : Except ε α → Race × Race → Prop} (at_ : At parented i (Leading i file) z)
    (done : ∀ d r d' z, d.sealedFile = file → Disk.works c d r d' →
      At parented i (Leading i d'.sealedFile) z → Q (read r) z) :
    Racing mac parented i (op (Sum.inr c) read) Q z := by
  refine racing_op leading_lasting at_ ?_
  rintro x r ⟨o, d⟩ fair ⟨holder, same⟩ ⟨works, kept⟩
  obtain rfl : o = x.vault.1 := kept
  rw [Race.next_file]
  refine ⟨?_, fun j ne => ?_, fun z at_ => done _ r d z same works ⟨at_.guar, at_.fair, ?_⟩⟩
  · constructor
    case key => exact fair.key
    case file =>
      intro none_
      cases holder.symm.trans none_
    case parent => exact fair.parent
    case made => exact fair.made
  · constructor
    case holder => exact fun _ => id
    case place => exact fun was => absurd (Option.some.inj (was.symm.trans holder)) ne
    case held => exact id
    case parent => exact fun _ => id
    case maker => exact fun _ => id
    case made => exact id
  · rw [at_.known]
    exact ⟨holder, rfl⟩

theorem racing_ensureDir {tighten : Bool} (lasting : Lasting i φ) (at_ : At parented i φ z) :
    Racing mac parented i (MasterKey.ensureDirForPath tighten)
      (fun r z => r = .ok () ∧ At parented i φ z) z := by
  unfold MasterKey.ensureDirForPath
  refine wpx_bind.2 (racing_inert trivial lasting at_ ?_)
  rintro r z at_ ⟨-, rfl⟩
  cases tighten with
  | false => exact ⟨at_.guar, rfl, at_⟩
  | true =>
    refine wpx_bind.2 (wpx_attempt.2 (racing_inert trivial lasting at_ fun r z at_ _ => ?_))
    refine wpx_bind.2 (wpx_attempt.2 (racing_inert trivial lasting at_ fun r z at_ _ => ?_))
    exact ⟨at_.guar, rfl, at_⟩

/-- The first holder finds no file, so the key is sealed. -/
theorem racing_seal {crypto : Crypto} {hmacKey : Vector UInt8 HMAC_KEY_LEN} {phrase : Str}
    (total : crypto.Total) (at_ : At parented i (Leading i none) z) :
    Racing mac parented i (MasterKey.sealKeyBytesToPath crypto hmacKey phrase)
      (fun r z => r = .ok () ∧ ∃ file, At parented i (Leading i file) z) z := by
  unfold MasterKey.sealKeyBytesToPath
  refine wpx_seq (racing_ensureDir leading_lasting at_) ?_ fun e z _ post => by cases post.1
  rintro _ z - ⟨-, at_⟩
  refine wpx_bind.2 (racing_inert trivial leading_lasting at_ fun salt z at_ _ => ?_)
  refine wpx_bind.2 (racing_inert trivial leading_lasting at_ fun nonce z at_ _ => ?_)
  obtain ⟨aesKey, hashed⟩ := total.hashPasswordInto phrase salt.toList (by simp)
  obtain ⟨ciphertext, encrypted⟩ :=
    total.encrypt aesKey nonce.toList hmacKey.toList (by simp) (by simp)
  simp only [MasterKey.deriveAesKeyFromPhrase, hashed, Except.mapError, ofResult_ok_bind, encrypted]
  refine wpx_bind.2 (racing_inert trivial leading_lasting at_ fun createdUnixMs z at_ _ => ?_)
  obtain ⟨json, written⟩ := total.toVec ⟨SEALED_FILE_VERSION, createdUnixMs,
    crypto.encode salt.toList, crypto.encode nonce.toList, crypto.encode ciphertext⟩
  simp only [written, ofResult_ok_bind]
  refine wpx_bind.2 (racing_file at_ ?_)
  rintro ⟨file⟩ r d z rfl ⟨rfl, rfl⟩ at_
  refine wpx_bind.2 (racing_file at_ ?_)
  rintro d' r d z - ⟨rfl, rfl⟩ at_
  refine wpx_bind.2 (racing_file at_ ?_)
  rintro d' r d z - ⟨rfl, rfl⟩ at_
  refine wpx_bind.2 (wpx_attempt.2 (racing_inert trivial leading_lasting at_ fun r z at_ _ => ?_))
  refine wpx_bind.2 (wpx_attempt.2 (racing_inert trivial leading_lasting at_ fun r z at_ _ => ?_))
  exact ⟨at_.guar, rfl, _, at_⟩

theorem racing_status {policy : PinPolicy} (lasting : Lasting i φ) (at_ : At parented i φ z) :
    Racing mac parented i (MasterKey.status policy)
      (fun r z => (∃ status, r = .ok status) ∧ At parented i φ z) z := by
  unfold MasterKey.status MasterKey.tpmStatus
  refine wpx_bind.2 (racing_inert trivial lasting at_ fun present z at_ _ => ?_)
  refine wpx_bind.2 (wpx_bind.2 (racing_tpm (fun _ => rfl) lasting at_ fun z at_ => ?_))
  dsimp only [Objects.exec, Except.mapError]
  refine wpx_bind.2 (racing_probe persistentHandle_rsa lasting at_ fun z at_ => ?_)
  refine wpx_bind.2 (racing_probe persistentHandle_hmac lasting at_ fun z at_ => ?_)
  exact ⟨at_.guar, at_.guar, ⟨_, rfl⟩, at_⟩

/-! ## The whole -/

theorem racing_label {l : Call} {x : Fallible KeyCmd ε α} {f : α → Fallible CallCmd ε β}
    {P : Except ε α → Race × Race → Prop} {Q : Except ε β → Race × Race → Prop}
    (part : Racing mac parented i x P z)
    (next : ∀ a z, P (.ok a) z →
      wpx (Amid (racer mac parented i).acts (racer mac parented i).rely)
        (fun z => (racer mac parented i).guar z.1 z.2) (f a) Q z)
    (fails : ∀ e z, P (.error e) z → Q (.error e) z) :
    wpx (Amid (racer mac parented i).acts (racer mac parented i).rely)
      (fun z => (racer mac parented i).guar z.1 z.2) (x.label l >>= f) Q z :=
  wpx_seq (wpx_label.2 part) (fun a z _ post => next a z post) fun e z _ post => fails e z post

/-- An init of root is ahead in the end, or was beaten. -/
theorem racing_init {policy : PinPolicy} {crypto : Crypto} (total : crypto.Total)
    (at_ : At parented i (Starting i) z) :
    wpx (Amid (racer mac parented i).acts (racer mac parented i).rely)
      (fun z => (racer mac parented i).guar z.1 z.2) (MasterKey.init policy crypto 0)
      (Reaches parented i (Ahead i)) z := by
  unfold MasterKey.init MasterKey.ensureRootRealUid
  rw [if_neg (not_not.2 rfl), ofResult_ok_bind]
  refine racing_label (P := fun r z => ∃ present, r = .ok present ∧ At parented i (Starting i) z ∧
    present = z.2.file.isSome) ?_ ?_ ?_
  · refine racing_inert trivial starting_lasting at_ ?_
    rintro r z at_ ⟨-, same⟩
    exact ⟨r, rfl, at_, same⟩
  swap
  · rintro e z ⟨present, no, -⟩
    cases no
  rintro present z ⟨_, ⟨⟩, at_, same⟩
  cases present with
  | true =>
    -- whoever sealed a key put it in place
    have someone : z.2.holder ≠ none := by
      intro none_
      rw [at_.fair.file none_] at same
      cases same
    obtain ⟨j, holder⟩ := Option.ne_none_iff_exists'.1 someone
    rw [if_pos rfl]
    refine ⟨at_.guar, .inr ⟨_, rfl, at_.guar, at_.fair, at_.known.1, j, ?_, .inl holder⟩⟩
    exact fun same => at_.known.1 (same ▸ holder)
  | false =>
  rw [if_neg Bool.false_ne_true]
  refine racing_label (P := fun r z => (∃ a, r = .ok a) ∧ At parented i (Starting i) z) ?_ ?_ ?_
  · exact racing_inert trivial starting_lasting at_ fun r z at_ _ => ⟨⟨_, rfl⟩, at_⟩
  swap
  · rintro e z ⟨⟨a, no⟩, -⟩
    cases no
  rintro hmacKey z ⟨-, at_⟩
  refine racing_label (P := fun r z => (∃ a, r = .ok a) ∧ At parented i (Starting i) z) ?_ ?_ ?_
  · refine racing_inert trivial starting_lasting at_ ?_
    rintro r z at_ ⟨-, phrase, rfl⟩
    exact ⟨⟨_, rfl⟩, at_⟩
  swap
  · rintro e z ⟨⟨a, no⟩, -⟩
    cases no
  rintro phrase z ⟨-, at_⟩
  refine racing_label (racing_provision at_) ?_ ?_
  swap
  · rintro e z (⟨a, no, -⟩ | ⟨e', -, beaten⟩)
    · cases no
    · exact .inr ⟨e, rfl, beaten⟩
  rintro _ z (⟨_, -, at_⟩ | ⟨e, no, -⟩)
  swap
  · cases no
  refine wpx_bind.2 (wpx_attempt.2 (wpx_mono (wpx_label.2 (racing_ensureDir leading_lasting at_)) ?_))
  rintro _ z - ⟨-, at_⟩
  refine wpx_bind.2 (wpx_attempt.2 (wpx_mono (wpx_label.2 (racing_seal total at_)) ?_))
  rintro _ z - ⟨rfl, file, at_⟩
  refine racing_label (racing_status leading_lasting at_) ?_ ?_
  · rintro status z ⟨-, at_⟩
    exact ⟨at_.guar, .inl ⟨_, rfl, at_.guar, at_.fair, at_.known.1⟩⟩
  · rintro e z ⟨⟨status, no⟩, -⟩
    cases no

end Judged

section Finish

variable {mac : Bytes → Bytes → Bytes} {crypto : Crypto} {procs : List (PinPolicy × UInt32)}
  {v v' : Vault} {events : List (Nat × Event CallCmd Vault)}
  {results : List (PinResult MasterKeyInitResult)}

/-- Whoever is first in anything is one of the racers. -/
theorem race_among {parented : Bool} {n : Nat} {x y : Race}
    (chain : Relation.ReflTransGen (fun x y => ∃ i, i < n ∧ (racer mac parented i).guar x y) x y)
    (fair : x.Fair parented) (start : ∀ j, x.holder = some j ∨ x.maker = some j → j < n) :
    y.Fair parented ∧ ∀ j, y.holder = some j ∨ y.maker = some j → j < n := by
  induction chain with
  | refl => exact ⟨fair, start⟩
  | tail _ step ih =>
    obtain ⟨fair, among⟩ := ih
    obtain ⟨i, inside, guar⟩ := step
    obtain ⟨fair', kept⟩ := guar fair
    refine ⟨fair', fun j first => ?_⟩
    by_cases same : j = i
    · exact same ▸ inside
    · exact among j (first.imp (kept j same).held (kept j same).made)

/-- An init that begins on such a machine keeps its contract. -/
theorem init_keeps {parented : Bool} {policy : PinPolicy} {i : Nat} (total : crypto.Total)
    (fair : Race.Fair parented ⟨v, none, none⟩) :
    (racer mac parented i).Keeps (MasterKey.program policy crypto 0 .init).run
      (⟨v, none, none⟩ : Race) := by
  refine ⟨(⟨v, none, none⟩, ⟨v, none, none⟩), ?_, fun fair => ⟨fair, .refl⟩⟩
  have idle : Starting i ⟨v, none, none⟩ := by
    constructor
    · intro no
      cases no
    · intro no
      cases no
  have self : At parented i (Starting i) (⟨v, none, none⟩, ⟨v, none, none⟩) :=
    ⟨fun fair => ⟨fair, fun _ _ => .refl⟩, fair, idle⟩
  refine wpx_mono (racing_init total self) ?_
  rintro r z guar (⟨made, rfl, at_⟩ | ⟨e, rfl, at_⟩) y relied -
  · exact .inl ⟨made, rfl, (relied at_.fair).2.holder i at_.known⟩
  · exact .inr ⟨e, rfl, beaten_lasting _ _ at_.known (relied at_.fair).2⟩

/-- Once all have finished somebody holds the key: the first of them was not beaten, or by one
that only a holder can beat. -/
theorem race_held {n : Nat} {x : Race} (pos : 0 < n) (inside : ∀ j, j < n → ∃ r, results[j]? = some r)
    (among : ∀ j, x.holder = some j ∨ x.maker = some j → j < n)
    (ended : ∀ i r, results[i]? = some r →
      (∃ made, r = .ok made ∧ Ahead i x) ∨ ∃ e, r = .error e ∧ Beaten i x) :
    ∃ w, x.holder = some w := by
  obtain ⟨r, first⟩ := inside 0 pos
  rcases ended 0 r first with ⟨-, -, ahead⟩ | ⟨-, -, -, j, -, held | made⟩
  · exact ⟨0, ahead⟩
  · exact ⟨j, held⟩
  obtain ⟨r, later⟩ := inside j (among j (.inr made))
  rcases ended j r later with ⟨-, -, ahead⟩ | ⟨-, -, -, k, other, held | made'⟩
  · exact ⟨j, ahead⟩
  · exact ⟨k, held⟩
  · exact absurd (Option.some.inj (made'.symm.trans made)) other

/-- On a machine where nothing fails, without a key and a file, exactly one of the inits of
root returns `Ok`, however their calls fall between each other: the sealed file holds its
key under its phrase, and so does the TPM. -/
theorem exactly_one_init (total : crypto.Total) (some_ : procs ≠ []) (roots : ∀ x ∈ procs, x.2 = 0)
    (parent : ∀ p, v.1.persistent rsaHandle = some p → p.isParent = true)
    (free : v.1.persistent hmacHandle = none) (absent : v.2.sealedFile = none)
    (run : Pool.Steps (Vault.works mac).labelled (inits crypto procs) v events
      (results.map .ret) v') :
    ∃ (w : Nat) (made : MasterKeyInitResult) (key json : Bytes), results[w]? = some (.ok made) ∧
      (∀ j r, j ≠ w → results[j]? = some r → ∃ e, r = .error e) ∧
      Sealed crypto made.recoveryPhrase key json ∧ v'.2.sealedFile = some (json ++ [10]) ∧
      v'.1.persistent hmacHandle = some (hmacObject key) := by
  obtain ⟨parented, known⟩ : ∃ b, (v.1.persistent rsaHandle).isSome = b := ⟨_, rfl⟩
  have fair : Race.Fair parented ⟨v, none, none⟩ := by
    constructor
    case key => exact congrArg Option.isSome free
    case file => exact fun _ => absent
    case parent => exact parent
    case made => exact known.trans (Bool.or_false _).symm
  have begins : ∀ i p, (inits crypto procs)[i]? = some p →
      (racer mac parented i).Keeps p (⟨v, none, none⟩ : Race) := by
    intro i p at_
    obtain ⟨proc, member, rfl⟩ :
        ∃ proc, procs[i]? = some proc ∧ (MasterKey.program proc.1 crypto proc.2 .init).run = p := by
      simpa [inits] using at_
    obtain ⟨policy, uid⟩ := proc
    obtain rfl : uid = 0 := roots _ (List.mem_of_getElem? member)
    exact init_keeps total fair
  obtain ⟨x, rfl, kept, chain, -⟩ :=
    @Pool.Steps.keeps CallCmd Vault Race _ _ (Vault.works mac).labelled _ _ _ _ _ Race.vault
      (fun i => racer mac parented i) (fun _ => True) (fun _ _ fair => ⟨fair, .refl⟩)
      (fun _ _ _ _ first second fair => by
        obtain ⟨fair', kept⟩ := first fair
        obtain ⟨fair'', kept'⟩ := second fair'
        exact ⟨fair'', kept.trans kept'⟩)
      (fun i e x r s' act _ => ⟨x.next i s', rfl, act, rfl⟩)
      (fun i j ne x y guar fair => ⟨(guar fair).1, (guar fair).2 j (Ne.symm ne)⟩)
      run (fun _ _ => trivial) ⟨v, none, none⟩ rfl begins
  obtain ⟨fair', among⟩ := race_among chain fair (fun j first => by
    rcases first with no | no
    · cases no
    · cases no)
  have lengths : results.length = (inits crypto procs).length := by
    have same := run.length
    simpa using same
  have inside : ∀ j, j < (inits crypto procs).length → ∃ r, results[j]? = some r := by
    intro j small
    exact ⟨_, List.getElem?_eq_getElem (lengths ▸ small)⟩
  have ended : ∀ i r, results[i]? = some r →
      (∃ made, r = .ok made ∧ Ahead i x) ∨ ∃ e, r = .error e ∧ Beaten i x := by
    intro i r at_
    exact (kept i (.ret r) (by simp [at_])).ret fair'
  have pos : 0 < (inits crypto procs).length := by
    simpa [inits] using List.length_pos_of_ne_nil some_
  obtain ⟨w, ahead⟩ := race_held pos inside among ended
  obtain ⟨r, returned⟩ := inside w (among w (.inl ahead))
  rcases ended w r returned with ⟨made, rfl, -⟩ | ⟨-, -, other, -⟩
  swap
  · exact absurd ahead other
  obtain ⟨y, same, won⟩ := inits_won (run.mono fun _ _ _ _ works => Vault.works_any works)
  obtain ⟨key, json, sealed_, -, place⟩ := won w made (by simp [returned])
  obtain ⟨held, file⟩ := Prod.mk.inj place
  rw [same] at held file
  refine ⟨w, made, key, json, returned, fun j r other at_ => ?_, sealed_, file, held⟩
  rcases ended j r at_ with ⟨-, -, held⟩ | ⟨e, error, -⟩
  · exact absurd (Option.some.inj (held.symm.trans ahead)) other
  · exact ⟨e, error⟩

end Finish

/-! ## Samples -/

/-- The sample crates, refusing nothing. -/
def openCrypto : Crypto :=
  { sampleCrypto with encrypt := fun _ _ _ => .ok [7], toVec := fun _ => .ok [8, 9] }

theorem openCrypto_total : openCrypto.Total :=
  ⟨fun _ _ _ => ⟨_, rfl⟩, fun _ _ _ _ _ => ⟨_, rfl⟩, fun _ => ⟨_, rfl⟩⟩

theorem Vault.exec_works {mac : Bytes → Bytes → Bytes} :
    Within (Vault.exec mac) id (Vault.works mac) := by
  rintro (c | c) ⟨o, d⟩
  · exact ⟨rfl, rfl⟩
  · refine ⟨?_, rfl⟩
    obtain ⟨file⟩ := d
    cases c with
    | createNew mode =>
      cases file with
      | none => exact ⟨rfl, rfl⟩
      | some data => exact ⟨⟨[], rfl⟩, rfl⟩
    | read =>
      cases file with
      | none => exact ⟨rfl, [], rfl⟩
      | some data => exact ⟨rfl, rfl⟩
    | removeFile =>
      cases file with
      | none => exact ⟨⟨[], rfl⟩, rfl⟩
      | some data => exact ⟨rfl, rfl⟩
    | mnemonic => exact ⟨rfl, _, rfl⟩
    | fillBytes len => exact rfl
    | nowUnixMs => exact rfl
    | _ => exact ⟨rfl, rfl⟩

/-- Three inits in turn on a machine without a key. -/
def threeInits : List (Prog CallCmd (PinResult MasterKeyInitResult)) × Vault :=
  Pool.play (Handler.labelled (Vault.exec sampleMac)) (Pool.inTurn ((List.range 120).map (· % 3)))
    (inits openCrypto [(.default, 0), (.default, 0), (.default, 0)]) emptyVault

theorem exactly_one_init_of_three : ∃ (results : List (PinResult MasterKeyInitResult)) (w : Nat)
    (made : MasterKeyInitResult), threeInits.1 = results.map .ret ∧ results[w]? = some (.ok made) ∧
      ∀ j r, j ≠ w → results[j]? = some r → ∃ e, r = .error e := by
  have within : Within (Handler.labelled (Vault.exec sampleMac) : Handler CallCmd Vault) id
      (Vault.works sampleMac).labelled := fun c v => Vault.exec_works c.op v
  have run := Pool.Steps.seen within (@Pool.steps_play CallCmd Vault Fault _ _ _
    (Handler.labelled (Vault.exec sampleMac)) (Pool.inTurn ((List.range 120).map (· % 3)))
    (inits openCrypto [(.default, 0), (.default, 0), (.default, 0)]) emptyVault Pool.inTurn_calm)
  have done : ∃ results : List (PinResult MasterKeyInitResult), threeInits.1 = results.map .ret :=
    Pool.exists_results (by decide +kernel)
  obtain ⟨results, same⟩ := done
  change threeInits.1 = _ at same
  have finished := same ▸ run
  have parent : ∀ p, emptyVault.1.persistent rsaHandle = some p → p.isParent = true := by
    intro p there
    cases there
  obtain ⟨w, made, -, -, won, lost, -⟩ := @exactly_one_init sampleMac openCrypto
    [(.default, 0), (.default, 0), (.default, 0)] emptyVault _ _ results openCrypto_total
    (List.cons_ne_nil _ _) (by simp) parent rfl rfl finished
  exact ⟨results, w, made, same, won, lost⟩

end Pinpam
