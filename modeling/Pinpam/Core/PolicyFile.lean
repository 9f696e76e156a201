import Pinpam.Core.Config
import Pinpam.Effect.Among
import Pinpam.Effect.Fault

/-!
# Where the policy comes from

`PinPolicy::cached` takes the policy from a file that has to belong to root and that nobody
else may write. It is opened once, and what is checked and read is what was opened: the
other users of the machine may meanwhile do what their permissions allow.
-/

namespace Pinpam
set_option autoImplicit false
open Pinpam.Effect

/-! ## Files -/

/-- `fs::Metadata`, as far as it is looked at. -/
structure Metadata where
  isFile : Bool
  uid : UInt32
  gid : UInt32
  mode : UInt32
  deriving DecidableEq

/-- A file, whatever its names are; the content is `none` where it is not UTF-8. -/
structure Inode where
  metadata : Metadata
  content : Option Str
  deriving DecidableEq

/-- The user of a process and its groups. -/
structure Credentials where
  uid : UInt32
  groups : List UInt32

/-- A permission, by the bit that gives it to the others. -/
def Metadata.permits (metadata : Metadata) (who : Credentials) (bit : UInt32) : Prop :=
  if who.uid = 0 then True
  else if who.uid = metadata.uid then metadata.mode &&& (bit <<< 6) ≠ 0
  else if metadata.gid ∈ who.groups then metadata.mode &&& (bit <<< 3) ≠ 0
  else metadata.mode &&& bit ≠ 0

instance {metadata : Metadata} {who : Credentials} {bit : UInt32} :
    Decidable (metadata.permits who bit) := by
  unfold Metadata.permits
  infer_instance

structure FileSystem where
  names : Str → Option Nat
  /-- a number stands for a file even when no name is left -/
  inodes : Nat → Option Inode

def FileSystem.put (d : FileSystem) (file : Nat) (inode : Inode) : FileSystem :=
  { d with inodes := Function.update d.inodes file (some inode) }

inductive FileCmd where
  | openFile (path : Str)
  | metadata (file : Nat)
  | readToString (file : Nat)

instance : Interface FileCmd where
  Answer
    | .openFile _ => Option Nat
    | .metadata _ => Option Metadata
    | .readToString _ => Option Str

instance : Failing FileCmd Unit where
  failAnswer _ e :=
    match e with
    | .openFile _ | .metadata _ | .readToString _ => none

/-- The calls of a process with these credentials; none of them changes anything. -/
def FileSystem.exec (who : Credentials) : Handler FileCmd FileSystem
  | .openFile path, d => (do
      let file ← d.names path
      let inode ← d.inodes file
      if inode.metadata.permits who 0o004 then some file else none, d)
  | .metadata file, d => ((d.inodes file).map Inode.metadata, d)
  | .readToString file, d => ((d.inodes file).bind Inode.content, d)

/-! ## The loader -/

/-- `metadata_is_secure`. -/
def metadataIsSecure (metadata : Metadata) : Bool :=
  if metadata.uid ≠ 0 then false
  else if (metadata.mode &&& 0o777) &&& 0o133 ≠ 0 then false
  else true

/-- `read_policy_if_secure`. -/
def readPolicyIfSecure (path : Str) : Prog FileCmd (Option Str) := do
  match ← (Prog.op (FileCmd.openFile path) : Prog FileCmd (Option Nat)) with
  | none => pure none
  | some file =>
    match ← (Prog.op (FileCmd.metadata file) : Prog FileCmd (Option Metadata)) with
    | none => pure none
    | some metadata =>
      if ¬ metadata.isFile then pure none
      else if ¬ metadataIsSecure metadata then pure none
      else Prog.op (FileCmd.readToString file)

namespace PinPolicy

variable (system : System)

/-- `load_from_path`. -/
def loadFromPath (path : Str) : Prog FileCmd (Option PinPolicy) := do
  match ← readPolicyIfSecure path with
  | none => pure none
  | some config => pure (parseConfig system config).toOption

/-- The first of the files that there is a policy in. -/
def loadFromPaths : List Str → Prog FileCmd PinPolicy
  | [] => pure .default
  | path :: paths => do
    match ← loadFromPath system path with
    | some policy => pure policy
    | none => loadFromPaths paths

def PATHS : List Str := ["/etc/pinpam/policy".toList]

/-- `load_from_standard_locations`. -/
def loadFromStandardLocations : Prog FileCmd PinPolicy := loadFromPaths system PATHS

/-- `cached`, with what the process has in `POLICY`. -/
def cached : Option PinPolicy → Prog FileCmd PinPolicy
  | some policy => pure policy
  | none => loadFromStandardLocations system

/-- The policies that a process works under, each time that it asks. -/
def asked : Nat → Option PinPolicy → Prog FileCmd (List PinPolicy)
  | 0, _ => pure []
  | n + 1, POLICY => do
    let policy ← cached system POLICY
    let rest ← asked n (some policy)
    pure (policy :: rest)

end PinPolicy

/-! ## The others -/

/-- What can be policy. -/
def Inode.secure (inode : Inode) : Bool := inode.metadata.isFile && metadataIsSecure inode.metadata

/-- A step of a user other than root. The names may be under anybody's control. -/
inductive FileSystem.Unprivileged : FileSystem → FileSystem → Prop where
  | link (d : FileSystem) (names : Str → Option Nat) : Unprivileged d { d with names }
  | create {d : FileSystem} {file : Nat} {inode : Inode} (free : d.inodes file = none)
      (own : inode.metadata.uid ≠ 0) : Unprivileged d (d.put file inode)
  | write {d : FileSystem} {file : Nat} {inode : Inode} {who : Credentials} (content : Option Str)
      (user : who.uid ≠ 0) (there : d.inodes file = some inode)
      (may : inode.metadata.permits who 0o002) : Unprivileged d (d.put file { inode with content })
  | chmod {d : FileSystem} {file : Nat} {inode : Inode} {who : Credentials} (gid mode : UInt32)
      (user : who.uid ≠ 0) (there : d.inodes file = some inode)
      (own : inode.metadata.uid = who.uid) :
      Unprivileged d
        (d.put file { inode with metadata := { inode.metadata with gid := gid, mode := mode } })

/-- The files that can be policy, as they are. -/
def FileSystem.trusted (d : FileSystem) (file : Nat) : Option Inode :=
  (d.inodes file).filter Inode.secure

section Trust

variable {d d' : FileSystem} {inode : Inode} {who : Credentials} {metadata : Metadata} {file : Nat}
  {system : System} {path : Str}

theorem metadataIsSecure_iff : metadataIsSecure metadata = true ↔
    metadata.uid = 0 ∧ metadata.mode &&& 0o133 = 0 := by
  have masks : (metadata.mode &&& 0o777) &&& 0o133 = metadata.mode &&& 0o133 := by
    rw [UInt32.and_assoc]
    rfl
  unfold metadataIsSecure
  rw [masks]
  by_cases root : metadata.uid = 0
  · by_cases bits : metadata.mode &&& 0o133 = 0
    · simp [root, bits]
    · simp [root, bits]
  · simp [root]

theorem secure_iff : inode.secure = true ↔ inode.metadata.isFile = true ∧ inode.metadata.uid = 0 ∧
    inode.metadata.mode &&& 0o133 = 0 := by
  unfold Inode.secure
  rw [Bool.and_eq_true, metadataIsSecure_iff]

/-- Nobody but root may write what can be policy. -/
theorem secure_unwritable (secure : inode.secure = true) (user : who.uid ≠ 0) :
    ¬ inode.metadata.permits who 0o002 := by
  obtain ⟨-, root, bits⟩ := secure_iff.1 secure
  have within : ∀ bit : UInt32, 0o133 &&& bit = bit → inode.metadata.mode &&& bit = 0 := by
    intro bit same
    rw [← same, ← UInt32.and_assoc, bits, UInt32.zero_and]
  have other : ¬ who.uid = inode.metadata.uid := fun same => user (same.trans root)
  have group : inode.metadata.mode &&& ((0o002 : UInt32) <<< 3) = 0 := within _ (by decide)
  have others : inode.metadata.mode &&& 0o002 = 0 := within _ (by decide)
  unfold Metadata.permits
  rw [if_neg user, if_neg other, group, others]
  simp

theorem trusted_put (same : inode.secure = false) (before : d.trusted file = none) :
    (d.put file inode).trusted = d.trusted := by
  funext other
  unfold FileSystem.trusted FileSystem.put
  by_cases at_ : other = file
  · subst at_
    dsimp only
    rw [Function.update_self, Option.filter_some, same]
    exact before.symm
  · dsimp only
    rw [Function.update_of_ne at_]

/-- The others cannot make, change or take away what can be policy. -/
theorem trusted_kept (step : FileSystem.Unprivileged d d') : d'.trusted = d.trusted := by
  cases step with
  | link names => rfl
  | @create file inode free own =>
    apply trusted_put
    · exact Bool.eq_false_iff.2 fun secure => own (secure_iff.1 secure).2.1
    · rw [FileSystem.trusted, free]
      rfl
  | @write file inode who content user there may =>
    have insecure : inode.secure = false :=
      Bool.eq_false_iff.2 fun secure => secure_unwritable secure user may
    apply trusted_put
    · exact insecure
    · rw [FileSystem.trusted, there, Option.filter_some, insecure]
      rfl
  | @chmod file inode who gid mode user there own =>
    have other : inode.metadata.uid ≠ 0 := own ▸ user
    have insecure : inode.secure = false :=
      Bool.eq_false_iff.2 fun secure => other (secure_iff.1 secure).2.1
    apply trusted_put
    · exact Bool.eq_false_iff.2 fun secure => other (secure_iff.1 secure).2.1
    · rw [FileSystem.trusted, there, Option.filter_some, insecure]
      rfl

/-- What a process gets to see of the files that can be policy: they are what they were, and
no other looks like one. -/
def Sees : Behaviour FileCmd (Nat → Option Inode)
  | .openFile _, trusted, _, trusted' => trusted' = trusted
  | .metadata file, trusted, r, trusted' => trusted' = trusted ∧
    ∀ metadata, r = some metadata → metadata.isFile = true → metadataIsSecure metadata = true →
      ∃ inode, trusted file = some inode
  | .readToString file, trusted, r, trusted' => trusted' = trusted ∧
    ∀ inode config, trusted file = some inode → r = some config → inode.content = some config

theorem exec_sees {e : FileCmd} {r : Answer e}
    (act : Faulty (FileSystem.exec who) (fun _ => True) e d r d') :
    Sees e d.trusted r d'.trusted := by
  cases act with
  | done =>
    cases e with
    | openFile path => rfl
    | metadata file =>
      refine ⟨rfl, fun metadata answered isFile secure => ?_⟩
      obtain ⟨inode, there, rfl⟩ := Option.map_eq_some_iff.1 answered
      have kept : inode.secure = true := by rw [Inode.secure, isFile, secure, Bool.and_self]
      exact ⟨inode, by rw [FileSystem.trusted, there, Option.filter_some, if_pos kept]⟩
    | readToString file =>
      refine ⟨rfl, fun inode config trusted answered => ?_⟩
      obtain ⟨there, -⟩ := Option.filter_eq_some_iff.1 trusted
      obtain ⟨inode', same, content⟩ := Option.bind_eq_some_iff.1 answered
      rw [there] at same
      cases same
      exact content
  | failed _ _ _ _ =>
    cases e with
    | openFile path => rfl
    | metadata file => exact ⟨rfl, nofun⟩
    | readToString file => exact ⟨rfl, nofun⟩

/-- A policy that is in a file which can be policy, or the default. -/
def Granted (system : System) (trusted : Nat → Option Inode) (policy : PinPolicy) : Prop :=
  policy = .default ∨ ∃ file inode config, trusted file = some inode ∧
    inode.content = some config ∧ PinPolicy.parseConfig system config = .ok policy

variable {trusted : Nat → Option Inode}

theorem wp_readPolicy : (readPolicyIfSecure path).wp Sees (fun _ => True)
    (fun r now => now = trusted ∧ ∀ config, r = some config →
      ∃ file inode, trusted file = some inode ∧ inode.content = some config) trusted := by
  have nothing : ∀ config, (none : Option Str) = some config →
      ∃ file inode, trusted file = some inode ∧ inode.content = some config := nofun
  refine ⟨trivial, ?_⟩
  rintro (_ | file) _ rfl
  · exact ⟨trivial, rfl, nothing⟩
  refine ⟨trivial, ?_⟩
  rintro (_ | metadata) _ ⟨rfl, seen⟩
  · exact ⟨trivial, rfl, nothing⟩
  dsimp only [Prog.bind]
  split
  · exact ⟨trivial, rfl, nothing⟩
  next isFile =>
  split
  · exact ⟨trivial, rfl, nothing⟩
  next secure =>
  obtain ⟨inode, there⟩ := seen metadata rfl (not_not.1 isFile) (not_not.1 secure)
  refine ⟨trivial, ?_⟩
  rintro r _ ⟨rfl, read⟩
  refine ⟨trivial, rfl, fun config answered => ?_⟩
  exact ⟨file, inode, there, read inode config there answered⟩

theorem wp_loadFromPaths {paths : List Str} :
    (PinPolicy.loadFromPaths system paths).wp Sees (fun _ => True)
      (fun policy now => now = trusted ∧ Granted system trusted policy) trusted := by
  induction paths with
  | nil => exact ⟨trivial, rfl, .inl rfl⟩
  | cons path paths ih =>
    refine Prog.wp_seq (Prog.wp_seq wp_readPolicy
      (Q := fun r now => now = trusted ∧ ∀ policy, r = some policy →
        Granted system trusted policy) ?_) ?_
    · rintro (_ | config) _ - ⟨rfl, from_⟩
      · exact ⟨trivial, rfl, nofun⟩
      · refine ⟨trivial, rfl, fun policy parsed => .inr ?_⟩
        obtain ⟨file, inode, there, content⟩ := from_ config rfl
        refine ⟨file, inode, config, there, content, ?_⟩
        cases read : PinPolicy.parseConfig system config with
        | ok policy' =>
          rw [read] at parsed
          cases parsed
          rfl
        | error e =>
          rw [read] at parsed
          cases parsed
    · rintro (_ | policy) _ - ⟨rfl, grants⟩
      · exact ih
      · exact ⟨trivial, rfl, grants policy rfl⟩

/-- The cell keeps what was loaded. -/
theorem asked_some {policy : PinPolicy} {n : Nat} :
    PinPolicy.asked system n (some policy) = pure (List.replicate n policy) := by
  induction n with
  | zero => rfl
  | succ n ih =>
    show (PinPolicy.asked system n (some policy) >>= fun rest => pure (policy :: rest)) = _
    rw [ih]
    rfl

theorem wp_asked {S : Type} {R : Behaviour FileCmd S} {s : S} {Q : PinPolicy → Prop} {n : Nat}
    (loaded : (PinPolicy.loadFromStandardLocations system).wp R (fun _ => True)
      (fun policy _ => Q policy) s) :
    (PinPolicy.asked system (n + 1) none).wp R (fun _ => True)
      (fun policies _ => ∃ policy, policies = List.replicate (n + 1) policy ∧ Q policy) s := by
  refine Prog.wp_seq loaded fun policy now _ granted => ?_
  rw [asked_some]
  exact ⟨trivial, policy, rfl, granted⟩

/-- Whatever the other users do from the start of the machine on, and whichever calls fail,
a process works under one policy: the default, or that of a file which only root could
have written. -/
theorem policy_trusted {boot : FileSystem} {n : Nat} {policies : List PinPolicy}
    {events : List (Event FileCmd FileSystem)}
    (before : Relation.ReflTransGen FileSystem.Unprivileged boot d)
    (run : (PinPolicy.asked system (n + 1) none).Runs
      (Among FileSystem.Unprivileged (Faulty (FileSystem.exec who) fun _ => True)) d events policies
        d') :
    ∃ policy, policies = List.replicate (n + 1) policy ∧ (policy = .default ∨
      ∃ file inode config, boot.inodes file = some inode ∧ inode.metadata.isFile = true ∧
        inode.metadata.uid = 0 ∧ inode.metadata.mode &&& 0o133 = 0 ∧
        inode.content = some config ∧ PinPolicy.parseConfig system config = .ok policy) := by
  have loaded : (PinPolicy.loadFromStandardLocations system).wp Sees (fun _ => True)
      (fun policy _ => Granted system d.trusted policy) d.trusted :=
    Prog.wp_mono wp_loadFromPaths fun _ _ _ post => post.2
  obtain ⟨policy, same, grants⟩ := run.among (fun _ _ => trusted_kept)
    (fun _ _ _ _ act => exec_sees act) (wp_asked loaded)
  refine ⟨policy, same, grants.imp_right ?_⟩
  rintro ⟨file, inode, config, there, content, parsed⟩
  have since : d.trusted = boot.trusted := view_kept (fun _ _ step => trusted_kept step) before
  rw [since] at there
  obtain ⟨there, secure⟩ := Option.filter_eq_some_iff.1 there
  obtain ⟨isFile, root, bits⟩ := secure_iff.1 secure
  exact ⟨file, inode, config, there, isFile, root, bits, content, parsed⟩

end Trust

/-! ## The policy of each user -/

/-- The names that the policy may have, and the files that can be policy. -/
abbrev View := (Str → Option Nat) × (Nat → Option Inode)

def FileSystem.view (d : FileSystem) : View :=
  (fun path => if path ∈ PinPolicy.PATHS then d.names path else none, d.trusted)

/-- The text that somebody reads under a name. -/
def View.config (who : Credentials) (v : View) (path : Str) : Option Str := do
  let file ← v.1 path
  let inode ← v.2 file
  if inode.metadata.permits who 0o004 then inode.content else none

/-- What `fs::metadata` says of a path. -/
def FileSystem.isFile (d : FileSystem) (path : Str) : Bool :=
  ((d.names path).bind d.inodes).any (·.metadata.isFile)

/-- The policy for a user on this disk: that of the first name under which there is one to read. -/
def FileSystem.policyFor (tctiNameConf : Str → Except TssError Unit) (who : Credentials)
    (d : FileSystem) : PinPolicy :=
  (PinPolicy.PATHS.findSome? fun path =>
    (d.view.config who path).bind fun config =>
      (PinPolicy.parseConfig ⟨d.isFile, tctiNameConf⟩ config).toOption).getD .default

/-- The values of `pinutil_path` in a text. -/
def pinutilPaths (config : Str) : List Str :=
  (splitWhitespace config).filterMap fun part =>
    match splitOnce '=' part with
    | some (key, value) => if key = "pinutil_path".toList then some value else none
    | none => none

/-- What can be policy names this helper. -/
def FileSystem.Helper (d : FileSystem) (path : Str) : Prop :=
  ∃ file inode config, d.trusted file = some inode ∧ inode.content = some config ∧
    path ∈ pinutilPaths config

/-- A step that leaves the names of the policy, and whether a helper that it names is a file. -/
def FileSystem.Spares (d d' : FileSystem) : Prop :=
  FileSystem.Unprivileged d d' ∧ (∀ path ∈ PinPolicy.PATHS, d'.names path = d.names path) ∧
    ∀ path, d.Helper path → d'.isFile path = d.isFile path

/-- What a process sees of these while nothing fails. -/
def SeesAll (who : Credentials) : Behaviour FileCmd View
  | .openFile path, v, r, v' => v' = v ∧ (path ∈ PinPolicy.PATHS →
    match v.1 path with
    | none => r = none
    | some file =>
      match v.2 file with
      | none => r = none ∨ r = some file
      | some inode => r = if inode.metadata.permits who 0o004 then some file else none)
  | .metadata file, v, r, v' => v' = v ∧
    match v.2 file with
    | none => ∀ metadata, r = some metadata → metadata.isFile = true →
      metadataIsSecure metadata = false
    | some inode => r = some inode.metadata
  | .readToString file, v, r, v' => v' = v ∧ ∀ inode, v.2 file = some inode → r = inode.content

section Agreement

variable {d d' : FileSystem} {who : Credentials} {system : System} {path : Str} {v : View}

theorem trusted_none {file : Nat} {inode : Inode} (there : d.inodes file = some inode)
    (none_ : d.trusted file = none) : inode.secure = false := by
  rw [FileSystem.trusted, there, Option.filter_some] at none_
  split at none_
  · cases none_
  next insecure => exact Bool.eq_false_iff.2 insecure

theorem exec_seesAll {e : FileCmd} {r : Answer e} (act : (FileSystem.exec who).graph e d r d') :
    SeesAll who e d.view r d'.view := by
  cases e with
  | openFile path =>
    obtain ⟨rfl, rfl⟩ := Prod.mk.inj act
    refine ⟨rfl, fun standard => ?_⟩
    unfold FileSystem.view
    dsimp only
    rw [if_pos standard]
    cases named : d.names path with
    | none => rfl
    | some file =>
      dsimp only
      cases trusted : d.trusted file with
      | none =>
        dsimp only [bind, Option.bind]
        cases d.inodes file with
        | none => exact .inl rfl
        | some inode =>
          dsimp only
          split
          · exact .inr rfl
          · exact .inl rfl
      | some inode =>
        obtain ⟨there, -⟩ := Option.filter_eq_some_iff.1 trusted
        simp only [bind, Option.bind, there]
  | metadata file =>
    obtain ⟨rfl, rfl⟩ := Prod.mk.inj act
    refine ⟨rfl, ?_⟩
    unfold FileSystem.view
    dsimp only
    cases trusted : d.trusted file with
    | none =>
      intro metadata answered isFile
      obtain ⟨inode, there, rfl⟩ := Option.map_eq_some_iff.1 answered
      have insecure := trusted_none there trusted
      rwa [Inode.secure, isFile, Bool.true_and] at insecure
    | some inode =>
      obtain ⟨there, -⟩ := Option.filter_eq_some_iff.1 trusted
      dsimp only
      rw [there]
      rfl
  | readToString file =>
    obtain ⟨rfl, rfl⟩ := Prod.mk.inj act
    refine ⟨rfl, fun inode trusted => ?_⟩
    obtain ⟨there, -⟩ := Option.filter_eq_some_iff.1 trusted
    rw [there]
    rfl

theorem wp_readPolicy_all (standard : path ∈ PinPolicy.PATHS)
    (trusts : ∀ file inode, v.2 file = some inode → inode.secure = true) :
    (readPolicyIfSecure path).wp (SeesAll who) (fun _ => True)
      (fun r now => now = v ∧ r = v.config who path) v := by
  unfold View.config
  refine ⟨trivial, ?_⟩
  rintro opened v ⟨rfl, answered⟩
  have answered := answered standard
  cases named : v.1 path with
  | none =>
    rw [named] at answered
    obtain rfl : opened = none := answered
    exact ⟨trivial, rfl, rfl⟩
  | some file =>
    rw [named] at answered
    dsimp only at answered
    cases trusted : v.2 file with
    | none =>
      simp only [bind, Option.bind, trusted]
      rw [trusted] at answered
      rcases answered with rfl | rfl
      · exact ⟨trivial, rfl, rfl⟩
      refine ⟨trivial, ?_⟩
      rintro (_ | metadata) v ⟨rfl, seen⟩
      · exact ⟨trivial, rfl, rfl⟩
      rw [trusted] at seen
      dsimp only [Prog.bind]
      split
      · exact ⟨trivial, rfl, rfl⟩
      next isFile =>
      have insecure := seen metadata rfl (not_not.1 isFile)
      rw [if_pos (Bool.eq_false_iff.1 insecure)]
      exact ⟨trivial, rfl, rfl⟩
    | some inode =>
      simp only [bind, Option.bind, trusted]
      rw [trusted] at answered
      dsimp only at answered
      by_cases may : inode.metadata.permits who 0o004
      · rw [if_pos may] at answered ⊢
        subst answered
        refine ⟨trivial, ?_⟩
        rintro (_ | metadata) v ⟨rfl, seen⟩
        · rw [trusted] at seen
          cases seen
        rw [trusted] at seen
        cases seen
        obtain ⟨isFile, secure⟩ := Bool.and_eq_true_iff.1 (trusts file inode trusted)
        dsimp only [Prog.bind]
        rw [if_neg (not_not.2 isFile), if_neg (not_not.2 secure)]
        refine ⟨trivial, ?_⟩
        rintro r v ⟨rfl, read⟩
        exact ⟨trivial, rfl, read inode trusted⟩
      · rw [if_neg may] at answered ⊢
        subst answered
        exact ⟨trivial, rfl, rfl⟩

theorem wp_loadFromPaths_all {paths : List Str} (standard : ∀ path ∈ paths, path ∈ PinPolicy.PATHS)
    (trusts : ∀ file inode, v.2 file = some inode → inode.secure = true) :
    (PinPolicy.loadFromPaths system paths).wp (SeesAll who) (fun _ => True)
      (fun policy now => now = v ∧ policy = (paths.findSome? fun path =>
        (v.config who path).bind fun config =>
          (PinPolicy.parseConfig system config).toOption).getD .default) v := by
  induction paths with
  | nil => exact ⟨trivial, rfl, rfl⟩
  | cons path paths ih =>
    obtain ⟨first, others⟩ := List.forall_mem_cons.1 standard
    have loaded : (PinPolicy.loadFromPath system path).wp (SeesAll who) (fun _ => True)
        (fun r now => now = v ∧ r = (v.config who path).bind fun config =>
          (PinPolicy.parseConfig system config).toOption) v := by
      refine Prog.wp_seq (wp_readPolicy_all first trusts) fun r now _ post => ?_
      obtain ⟨rfl, rfl⟩ := post
      cases now.config who path with
      | none => exact ⟨trivial, rfl, rfl⟩
      | some config => exact ⟨trivial, rfl, rfl⟩
    refine Prog.wp_seq loaded fun r now _ post => ?_
    obtain ⟨rfl, found⟩ := post
    rw [List.findSome?_cons, ← found]
    cases r with
    | none => exact ih others
    | some policy => exact ⟨trivial, rfl, rfl⟩

theorem parseSetting_congr {system' : System} {policy : PinPolicy} {key value : Str}
    (tcti : system.tctiNameConf = system'.tctiNameConf)
    (same : key = "pinutil_path".toList → system.isFile value = system'.isFile value) :
    PinPolicy.parseSetting system policy key value =
      PinPolicy.parseSetting system' policy key value := by
  have loader : PinPolicy.parseTctiSetting system value =
      PinPolicy.parseTctiSetting system' value := by
    unfold PinPolicy.parseTctiSetting
    rw [tcti]
  unfold PinPolicy.parseSetting
  rw [loader]
  by_cases helper : key = "pinutil_path".toList
  · have path : PinPolicy.parsePinutilPath system value =
        PinPolicy.parsePinutilPath system' value := by
      unfold PinPolicy.parsePinutilPath
      rw [same helper]
    rw [path]
  · simp only [if_neg helper]

/-- The machine is asked for files only where a text names a helper. -/
theorem parseConfig_congr {system' : System} {config : Str}
    (tcti : system.tctiNameConf = system'.tctiNameConf)
    (same : ∀ path ∈ pinutilPaths config, system.isFile path = system'.isFile path) :
    PinPolicy.parseConfig system config = PinPolicy.parseConfig system' config := by
  have parts : ∀ part ∈ splitWhitespace config, ∀ policy,
      PinPolicy.parsePart system policy part = PinPolicy.parsePart system' policy part := by
    intro part member policy
    unfold PinPolicy.parsePart
    cases split : splitOnce '=' part with
    | none => rfl
    | some setting =>
      obtain ⟨key, value⟩ := setting
      refine parseSetting_congr tcti fun helper => same value ?_
      exact List.mem_filterMap.2 ⟨part, member, by simp only [split, if_pos helper]⟩
  unfold PinPolicy.parseConfig
  generalize PinPolicy.default = policy
  generalize splitWhitespace config = words at parts
  induction words generalizing policy with
  | nil => rfl
  | cons part words ih =>
    rw [List.foldlM_cons, List.foldlM_cons, parts part List.mem_cons_self]
    congr 1
    funext policy
    exact ih policy fun part member => parts part (List.mem_cons_of_mem _ member)

theorem spares_view (step : FileSystem.Spares d d') : d'.view = d.view := by
  obtain ⟨step, named, -⟩ := step
  unfold FileSystem.view
  rw [trusted_kept step]
  congr 1
  funext path
  by_cases standard : path ∈ PinPolicy.PATHS
  · rw [if_pos standard, if_pos standard, named path standard]
  · rw [if_neg standard, if_neg standard]

theorem spares_isFile {boot : FileSystem} (steps : Relation.ReflTransGen FileSystem.Spares boot d)
    (helper : boot.Helper path) : d.isFile path = boot.isFile path := by
  induction steps with
  | refl => rfl
  | @tail d d' before step ih =>
    have trusted : d.trusted = boot.trusted :=
      view_kept (fun _ _ step => trusted_kept step.1) before
    rw [← ih]
    refine step.2.2 path ?_
    unfold FileSystem.Helper
    rwa [trusted]

/-- While the others leave the names of the policy and the helpers that it names, all processes of
a user work under the policy that was there for the user from the start. -/
theorem policy_agreed {boot : FileSystem} {n : Nat} {policies : List PinPolicy}
    {events : List (Event FileCmd FileSystem)}
    (before : Relation.ReflTransGen FileSystem.Spares boot d)
    (asks : ∀ path, ∃ now, Relation.ReflTransGen FileSystem.Spares boot now ∧
      system.isFile path = now.isFile path)
    (run : (PinPolicy.asked system (n + 1) none).Runs
      (Among FileSystem.Spares (FileSystem.exec who).graph) d events policies d') :
    policies = List.replicate (n + 1) (boot.policyFor system.tctiNameConf who) := by
  have trusts : ∀ file inode, d.view.2 file = some inode → inode.secure = true :=
    fun _ _ there => (Option.filter_eq_some_iff.1 there).2
  have read := @wp_loadFromPaths_all who system d.view PinPolicy.PATHS (fun _ same => same) trusts
  have loaded := Prog.wp_mono read fun _ _ _ post => post.2
  obtain ⟨policy, same, rfl⟩ := run.among (fun _ _ => spares_view)
    (fun _ _ _ _ act => exec_seesAll act) (wp_asked loaded)
  rw [same, FileSystem.policyFor, view_kept (fun _ _ step => spares_view step) before]
  congr 3
  funext path
  -- the text that is read names helpers that were there from the start
  cases found : boot.view.config who path with
  | none => rfl
  | some config =>
    refine congrArg Except.toOption (parseConfig_congr rfl fun helper named => ?_)
    obtain ⟨now, reached, answer⟩ := asks helper
    rw [answer]
    refine spares_isFile reached ?_
    obtain ⟨file, -, found⟩ := Option.bind_eq_some_iff.1 found
    obtain ⟨inode, trusted, content⟩ := Option.bind_eq_some_iff.1 found
    split at content
    · exact ⟨file, inode, config, trusted, content, named⟩
    · cases content

end Agreement

/-! ## Samples -/

/-- The default helper is a file, and every TCTI is taken. -/
def loneSystem : System := ⟨fun path => path = DEFAULT_PINUTIL_PATH, fun _ => .ok ()⟩

def alice : Credentials := ⟨1000, [1000]⟩

/-- File 7 is the policy, file 9 the helper that it names, and file 8 one of user 1000. -/
def policyDisk (late : Bool) : FileSystem where
  names path :=
    if path = "/etc/pinpam/policy".toList then some 7
    else if path = DEFAULT_PINUTIL_PATH then some 9
    else some 8
  inodes file :=
    if file = 7 then
      some ⟨⟨true, 0, 0, 0o644⟩,
        some ("pinutil_path=".toList ++ DEFAULT_PINUTIL_PATH ++ " pin_min_length=6".toList)⟩
    else if file = 8 then
      some ⟨⟨true, 1000, 0, 0o644⟩, some (if late then "pin_min_length=1".toList else [])⟩
    else if file = 9 then some ⟨⟨true, 0, 0, 0o755⟩, none⟩
    else none

/-- The user puts the own file in the place of the policy. -/
def stolenDisk (late : Bool) : FileSystem :=
  if late then { policyDisk true with names := fun _ => some 8 } else policyDisk true

/-- The other user takes a step before the metadata are looked at, and the read may fail. -/
def raced (view : Bool → FileSystem) (fails : Bool) : Handler FileCmd Bool
  | .openFile path, late => ((FileSystem.exec alice (.openFile path) (view late)).1, late)
  | .metadata file, _ => ((FileSystem.exec alice (.metadata file) (view true)).1, true)
  | .readToString file, late =>
    (if fails then none else (FileSystem.exec alice (.readToString file) (view late)).1, late)

theorem raced_within {others : FileSystem → FileSystem → Prop} {R : Behaviour FileCmd FileSystem}
    {view : Bool → FileSystem} {fails : Bool} (step : others (view false) (view true))
    (done : ∀ e d, R e d (FileSystem.exec alice e d).1 d)
    (failed : fails = true → ∀ file d, R (.readToString file) d none d) :
    Within (raced view fails) view (Among others R) := by
  intro e late
  cases e with
  | openFile path => exact ⟨view late, .refl, done _ _⟩
  | metadata file =>
    refine ⟨view true, ?_, done _ _⟩
    cases late with
    | false => exact .single step
    | true => exact .refl
  | readToString file =>
    refine ⟨view late, .refl, ?_⟩
    cases fails with
    | false => exact done _ _
    | true => exact failed rfl _ _

/-- The user takes the place of the policy while it is read, and once the read fails. -/
theorem policy_trusted_once :
    (∃ policy, ((PinPolicy.asked loneSystem 2 none).run (raced stolenDisk false) false).1 =
        List.replicate 2 policy ∧
      (policy = .default ∨
        ∃ file inode config, (stolenDisk false).inodes file = some inode ∧
          inode.metadata.isFile = true ∧ inode.metadata.uid = 0 ∧
          inode.metadata.mode &&& 0o133 = 0 ∧ inode.content = some config ∧
          PinPolicy.parseConfig loneSystem config = .ok policy)) ∧
    ∃ policy, ((PinPolicy.asked loneSystem 2 none).run (raced stolenDisk true) false).1 =
        List.replicate 2 policy ∧
      (policy = .default ∨
        ∃ file inode config, (stolenDisk false).inodes file = some inode ∧
          inode.metadata.isFile = true ∧ inode.metadata.uid = 0 ∧
          inode.metadata.mode &&& 0o133 = 0 ∧ inode.content = some config ∧
          PinPolicy.parseConfig loneSystem config = .ok policy) := by
  have step : FileSystem.Unprivileged (stolenDisk false) (stolenDisk true) := .link _ _
  have within : ∀ fails, Within (raced stolenDisk fails) stolenDisk
      (Among FileSystem.Unprivileged (Faulty (FileSystem.exec alice) fun _ => True)) := by
    intro fails
    refine raced_within step (fun e d => ?_) fun _ file d => .failed _ d () trivial
    cases e with
    | _ => exact .done _ d
  exact ⟨policy_trusted .refl (Prog.runs_run (within false) _ false),
    policy_trusted .refl (Prog.runs_run (within true) _ false)⟩

/-- The machine as it is when the user has written the own file. -/
def lateSystem : System := ⟨(policyDisk true).isFile, fun _ => .ok ()⟩

theorem policyDisk_step : FileSystem.Spares (policyDisk false) (policyDisk true) := by
  refine ⟨?_, fun _ _ => rfl, fun path _ => ?_⟩
  · have wrote : policyDisk true = (policyDisk false).put 8
        ⟨⟨true, 1000, 0, 0o644⟩, some "pin_min_length=1".toList⟩ := by
      unfold policyDisk FileSystem.put
      congr 1
      funext file
      by_cases own : file = 8
      · subst own
        rw [Function.update_self]
        rfl
      · rw [Function.update_of_ne own]
        simp only [if_neg own]
    rw [wrote]
    exact @FileSystem.Unprivileged.write (policyDisk false) 8 ⟨⟨true, 1000, 0, 0o644⟩, some []⟩
      alice _ (by decide) rfl (by decide)
  · unfold FileSystem.isFile policyDisk
    dsimp only
    split
    · rfl
    · split
      · rfl
      · rfl

/-- The user writes the own file while the policy is read. -/
theorem policy_agreed_once :
    ((PinPolicy.asked lateSystem 2 none).run (raced policyDisk false) false).1 =
      List.replicate 2 ((policyDisk false).policyFor lateSystem.tctiNameConf alice) := by
  have within : Within (raced policyDisk false) policyDisk
      (Among FileSystem.Spares (FileSystem.exec alice).graph) := by
    refine raced_within policyDisk_step (fun e d => ?_) fun no => absurd no Bool.false_ne_true
    cases e with
    | _ => rfl
  exact policy_agreed .refl (fun _ => ⟨policyDisk true, .single policyDisk_step, rfl⟩)
    (Prog.runs_run within _ false)

example : ((policyDisk false).policyFor loneSystem.tctiNameConf alice).minLength = 6 := by
  decide +kernel

example : ((stolenDisk true).policyFor loneSystem.tctiNameConf alice).minLength = 4 := by
  decide +kernel

end Pinpam
