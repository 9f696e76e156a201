import Pinpam.MasterKey.Recovery
import Pinpam.Pam.Authenticate
import Pinpam.Util.Streams

/-!
# The wallet token

The module that stamps `PAM_AUTHTOK` with a token of the master key, on the helper that
derives it: it never decides on a login, and what it stamps is the HMAC of the name of the
user, before and after a recovery of the key.
-/

namespace Pinpam
set_option autoImplicit false
open Pinpam.Effect Pinpam.Effect.Fallible

/-! ## The module -/

inductive TokenCmd where
  /-- `pam_get_user` -/
  | getUser
  /-- `pinutil -m master-key get-user-token` -/
  | pinutilGetUserToken (username : Str)
  /-- `pam_set_item` of the `AUTHTOK` -/
  | setItem (authtok : Str)

instance : Interface TokenCmd where
  Answer
    | .getUser => Except PamReturnCode PamResponse
    | .pinutilGetUserToken _ => Except Str Output
    | .setItem _ => Except PamReturnCode Unit

abbrev TokenM := Fallible TokenCmd PamReturnCode

/-- `PAM_IGNORE`. -/
def PamReturnCode.ignore : PamReturnCode := .other 25

/-- Why there is no token, for the log. -/
inductive TokenFailure where
  | failedToExecute (error : Str)
  | exited (code : Nat)
  | malformed
  | returned (error : PinError)

instance : Deserialize Str := ⟨Json.asStr⟩

/-- What is read from the helper's output. -/
def tokenOf : Except Str Output → Except TokenFailure Str
  | .error e => .error (.failedToExecute e)
  | .ok output =>
    if output.code ≠ 0 then .error (.exited output.code)
    else
      match (output.stdout.bind fromJson : Option (PinResult Str)) with
      | none => .error .malformed
      | some (.error e) => .error (.returned e)
      | some (.ok token) => .ok token

namespace Pam

/-- `derive_user_token_via_pinutil`. -/
def deriveUserTokenViaPinutil (username : Str) : Fallible TokenCmd TokenFailure Str :=
  op (.pinutilGetUserToken username) tokenOf

/-- `get_pam_user`. -/
def getPamUser : TokenM Str :=
  op .getUser fun
    | .error code => .error code
    | .ok .missing => .error .userUnknown
    | .ok .undecodable => .error .systemErr
    | .ok (.text user) => .ok user

/-- `build_user_token_cstring`: a `CString` has no NUL inside. -/
def buildUserTokenCstring (user : Str) : TokenM Str := do
  match ← (attempt (deriveUserTokenViaPinutil user) : TokenM (Except TokenFailure Str)) with
  | .error _ => throw .authErr
  | .ok token => if '\x00' ∈ token then throw .authErr else pure token

def setPamAuthtok (authtok : Str) : TokenM Unit := op (.setItem authtok) id

/-- `pam_sm_authenticate` of this module. -/
def stampAuthtok : Prog TokenCmd PamReturnCode := do
  match ← getPamUser.run with
  | .error _ => pure .ignore
  | .ok user =>
    match ← (buildUserTokenCstring user).run with
    | .error _ => pure .ignore
    | .ok token =>
      match ← (setPamAuthtok token).run with
      | .error _ => pure .ignore
      | .ok () => pure .ignore

end Pam

/-! ## The helper -/

section Helper

variable (mac : Bytes → Bytes → Bytes) (crypto : Crypto)

/-- pinutil over a vault: its calls on the master key run there. -/
def Vault.serving (K : Behaviour KeyCmd Vault) (env : Env) : Behaviour UtilCmd Vault
  | .inr (.masterKey op), v, r, v' => ∃ events,
    (MasterKey.program env.policy crypto env.uid op).run.Runs K.labelled v events r v'
  | _, v, _, v' => v' = v

/-- What `clap` takes for an option and not for the name of a user. -/
def isOption (username : Str) : Bool := username.head? == some '-' && username.length > 1

/-- A run of the helper: it ends, or it fails to, where `P` allows it. A name that reads as
an option gives a usage error or a help text, and neither is JSON. -/
inductive DerivesToken (K : Behaviour KeyCmd Vault) (P : Prop) (env : Env) (username : Str) :
    Vault → Except Str Output → Vault → Prop where
  | ended {v v' : Vault} {events : List (Event UtilCmd Vault)} {r : Except Stop Unit}
      (value : isOption username = false)
      (run : (Util.main env (.masterKey (.getUserToken username))).run.Runs
        (Vault.serving crypto K env) v events r v') :
      DerivesToken K P env username v (.ok (outputOf events r)) v'
  | option {v : Vault} (code : Nat) (value : isOption username = true) :
      DerivesToken K P env username v (.ok ⟨code, none⟩) v
  | killed {v : Vault} {code : Nat} (stdout : Option Json) (may : P) (signal : code ≠ 0) :
      DerivesToken K P env username v (.ok ⟨code, stdout⟩) v
  | failed {v : Vault} (e : Str) (may : P) : DerivesToken K P env username v (.error e) v

/-- A login over a vault. -/
def Vault.stamping (K : Behaviour KeyCmd Vault) (P : Prop) (env : Env) : Behaviour TokenCmd Vault
  | .pinutilGetUserToken username, v, r, v' => DerivesToken crypto K P env username v r v'
  | .getUser, v, _, v' | .setItem _, v, _, v' => v' = v

end Helper

/-! ## Hexadecimal digits -/

theorem digitChar_small {n : Nat} (small : n < 16) :
    Nat.digitChar n ∈ "0123456789abcdef".toList := by
  revert n
  decide

theorem hexEncode_digits {b : Bytes} {c : Char} (member : c ∈ hexEncode b) :
    c ∈ "0123456789abcdef".toList := by
  obtain ⟨x, -, digit⟩ := List.mem_flatMap.1 member
  have byte := x.toNat_lt
  rcases List.mem_cons.1 digit with rfl | digit
  · exact digitChar_small (by omega)
  · obtain rfl := List.mem_singleton.1 digit
    exact digitChar_small (by omega)

theorem hexEncode_nul {b : Bytes} : '\x00' ∉ hexEncode b := by
  intro nul
  exact absurd (hexEncode_digits nul) (by decide)

section Stamp

variable {mac : Bytes → Bytes → Bytes} {crypto : Crypto} {K : Behaviour KeyCmd Vault} {P : Prop}
  {env : Env} {username token : Str} {v v' : Vault}

/-! ## What the helper derives -/

theorem fromJson_toJson_str (r : PinResult Str) : fromJson (toJson r) = some r := by
  cases r with
  | ok s => rfl
  | error err => exact congrArg (Option.map Except.error) (fromJson_toJson_pinError err)

theorem tokenOf_report {r : PinResult Str} :
    tokenOf (.ok ⟨if r.isOk then 0 else 1, some (toJson r)⟩) =
      match r with
      | .ok token => .ok token
      | .error _ => .error (.exited 1) := by
  cases r with
  | error e => rfl
  | ok token =>
    have read : (some (toJson (.ok token : PinResult Str))).bind fromJson =
        some (.ok token : PinResult Str) := fromJson_toJson_str _
    unfold tokenOf
    dsimp only
    rw [read]
    rfl

/-- What the helper does for root. -/
theorem getUserToken_root (machine : env.machine = true) (root : env.uid = 0) :
    (Util.main env (.masterKey (.getUserToken username))).run =
      .call (.inr (.masterKey (.deriveUserToken username))) fun res : PinResult Str =>
        .call (.inr (.result (toJson res))) fun _ =>
          .ret (if res.isOk then .ok () else .error (.exit 1)) := by
  have ends : (fun res : PinResult Str => (Util.handleResult env res).run) = fun res =>
      .call (.inr (.result (toJson res))) fun _ =>
        .ret (if res.isOk then .ok () else .error (.exit 1)) :=
    funext fun res => handleResult_run machine
  unfold Util.main Util.requireRoot
  rw [if_neg (not_not.2 root)]
  dsimp only
  rw [if_pos machine, report_run, ends]
  rfl

/-- What the helper says after a run to its end. -/
theorem derives_ended (machine : env.machine = true) {events : List (Event UtilCmd Vault)}
    {r : Except Stop Unit}
    (run : (Util.main env (.masterKey (.getUserToken username))).run.Runs
      (Vault.serving crypto K env) v events r v') :
    (env.uid ≠ 0 ∧ v' = v ∧ ∃ json, outputOf events r = ⟨1, some json⟩) ∨
      (env.uid = 0 ∧ ∃ res derived,
        (MasterKey.program env.policy crypto env.uid (.deriveUserToken username)).run.Runs K.labelled
          v derived res v' ∧
        outputOf events r = ⟨if res.isOk then 0 else 1, some (toJson res)⟩) := by
  by_cases root : env.uid = 0
  · right
    rw [getUserToken_root machine root] at run
    cases run with
    | @call _ _ res _ between _ events _ derives rest =>
      cases rest with
      | call said rest =>
        cases rest
        obtain rfl : v' = between := said
        obtain ⟨derived, derives⟩ := derives
        refine ⟨root, res, derived, derives, ?_⟩
        rcases res with e | token
        · rfl
        · rfl
  · left
    have program : (Util.main env (.masterKey (.getUserToken username))).run =
        .call (.inr (.result (toJson (.error .permissionDenied : PinResult Unit)))) fun _ =>
          .ret (.error (.exit 1)) := by
      unfold Util.main Util.requireRoot
      rw [if_pos root]
      dsimp only
      rw [run_bind_cases, handleResult_run machine]
      rfl
    rw [program] at run
    cases run with
    | call said rest =>
      cases rest
      obtain rfl : v' = v := said
      exact ⟨root, rfl, _, rfl⟩

/-- A token comes from the master key. -/
theorem derives_token (machine : env.machine = true) {r : Except Str Output}
    (derives : DerivesToken crypto K P env username v r v') (told : tokenOf r = .ok token) :
    isOption username = false ∧ env.uid = 0 ∧ ∃ derived,
      (MasterKey.program env.policy crypto env.uid (.deriveUserToken username)).run.Runs K.labelled
        v derived (.ok token) v' := by
  cases derives with
  | ended value run =>
    rcases derives_ended machine run with ⟨-, -, json, output⟩ |
      ⟨root, res, derived, derives, output⟩
    · rw [output] at told
      cases told
    · rw [output, tokenOf_report] at told
      cases res with
      | error e => cases told
      | ok token' =>
        cases told
        exact ⟨value, root, derived, derives⟩
  | option code value =>
    unfold tokenOf at told
    dsimp only at told
    split at told
    · cases told
    · cases told
  | killed stdout may signal =>
    unfold tokenOf at told
    dsimp only at told
    rw [if_pos signal] at told
    cases told
  | failed e may => cases told

/-! ## What is stamped -/

/-- The users that the login is for. -/
def named {S : Type} (events : List (Event TokenCmd S)) : List Str :=
  events.filterMap fun
    | ⟨_, .getUser, .ok (.text user), _⟩ => some user
    | _ => none

/-- The tokens that the login hands on. -/
def stamped {S : Type} (events : List (Event TokenCmd S)) : List Str :=
  events.filterMap fun
    | ⟨_, .setItem token, _, _⟩ => some token
    | _ => none

/-- Some login of the user stamps the token. -/
def Stamps {S : Type} (R : Behaviour TokenCmd S) (s : S) (username token : Str) : Prop :=
  ∃ events code s', Pam.stampAuthtok.Runs R s events code s' ∧ username ∈ named events ∧
    token ∈ stamped events

/-- What of an output may be stamped. -/
def stampable (r : Except Str Output) : Option Str :=
  match tokenOf r with
  | .ok token => if '\x00' ∈ token then none else some token
  | .error _ => none

theorem buildUserTokenCstring_run {user : Str} : (Pam.buildUserTokenCstring user).run =
    .call (.pinutilGetUserToken user) fun r =>
      .ret (match tokenOf r with
        | .error _ => .error .authErr
        | .ok token => if '\x00' ∈ token then .error .authErr else .ok token) := by
  have cases_ : ∀ r, (match tokenOf r with
      | .error _ => throw .authErr
      | .ok token => if '\x00' ∈ token then throw .authErr else pure token : TokenM Str).run =
      .ret (match tokenOf r with
        | .error _ => .error .authErr
        | .ok token => if '\x00' ∈ token then .error .authErr else .ok token) := by
    intro r
    cases tokenOf r with
    | error e => rfl
    | ok token =>
      dsimp only
      split
      · rfl
      · rfl
  exact congrArg (Prog.call (TokenCmd.pinutilGetUserToken user)) (funext cases_)

/-- The calls of the module. -/
theorem stampAuthtok_call : Pam.stampAuthtok = .call .getUser fun answer =>
    match (answer : Except PamReturnCode PamResponse) with
    | .ok (.text user) => .call (.pinutilGetUserToken user) fun r =>
      match tokenOf r with
      | .error _ => .ret .ignore
      | .ok token =>
        if '\x00' ∈ token then .ret .ignore else .call (.setItem token) fun _ => .ret .ignore
    | _ => .ret .ignore := by
  apply congrArg (Prog.call TokenCmd.getUser)
  funext answer
  rcases answer with error | _ | _ | user
  · rfl
  · rfl
  · rfl
  show ((Pam.buildUserTokenCstring user).run >>= _) = _
  rw [buildUserTokenCstring_run]
  apply congrArg (Prog.call (TokenCmd.pinutilGetUserToken user))
  funext r
  dsimp only [Prog.bind]
  cases tokenOf r with
  | error e => rfl
  | ok token =>
    dsimp only
    by_cases nul : '\x00' ∈ token
    · simp only [if_pos nul]
      rfl
    simp only [if_neg nul]
    apply congrArg (Prog.call (TokenCmd.setItem token))
    funext set
    rcases set with e | u
    · rfl
    · rfl

/-- A login does not decide, and stamps what the helper derived for its user. -/
theorem stamp_course {S : Type} {R : Behaviour TokenCmd S} {s s' : S}
    {events : List (Event TokenCmd S)} {code : PamReturnCode}
    (run : Pam.stampAuthtok.Runs R s events code s') :
    code = .ignore ∧
      ((named events = [] ∧ stamped events = [] ∧ ∃ answer, R .getUser s answer s') ∨
        ∃ user s₁ r s₂, R .getUser s (.ok (.text user)) s₁ ∧ R (.pinutilGetUserToken user) s₁ r s₂ ∧
          named events = [user] ∧ stamped events = (stampable r).toList ∧
          (s' = s₂ ∨ ∃ token answer, R (.setItem token) s₂ answer s')) := by
  rw [stampAuthtok_call] at run
  cases run with
  | @call _ _ answer _ s₁ _ events _ got rest =>
    rcases answer with error | _ | _ | user
    · cases rest
      exact ⟨rfl, .inl ⟨rfl, rfl, _, got⟩⟩
    · cases rest
      exact ⟨rfl, .inl ⟨rfl, rfl, _, got⟩⟩
    · cases rest
      exact ⟨rfl, .inl ⟨rfl, rfl, _, got⟩⟩
    cases rest with
    | @call _ _ r _ s₂ _ events _ derives rest =>
      unfold stampable
      cases told : tokenOf r with
      | error e =>
        simp only [told] at rest
        cases rest
        exact ⟨rfl, .inr ⟨user, s₁, r, _, got, derives, rfl, by rw [told]; rfl, .inl rfl⟩⟩
      | ok token =>
        simp only [told] at rest
        by_cases nul : '\x00' ∈ token
        · rw [if_pos nul] at rest
          cases rest
          exact ⟨rfl, .inr ⟨user, s₁, r, _, got, derives, rfl, by simp [told, nul]; rfl, .inl rfl⟩⟩
        · rw [if_neg nul] at rest
          cases rest with
          | @call _ _ answer _ s₃ _ events _ set rest =>
            cases rest
            exact ⟨rfl, .inr ⟨user, s₁, r, s₂, got, derives, rfl, by simp [told, nul]; rfl,
              .inr ⟨token, answer, set⟩⟩⟩

theorem stampable_some {r : Except Str Output} (from_ : stampable r = some token) :
    tokenOf r = .ok token := by
  unfold stampable at from_
  split at from_
  next token' told =>
    split at from_
    · cases from_
    · cases from_
      exact told
  next => cases from_

/-- What is stamped is what the helper derived for the user. -/
theorem Stamps.derived {S : Type} {R : Behaviour TokenCmd S} {s : S}
    (stamps : Stamps R s username token) :
    ∃ s₁ r s₂, R .getUser s (.ok (.text username)) s₁ ∧ R (.pinutilGetUserToken username) s₁ r s₂ ∧
      tokenOf r = .ok token := by
  obtain ⟨events, code, s', run, name, stamp⟩ := stamps
  obtain ⟨-, ⟨unnamed, -⟩ | ⟨user, s₁, r, s₂, got, derives, names, stamps, -⟩⟩ := stamp_course run
  · rw [unnamed] at name
    cases name
  rw [names] at name
  obtain rfl := List.mem_singleton.1 name
  rw [stamps] at stamp
  exact ⟨s₁, r, s₂, got, derives, stampable_some (Option.mem_toList.1 stamp)⟩

/-- What is stamped over a vault is the token of the master key there. -/
theorem stamp_token (machine : env.machine = true)
    (stamps : Stamps (Vault.stamping crypto (Vault.any mac) P env) v username token) :
    env.uid = 0 ∧ isOption username = false ∧ Token mac crypto v username token := by
  obtain ⟨s₁, r, s₂, got, derives, told⟩ := stamps.derived
  obtain rfl : s₁ = v := got
  obtain ⟨value, root, derived, goes⟩ := derives_token machine derives told
  exact ⟨root, value, env.policy, env.uid, derived, s₂, goes⟩

/-! ## Without failures -/

/-- The key that signs, if there is one. -/
def signingKey (o : Objects) : Option Bytes :=
  match o.persistent hmacHandle with
  | some (.keyedHash pub key) => if pub.attributes.signEncrypt then some key else none
  | _ => none

/-- The token of a name that fits a buffer of the TPM. -/
def tokenUnder (mac : Bytes → Bytes → Bytes) (key : Bytes) (username : Str) : Option Str :=
  if (asBytes username).length ≤ 1024 then some (hexEncode (mac key (asBytes username))) else none

theorem signingKey_hmacObject {o : Objects} {key : Bytes}
    (held : o.persistent hmacHandle = some (hmacObject key)) : signingKey o = some key := by
  unfold signingKey
  rw [held]
  rfl

/-- The derivation on a TPM that works. -/
theorem deriveUserToken_exec (mac : Bytes → Bytes → Bytes) (username : Str) (v : Vault)
    (policy : PinPolicy) :
    (exec (Vault.exec mac) (MasterKey.deriveUserToken policy username) v).2 = v ∧
      (exec (Vault.exec mac) (MasterKey.deriveUserToken policy username) v).1.toOption =
        (signingKey v.1).bind fun key => tokenUnder mac key username := by
  unfold MasterKey.deriveUserToken MasterKey.newContext send maxBuffer signingKey tokenUnder
  rw [persistentHandle_hmac]
  obtain ⟨⟨persistent⟩, d⟩ := v
  cases held : persistent hmacHandle with
  | none =>
    simp [Vault.exec, Handler.sum, Objects.exec, held, refuse, Except.mapError, Except.toOption]
  | some x =>
    by_cases short : (asBytes username).length ≤ 1024
    · cases x with
      | primary pub =>
        simp [Vault.exec, Handler.sum, Objects.exec, Objects.hmac, held, refuse, Except.mapError,
          Except.map, Except.toOption, short]
      | keyedHash pub key =>
        cases signs : pub.attributes.signEncrypt with
        | false =>
          simp [Vault.exec, Handler.sum, Objects.exec, Objects.hmac, held, refuse, Except.mapError,
            Except.map, Except.toOption, short, signs]
        | true =>
          simp [Vault.exec, Handler.sum, Objects.exec, Objects.hmac, held, Except.mapError,
            Except.map, Except.toOption, short, signs]
    · simp [Vault.exec, Handler.sum, Objects.exec, held, Except.mapError, Except.toOption, short]

/-- The wallet token of a user, if the master key is there to sign. -/
def walletToken (mac : Bytes → Bytes → Bytes) (uid : UInt32) (o : Objects) (username : Str) :
    Option Str :=
  if uid = 0 ∧ isOption username = false then
    (signingKey o).bind fun key => tokenUnder mac key username
  else none

theorem tokenUnder_nul {key : Bytes} (under : tokenUnder mac key username = some token) :
    '\x00' ∉ token := by
  unfold tokenUnder at under
  split at under
  · cases under
    exact hexEncode_nul
  · cases under

theorem walletToken_nul {uid : UInt32} {o : Objects}
    (wallet : walletToken mac uid o username = some token) :
    '\x00' ∉ token := by
  unfold walletToken at wallet
  split at wallet
  · obtain ⟨key, -, under⟩ := Option.bind_eq_some_iff.1 wallet
    exact tokenUnder_nul under
  · cases wallet

/-- What the helper derives there. -/
theorem derives_exact (machine : env.machine = true) {r : Except Str Output}
    (derives : DerivesToken crypto (Vault.exec mac).graph False env username v r v') :
    v' = v ∧ (tokenOf r).toOption = walletToken mac env.uid v.1 username := by
  unfold walletToken
  cases derives with
  | ended value run =>
    rcases derives_ended machine run with ⟨user, same, json, output⟩ |
      ⟨root, res, derived, derives, output⟩
    · rw [output, if_neg fun both => user both.1]
      exact ⟨same, rfl⟩
    · -- the helper's calls are those of the derivation
      have ran : exec (Vault.exec mac) (MasterKey.deriveUserToken env.policy username) v =
          (res, v') :=
        Prog.run_label.symm.trans
          (Prog.Runs.run_graph (h := Handler.labelled (Vault.exec mac)) derives)
      obtain ⟨same, gives⟩ := deriveUserToken_exec mac username v env.policy
      rw [ran] at same gives
      rw [output, tokenOf_report, if_pos ⟨root, value⟩, ← gives]
      cases res with
      | error e => exact ⟨same, rfl⟩
      | ok token' => exact ⟨same, rfl⟩
  | option code value =>
    have option : ¬ (env.uid = 0 ∧ isOption username = false) := by simp [value]
    rw [if_neg option]
    unfold tokenOf
    dsimp only
    split
    · exact ⟨rfl, rfl⟩
    · exact ⟨rfl, rfl⟩
  | killed stdout may => exact may.elim
  | failed e may => exact may.elim

/-- On a TPM that works a login stamps exactly the wallet token of its user, and leaves the
TPM and the decision alone. -/
theorem stamp_exact (machine : env.machine = true) {events : List (Event TokenCmd Vault)}
    {code : PamReturnCode}
    (run : Pam.stampAuthtok.Runs (Vault.stamping crypto (Vault.exec mac).graph False env) v events
      code v') :
    code = .ignore ∧ v' = v ∧
      stamped events = (named events).filterMap (walletToken mac env.uid v.1) := by
  obtain ⟨ignored, ⟨names, stamps, answer, got⟩ |
    ⟨user, s₁, r, s₂, got, derives, names, stamps, ends⟩⟩ := stamp_course run
  · rw [names, stamps]
    exact ⟨ignored, got, rfl⟩
  obtain rfl : s₁ = v := got
  obtain ⟨rfl, token⟩ := derives_exact machine derives
  have same : v' = s₂ := by
    rcases ends with same | ⟨token, answer, set⟩
    · exact same
    · exact set
  refine ⟨ignored, same, ?_⟩
  rw [names, stamps, List.filterMap_cons, ← token]
  have clean : ∀ t, walletToken mac env.uid s₂.1 user = some t → '\x00' ∉ t :=
    fun _ => walletToken_nul
  rw [← token] at clean
  unfold stampable
  cases told : tokenOf r with
  | error e => rfl
  | ok token' =>
    rw [told] at clean
    simp [Except.toOption, clean token' rfl]

/-! ## Over the life of a key -/

/-- A key that is held can be stamped with, where a TPM may work. -/
theorem stamps_held {key : Bytes} (within : Within (Vault.exec mac) id K)
    (machine : env.machine = true)
    (held : v.1.persistent hmacHandle = some (hmacObject key)) (root : env.uid = 0)
    (value : isOption username = false) (under : tokenUnder mac key username = some token) :
    Stamps (Vault.stamping crypto K P env) v username token := by
  have each : Within (Handler.labelled (Vault.exec mac) : Handler CallCmd Vault) id K.labelled :=
    fun c v => within c.op v
  have derived := Prog.runs_run each
    (MasterKey.program env.policy crypto env.uid (.deriveUserToken username)).run v
  -- the derivation gives the token and leaves the vault
  obtain ⟨same, gives⟩ := deriveUserToken_exec mac username v env.policy
  rw [signingKey_hmacObject held, Option.bind_some, under] at gives
  have ran : (MasterKey.program env.policy crypto env.uid (.deriveUserToken username)).run.run
      (Handler.labelled (Vault.exec mac)) v =
        exec (Vault.exec mac) (MasterKey.deriveUserToken env.policy username) v := Prog.run_label
  have ok : (exec (Vault.exec mac) (MasterKey.deriveUserToken env.policy username) v).1 =
      .ok token := by
    cases res : (exec (Vault.exec mac) (MasterKey.deriveUserToken env.policy username) v).1 with
    | error e =>
      rw [res] at gives
      cases gives
    | ok token' =>
      rw [res] at gives
      cases gives
      rfl
  rw [ran, ok, same] at derived
  have helper : DerivesToken crypto K P env username v
      (.ok ⟨0, some (toJson (.ok token : PinResult Str))⟩) v := by
    have run : (Util.main env (.masterKey (.getUserToken username))).run.Runs
        (Vault.serving crypto K env) v [⟨v, .inr (.masterKey (.deriveUserToken username)),
          (.ok token : PinResult Str), v⟩,
          ⟨v, .inr (.result (toJson (.ok token : PinResult Str))), (), v⟩] (.ok ()) v := by
      rw [getUserToken_root machine root]
      exact .call ⟨_, derived⟩ (.call rfl (.ret _ _))
    exact .ended value run
  have told : tokenOf (.ok ⟨0, some (toJson (.ok token : PinResult Str))⟩) = .ok token :=
    tokenOf_report (r := .ok token)
  have login : Pam.stampAuthtok.Runs (Vault.stamping crypto K P env) v
      [⟨v, .getUser, .ok (.text username), v⟩,
        ⟨v, .pinutilGetUserToken username, .ok ⟨0, some (toJson (.ok token : PinResult Str))⟩, v⟩,
        ⟨v, .setItem token, .ok (), v⟩] .ignore v := by
    rw [stampAuthtok_call]
    refine .call rfl (.call helper ?_)
    simp only [told, if_neg (tokenUnder_nul under)]
    exact .call rfl (.ret _ _)
  exact ⟨_, _, _, login, List.mem_singleton.2 rfl, List.mem_singleton.2 rfl⟩

/-- A token is made under the key that is held. -/
theorem Token.under (derives : Token mac crypto v username token) : ∃ pub key,
    v.1.persistent hmacHandle = some (.keyedHash pub key) ∧
      tokenUnder mac key username = some token := by
  obtain ⟨policy, uid, events, v', derives⟩ := derives
  refine (whole_deriveUserToken (o := v.1) (d := v.2)
    (Q := fun r _ => ∀ token, r = .ok token → ∃ pub key,
      v.1.persistent hmacHandle = some (.keyedHash pub key) ∧
        tokenUnder mac key username = some token)
    (fun _ => nofun) ?_).runs derives (fun _ _ => trivial) token rfl
  rintro pub key held short _ ⟨⟩
  exact ⟨pub, key, held, if_pos short⟩

/-- From an `init` that returned `Ok` on, every login stamps the token of one key, whatever
calls are made in between, unless the sealed file is taken away or a call both misses it
and fails to take its own key back. After an import of the phrase the tokens can be
stamped. -/
theorem wallet_tokens_kept (lawful : crypto.Lawful) {policy : PinPolicy} {uid : UInt32} {v₁ : Vault}
    {events : List (Event CallCmd Vault)} {made : MasterKeyInitResult}
    (inits : (MasterKey.program policy crypto uid .init).run.Runs (Vault.any mac).labelled v events
      (.ok made) v₁) :
    ∃ key, ∀ calls v₂, KeyRun mac crypto v₁ calls v₂ → (∀ call ∈ calls, call.Sound) →
      (∀ call ∈ calls, call.op = .clearFromDisk → ∃ e, call.result = .error e) →
        (∀ P env username token, env.machine = true →
          Stamps (Vault.stamping crypto (Vault.any mac) P env) v₂ username token →
            tokenUnder mac key username = some token) ∧
        ∀ (policy : PinPolicy) (uid : UInt32) events st v₃,
          (MasterKey.program policy crypto uid (.importToTpm made.recoveryPhrase)).run.Runs
            (Vault.any mac).labelled v₂ events (.ok st) v₃ →
              ∀ P env username token, env.machine = true →
                (Stamps (Vault.stamping crypto (Vault.any mac) P env) v₃ username token ↔
                  env.uid = 0 ∧ isOption username = false ∧
                    tokenUnder mac key username = some token) := by
  have any : ∀ (events : List (Event CallCmd Vault)), ∀ event ∈ events, True := fun _ _ _ => trivial
  have post : ∀ made', Except.ok made = .ok made' → _ :=
    whole_init_ok.runs (v := (v.1, v.2)) inits (any events)
  obtain ⟨key, json, sealed_, file, there⟩ := post made rfl
  dsimp only at file there
  refine ⟨key, fun calls v₂ run sound failed => ?_⟩
  -- the file of the init is still there, so the TPM holds its key or none
  have same : v₂.2 = v₁.2 := run.keeps_file (by simp only [file, Option.isSome_some]) failed
  have file₂ : v₂.2.sealedFile = some (json ++ [10]) := same ▸ file
  have made_ : Kept crypto v₁ := kept_made there file ⟨_, json, sealed_, List.prefix_rfl⟩
  obtain ⟨key₂, holds, only⟩ := run.kept lawful sound made_ _ file₂
  obtain rfl : key = key₂ :=
    holds.opens lawful (unsealBytes_whole lawful sealed_ (.inr rfl)).1
  constructor
  · intro P env username token machine stamps
    obtain ⟨-, -, derives⟩ := stamp_token machine stamps
    obtain ⟨pub, held, there, under⟩ := derives.under
    rwa [only pub held there] at under
  · intro policy uid events st v₃ imports P env username token machine
    have restored := (whole_import_ok (o := v₂.1) (d := v₂.2) lawful sealed_ file₂).runs imports
      (any events) ⟨st, rfl⟩
    constructor
    · intro stamps
      obtain ⟨root, value, derives⟩ := stamp_token machine stamps
      obtain ⟨pub, held, there, under⟩ := derives.under
      cases restored.symm.trans there
      exact ⟨root, value, under⟩
    · rintro ⟨root, value, under⟩
      exact stamps_held Vault.exec_within machine restored root value under

end Stamp

/-! ## Samples -/

def loginEnv : Env := { sampleEnv with uid := 0, euid := 0 }

def aliceToken : Str := hexEncode (List.replicate 32 0 ++ asBytes "alice".toList)

theorem stamp_exact_once : ∃ events : List (Event TokenCmd Vault), aliceToken ∈ stamped events ∧
    stamped events = (named events).filterMap (walletToken sampleMac 0 firstKey.after.1) := by
  have held : firstKey.after.1.persistent hmacHandle = some (hmacObject (List.replicate 32 0)) := by
    decide +kernel
  have within : Within (Vault.exec sampleMac) id (Vault.exec sampleMac).graph := fun _ _ => rfl
  obtain ⟨events, code, v', run, -, stamps⟩ :
      Stamps (Vault.stamping sampleCrypto (Vault.exec sampleMac).graph False loginEnv) firstKey.after
        "alice".toList aliceToken :=
    stamps_held within rfl held rfl rfl (by decide +kernel)
  obtain ⟨-, -, exact_⟩ := stamp_exact rfl run
  exact ⟨events, stamps, exact_⟩

theorem wallet_tokens_kept_once : ∃ key, ∀ P env username token, env.machine = true →
    (Stamps (Vault.stamping sampleCrypto (Vault.any sampleMac) P env) restoredKey.after username
        token ↔
      env.uid = 0 ∧ isOption username = false ∧ tokenUnder sampleMac key username = some token) := by
  have inits : firstKey.Goes sampleMac sampleCrypto := KeyCall.flaky_goes
  have imports : restoredKey.Goes sampleMac sampleCrypto := KeyCall.flaky_goes
  have lost : KeyRun sampleMac sampleCrypto firstKey.after [lostKey] lostKey.after :=
    .call KeyCall.flaky_goes (.stop _)
  obtain ⟨key, tokens⟩ := wallet_tokens_kept sampleCrypto_lawful inits
  refine ⟨key, (tokens [lostKey] _ lost ?_ ?_).2 .default 0 _ _ _ imports⟩
  · intro call member
    cases List.mem_singleton.1 member
    exact .inl (by decide +kernel)
  · intro call member clears
    cases List.mem_singleton.1 member
    cases clears

end Pinpam
