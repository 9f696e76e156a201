import Pinpam.Core.Config
import Pinpam.Effect.Runs
import Pinpam.Pam.Outcome

/-!
# The PAM module

`pam_sm_authenticate` from its parsed arguments on: the first pass with the token of an
earlier module, the prompt, and the return code. The conversation of the application and
the two runs of the helper are calls, answered at will.
-/

namespace Pinpam
set_option autoImplicit false
open Pinpam.Effect Pinpam.Effect.Fallible

inductive PamReturnCode where
  | success | systemErr | authErr | authinfoUnavail | userUnknown | maxtries | convErr
  /-- another code that the application returns -/
  | other (code : Nat)
  deriving DecidableEq, Repr

/-! ## Arguments -/

structure ModuleArgs where
  tryFirstPass : Bool
  useFirstPass : Bool
  deriving DecidableEq, Repr

namespace ModuleArgs

def default : ModuleArgs := ⟨false, false⟩

/-- One argument; those that are not known are ignored. -/
def read (args : ModuleArgs) (arg : Str) : ModuleArgs :=
  if arg = "try_first_pass".toList then { args with tryFirstPass := true }
  else if arg = "use_first_pass".toList then { args with useFirstPass := true }
  else args

/-- `ModuleArgs::from_strs`. -/
def fromStrs (args : List Str) : ModuleArgs := args.foldl read default

def wantsFirstPass (args : ModuleArgs) : Bool := args.tryFirstPass || args.useFirstPass

end ModuleArgs

inductive FirstPassDecision where
  | tryFirstPass (pin : Pin)
  | promptUser
  | deny

/-- `decide_first_pass`. -/
def decideFirstPass (args : ModuleArgs) (authtok : Option Str) (policy : PinPolicy) :
    FirstPassDecision :=
  if ¬ args.wantsFirstPass then .promptUser
  else
    match authtok.bind fun t => (Pin.new t policy).toOption, args.useFirstPass with
    | some pin, _ => .tryFirstPass pin
    | none, true => .deny
    | none, false => .promptUser

/-! ## The calls -/

/-- What is shown to the user, by its locale key. -/
inductive PamText where
  | authFailure | pinAuthUnavail | pinNotConfForUser | accountLocked
  | pinPrompt
  | pinPromptRemaining (remaining : UInt32)
  | pinPromptLast
  | pinEmpty | pinDigits
  deriving DecidableEq, Repr

inductive PamMessageStyle where
  | textInfo | errorMsg
  deriving DecidableEq, Repr

/-- The response of a conversation that succeeded. -/
inductive PamResponse where
  /-- a null pointer, or one to a null string -/
  | missing
  /-- not UTF-8 -/
  | undecodable
  | text (s : Str)

inductive PamCmd where
  | sendMessage (style : PamMessageStyle) (text : PamText)
  /-- a prompt without echo -/
  | converse (prompt : PamText)
  /-- `pinutil -m status` -/
  | pinutilStatus (username : Str)
  /-- `pinutil -m test`, with this standard input -/
  | pinutilTest (username stdin : Str)

instance : Interface PamCmd where
  Answer
    | .sendMessage .. => Except PamReturnCode Unit
    | .converse _ => Except PamReturnCode PamResponse
    | .pinutilStatus _ | .pinutilTest .. => Except Str Output

/-- A part of the module that may end with a return code. -/
abbrev PamM := Fallible PamCmd PamReturnCode

namespace Pam

def info (text : PamText) : PamM Unit := op (.sendMessage .textInfo text) id

def error (text : PamText) : PamM Unit := op (.sendMessage .errorMsg text) id

/-- A message, whether it is shown or not: `let _ = pam_io.error(..)`. -/
def show_ (x : PamM Unit) : PamM Unit := do
  let _ ← (attempt x : PamM (Except PamReturnCode Unit))
  pure ()

/-- `PamIo::prompt_hidden`. -/
def promptHidden (prompt : PamText) : PamM Str :=
  op (.converse prompt) fun
    | .error code => .error code
    | .ok .missing => .error .convErr
    | .ok .undecodable => .error .authErr
    | .ok (.text s) => .ok (trim s)

/-- The text of the prompt for `limit - used`; none at zero. -/
def promptText (remaining : UInt32) : Option PamText :=
  if remaining ≥ 3 then some .pinPrompt
  else if remaining = 2 then some (.pinPromptRemaining remaining)
  else if remaining = 1 then some .pinPromptLast
  else none

/-- `prompt_for_pin`. -/
def promptForPin (policy : PinPolicy) (used limit : UInt32) : PamM Pin :=
  match promptText (limit - used) with
  | none => throw .authinfoUnavail
  | some prompt => do
    let pinText ← promptHidden prompt
    match Pin.new pinText policy with
    | .ok pin => pure pin
    | .error .pinIsEmpty => do
      error .pinEmpty
      throw .authErr
    | .error _ => do
      error .pinDigits
      throw .authErr

/-- `run_pinutil_status`. -/
def runPinutilStatus (username : Str) : PamM PinStatus :=
  op (.pinutilStatus username) fun output => .ok (pinutilStatus output)

/-- `run_pinutil_test`: the PIN is written on a line. -/
def runPinutilTest (username : Str) (pin : Pin) : PamM (Except Str PinutilTestOutcome) :=
  op (.pinutilTest username (pin.str ++ ['\n'])) fun output => .ok (pinutilTest output)

/-- `finalize_outcome`. -/
def finalizeOutcome : PinutilTestOutcome → PamM PamReturnCode
  | .success => pure .success
  | .invalidPin => do
    show_ (error .authFailure)
    pure .authErr
  | .newlyLockedOut | .lockedOut => do
    show_ (error .accountLocked)
    pure .maxtries
  | .notConfigured => do
    show_ (info .pinNotConfForUser)
    pure .authinfoUnavail
  | .unavailable => do
    show_ (error .pinAuthUnavail)
    pure .authinfoUnavail

/-- `u32::saturating_add`. -/
def saturatingAdd (a b : UInt32) : UInt32 := (checkedAdd a b).getD (0 - 1)

section Authenticate

variable (policy : PinPolicy) (username : Str) (args : ModuleArgs)

/-- The prompt and the test of what was entered, if there are attempts left. -/
def secondPhase (used limit : UInt32) : PamM PamReturnCode :=
  if used ≥ limit then do
    show_ (error .accountLocked)
    pure .maxtries
  else do
    let pin ← promptForPin policy used limit
    match ← runPinutilTest username pin with
    | .ok outcome => finalizeOutcome outcome
    | .error _ => do
      show_ (error .pinAuthUnavail)
      pure .authinfoUnavail

/-- The token of an earlier module. -/
def firstPhase (authtok : Option Str) (used limit : UInt32) : PamM PamReturnCode :=
  match decideFirstPass args authtok policy with
  | .deny => do
    show_ (error .authFailure)
    pure .authErr
  | .tryFirstPass pin => do
    match ← runPinutilTest username pin with
    | .error _ => do
      show_ (error .pinAuthUnavail)
      pure .authinfoUnavail
    | .ok .success => pure .success
    | .ok outcome =>
      if args.useFirstPass then finalizeOutcome outcome
      else
        match outcome with
        | .invalidPin => secondPhase policy username (saturatingAdd used 1) limit
        | outcome => finalizeOutcome outcome
  | .promptUser => secondPhase policy username used limit

/-- `authenticate_user`; a return code is thrown or returned. -/
def authenticateUser (uidOf : Str → Option UInt32) (authtok : Option Str) : PamM PamReturnCode :=
  match uidOf username with
  | none => do
    show_ (error .authFailure)
    pure .userUnknown
  | some _ => do
    match ← runPinutilStatus username with
    | .unavailable _ => do
      show_ (error .pinAuthUnavail)
      pure .authinfoUnavail
    | .notProvisioned => do
      show_ (info .pinNotConfForUser)
      pure .authinfoUnavail
    | .lockedOut => do
      show_ (error .accountLocked)
      pure .maxtries
    | .available used limit => firstPhase policy username args authtok used limit

end Authenticate

end Pam

/-- The code that the application is given. -/
def returnCode : Except PamReturnCode PamReturnCode → PamReturnCode
  | .ok code | .error code => code

end Pinpam
