import Pinpam.Util.Json

/-!
# What the PAM module makes of the helper

The module runs pinutil and classifies what it left: the status report of a user, and
the outcome of a test.
-/

namespace Pinpam
set_option autoImplicit false

inductive PinStatus where
  | unavailable (error : PinError)
  | lockedOut
  | notProvisioned
  | available (used limit : UInt32)

/-- `impl From<Result<Option<AttemptInfo>, PinError>> for PinStatus`. -/
def PinStatus.ofReport : PinResult (Option AttemptInfo) → PinStatus
  | .error .pinIsLocked => .lockedOut
  | .error e => .unavailable e
  | .ok none => .notProvisioned
  | .ok (some info) => if info.locked then .lockedOut else .available info.used info.limit

inductive PinutilTestOutcome where
  | success | invalidPin | lockedOut | newlyLockedOut | notConfigured | unavailable
  deriving DecidableEq, Repr

/-- `impl From<Result<(), PinError>> for PinutilTestOutcome`. -/
def PinutilTestOutcome.ofReport : PinResult Unit → PinutilTestOutcome
  | .ok () => .success
  | .error .pinIsLocked => .lockedOut
  | .error (.incorrectPin true) => .newlyLockedOut
  | .error (.incorrectPin false) => .invalidPin
  | .error (.notProvisioned _) => .notConfigured
  | .error _ => .unavailable

/-- A helper that has finished: its exit code and its standard output, `none` where that
is no JSON text. -/
structure Output where
  code : Nat
  stdout : Option Json

/-- `run_pinutil_status`, from the helper's output or the failure to start it. -/
def pinutilStatus : Except Str Output → PinStatus
  | .error e => .unavailable (.ioError e)
  | .ok output =>
    if output.code ≠ 0 then .unavailable (.ioError s!"output status: exit status: {output.code}".toList)
    else
      match output.stdout.bind fromJson with
      | some report => .ofReport report
      | none => .unavailable (.pinutilOutputDecodeError "invalid output".toList)

/-- `run_pinutil_test`, from the helper's output or the failure of a step before it. -/
def pinutilTest : Except Str Output → Except Str PinutilTestOutcome
  | .error e => .error e
  | .ok output =>
    match output.stdout.bind fromJson with
    | some report => .ok (.ofReport report)
    | none => .error "pinutil output isn't valid JSON or is malformed".toList

/-- A report that was printed is the one that is read. -/
theorem pinutilStatus_report (report : PinResult (Option AttemptInfo)) :
    pinutilStatus (.ok ⟨0, some (toJson report)⟩) = .ofReport report := by
  have read : (some (toJson report)).bind fromJson = some report := fromJson_toJson_info report
  simp only [pinutilStatus, ne_eq, not_true, if_false, read]

theorem pinutilTest_report (code : Nat) (report : PinResult Unit) :
    pinutilTest (.ok ⟨code, some (toJson report)⟩) = .ok (.ofReport report) := by
  have read : (some (toJson report)).bind fromJson = some report := fromJson_toJson_unit report
  simp only [pinutilTest, read]

end Pinpam
