import Mathlib.Data.List.TakeDrop
import Pinpam.Core.Slot

/-!
# The policy file

`PinPolicy::parse_config` reads `key=value` settings between white space. The files of
the machine and the TCTI loader are parameters. The NixOS module writes such a text
from its options.
-/

namespace Pinpam
set_option autoImplicit false

/-- `str::split_whitespace`. -/
def splitWhitespace (s : Str) : List Str := (s.splitOnP isWhitespace).filter fun part => !part.isEmpty

/-- `str::split_once`. -/
def splitOnce (c : Char) (s : Str) : Option (Str × Str) :=
  match s.span (· != c) with
  | (key, _ :: value) => some (key, value)
  | (_, []) => none

/-- The digits of a number, without a plus sign. -/
def unsignedDigits : Str → Str
  | '+' :: digits => digits
  | digits => digits

/-- `str::parse` of an unsigned word. -/
def parseUnsigned (width : Nat) (s : Str) : Option Nat :=
  let digits := unsignedDigits s
  if digits = [] ∨ ¬ digits.all Char.isDigit then none
  else if Nat.ofDigitChars 10 digits 0 < 2 ^ width then some (Nat.ofDigitChars 10 digits 0) else none

/-- The machine that a policy is read on. -/
structure System where
  /-- `fs::metadata` succeeds, and says that it is a regular file -/
  isFile : Str → Bool
  /-- `TctiNameConf::from_str` -/
  tctiNameConf : Str → Except TssError Unit

def invalidParam : PinError := .ofTss (.wrapper .invalidParam)

def missingParam : PinError := .ofTss (.wrapper .paramsMissing)

namespace PinPolicy

variable (system : System)

/-- `parse_tcti_setting`. -/
def parseTctiSetting (value : Str) : PinResult Str :=
  if value = [] then .error invalidParam
  else
    match system.tctiNameConf value with
    | .error err => .error (.ofTss err)
    | .ok () => .ok value

/-- `parse_pinutil_path`. -/
def parsePinutilPath (value : Str) : PinResult Str :=
  if value.head? ≠ some '/' then .error invalidParam
  else if system.isFile value then .ok value
  else .error invalidParam

/-- `value.parse().map_err(|_| invalid_param())`; a `usize` has 64 bits. -/
def parseNumber (width : Nat) (value : Str) : PinResult Nat :=
  match parseUnsigned width value with
  | some n => .ok n
  | none => .error invalidParam

/-- One setting; keys that are not known are ignored. -/
def parseSetting (policy : PinPolicy) (key value : Str) : PinResult PinPolicy :=
  if key = "pin_min_length".toList then do
    let n ← parseNumber 64 value
    pure { policy with minLength := n }
  else if key = "pin_max_length".toList then do
    let n ← parseNumber 64 value
    pure { policy with maxLength := some n }
  else if key = "pin_lockout_max_attempts".toList then do
    let n ← parseNumber 32 value
    pure { policy with maxAttempts := .ofNat n }
  else if key = "pinutil_path".toList then do
    let path ← parsePinutilPath system value
    pure { policy with pinutilPath := path }
  else if key = "tcti".toList then do
    let tcti ← parseTctiSetting system value
    pure { policy with tcti := some tcti }
  else pure policy

def parsePart (policy : PinPolicy) (part : Str) : PinResult PinPolicy :=
  match splitOnce '=' part with
  | some (key, value) => parseSetting system policy key value
  | none => .error missingParam

/-- `PinPolicy::parse_config`. -/
def parseConfig (config : Str) : PinResult PinPolicy :=
  (splitWhitespace config).foldlM (parsePart system) .default

end PinPolicy

/-! ## Reading what was written -/

section Reading

variable {system : System} {policy : PinPolicy} {key value part rest : Str} {width n : Nat}

theorem splitOnce_append {c : Char} (free : c ∉ key) :
    splitOnce c (key ++ c :: value) = some (key, value) := by
  have keeps : ∀ x ∈ key, (x != c) = true := by
    intro x member
    simpa using fun same : x = c => free (same ▸ member)
  have span : (key ++ c :: value).span (· != c) = (key, c :: value) := by
    rw [List.span_eq_takeWhile_dropWhile, List.takeWhile_append_of_pos keeps,
      List.dropWhile_append_of_pos keeps]
    simp
  rw [splitOnce, span]

/-- The first word of a text. -/
theorem splitWhitespace_cons {c : Char} (words : ∀ x ∈ part, isWhitespace x = false)
    (nonempty : part ≠ []) (space : isWhitespace c = true) :
    splitWhitespace (part ++ c :: rest) = part :: splitWhitespace rest := by
  unfold splitWhitespace
  rw [List.splitOnP_append_cons_of_forall_mem words c space]
  apply List.filter_cons_of_pos
  simpa using nonempty

/-- A line of its own. -/
theorem splitWhitespace_line (words : ∀ x ∈ part, isWhitespace x = false) (nonempty : part ≠ []) :
    splitWhitespace (part ++ '\n' :: rest) = part :: splitWhitespace rest :=
  splitWhitespace_cons words nonempty (by decide)

theorem isDigit_toDigits {c : Char} (member : c ∈ Nat.toDigits 10 n) : c.isDigit = true :=
  Nat.isDigit_of_mem_toDigits (by decide) (by decide) member

theorem unsignedDigits_toDigits : unsignedDigits (Nat.toDigits 10 n) = Nat.toDigits 10 n := by
  unfold unsignedDigits
  split
  next digits same =>
    have plus : ('+' : Char).isDigit = true := isDigit_toDigits (n := n) (by simp [same])
    exact absurd plus (by decide)
  next => rfl

/-- A number that was written in decimal. -/
theorem parseUnsigned_toDigits (fits : n < 2 ^ width) :
    parseUnsigned width (Nat.toDigits 10 n) = some n := by
  have digits : (Nat.toDigits 10 n).all Char.isDigit = true :=
    List.all_eq_true.2 fun _ => isDigit_toDigits
  unfold parseUnsigned
  simp only [unsignedDigits_toDigits, digits, Nat.toDigits_ne_nil, not_true, or_self, if_false,
    Nat.ofDigitChars_ten_toDigits,
    fits, if_true]

end Reading

end Pinpam
