import Pinpam.Core.Error

/-!
# PINs and the PIN policy

A `Pin` comes from `Pin.new` only: trimmed, and not empty since no policy accepts
the empty string. Its bytes are the `authValue` of a slot; versions before the tag
stored the PIN without its leading zeros.
-/

namespace Pinpam
set_option autoImplicit false

structure PinPolicy where
  minLength : Nat
  maxLength : Option Nat
  maxAttempts : UInt32
  pinutilPath : Str
  tcti : Option Str
  deriving DecidableEq

def DEFAULT_TCTI_SPEC : Str := "device:/dev/tpmrm0".toList

def DEFAULT_PINUTIL_PATH : Str := "/usr/bin/pinutil".toList

/-- `impl Default for PinPolicy`. -/
def PinPolicy.default : PinPolicy where
  minLength := 4
  maxLength := some 8
  maxAttempts := 3
  pinutilPath := DEFAULT_PINUTIL_PATH
  tcti := none

def PinPolicy.tctiSpec (policy : PinPolicy) : Str := policy.tcti.getD DEFAULT_TCTI_SPEC

/-- `PinPolicy::validate`; the length is that of the UTF-8 encoding. -/
def PinPolicy.validate (policy : PinPolicy) (pin : Str) : PinResult Unit :=
  if pin = [] then .error .pinIsEmpty
  else
    let length := (asBytes pin).length
    if length < policy.minLength then .error (.pinTooShort length policy.minLength)
    else
      match policy.maxLength with
      | some maxLen => if length > maxLen then .error (.pinTooLong length maxLen) else .ok ()
      | none => .ok ()

theorem PinPolicy.nonempty_of_validate {policy : PinPolicy} {pin : Str}
    (valid : policy.validate pin = .ok ()) : pin ≠ [] := by
  rintro rfl
  simp [validate] at valid

/-- A length within the bounds of the policy. -/
def PinPolicy.Bounds (policy : PinPolicy) (length : Nat) : Prop :=
  policy.minLength ≤ length ∧ ∀ max, policy.maxLength = some max → length ≤ max

/-- The gate by the bytes of a PIN. -/
theorem validate_ok_iff {policy : PinPolicy} {s : Str} :
    policy.validate s = .ok () ↔ s ≠ [] ∧ policy.Bounds (asBytes s).length := by
  unfold PinPolicy.validate PinPolicy.Bounds
  by_cases empty : s = []
  · simp [empty]
  rw [if_neg empty]
  dsimp only
  by_cases short : (asBytes s).length < policy.minLength
  · simp [empty, short, Nat.not_le.2 short]
  rw [if_neg short]
  cases bound : policy.maxLength with
  | none => simpa [empty] using Nat.not_lt.1 short
  | some max =>
    by_cases long : (asBytes s).length > max
    · simp [empty, long, Nat.not_le.2 long]
    · simp [empty, long, Nat.not_lt.1 short, Nat.not_lt.1 long]

/-- A PIN that has been normalized and validated. -/
structure Pin where
  str : Str
  normalized : trim str = str
  nonempty : str ≠ []
  deriving DecidableEq

/-- `Pin::new`. -/
def Pin.new (input : Str) (policy : PinPolicy) : PinResult Pin :=
  match valid : policy.validate (trim input) with
  | .ok () => .ok ⟨trim input, trim_trim input, PinPolicy.nonempty_of_validate valid⟩
  | .error err => .error err

theorem Pin.new_eq_ok {input : Str} {policy : PinPolicy} {pin : Pin} :
    Pin.new input policy = .ok pin ↔ policy.validate (trim input) = .ok () ∧ pin.str = trim input := by
  unfold Pin.new
  split
  next valid =>
    refine ⟨fun eq => ⟨valid, ?_⟩, fun ⟨_, eq⟩ => ?_⟩
    · cases eq; rfl
    · obtain ⟨str, _, _⟩ := pin
      cases eq; rfl
  next err invalid => simp [invalid]

/-- A PIN is accepted again by the policy that made it. -/
theorem Pin.new_str {input : Str} {policy : PinPolicy} {pin : Pin}
    (made : Pin.new input policy = .ok pin) :
    Pin.new pin.str policy = .ok pin := by
  obtain ⟨valid, eq⟩ := Pin.new_eq_ok.1 made
  exact Pin.new_eq_ok.2 ⟨by rw [eq, trim_trim]; exact valid, pin.normalized.symm⟩

/-- `normalize_legacy_pin`. -/
def normalizeLegacyPin (pin : Str) : Str :=
  let normalized := pin.dropWhile (· == '0')
  if normalized = [] then ['0'] else normalized

@[simp] theorem normalizeLegacyPin_idem (pin : Str) :
    normalizeLegacyPin (normalizeLegacyPin pin) = normalizeLegacyPin pin := by
  by_cases rest : pin.dropWhile (· == '0') = []
  · simp [normalizeLegacyPin, rest]
  · have again : (pin.dropWhile (· == '0')).dropWhile (· == '0') = pin.dropWhile (· == '0') :=
      dropWhile_of_head fun _ head => head?_dropWhile_not (· == '0') pin head
    simp only [normalizeLegacyPin, if_neg rest, again]

theorem normalizeLegacyPin_of_head {s : Str} (nonempty : s ≠ []) (head : s.head? ≠ some '0') :
    normalizeLegacyPin s = s := by
  have stop : s.dropWhile (· == '0') = s := by
    apply dropWhile_of_head
    intro c first
    exact beq_eq_false_iff_ne.2 fun zero => head (zero ▸ first)
  unfold normalizeLegacyPin
  rw [stop]
  exact if_neg nonempty

theorem normalizeLegacyPin_canonical {s : Str} (canonical : normalizeLegacyPin s = s) :
    s = ['0'] ∨ s.head? ≠ some '0' := by
  unfold normalizeLegacyPin at canonical
  by_cases zeros : s.dropWhile (· == '0') = []
  · simp only [zeros, if_true] at canonical
    exact .inl canonical.symm
  · simp only [zeros, if_false] at canonical
    refine .inr fun head => ?_
    have stop := head?_dropWhile_not (· == '0') s
        (canonical.symm ▸ head : (s.dropWhile (· == '0')).head? = some '0')
    cases stop

/-! ## Authorization values -/

/-- The longest value `Auth::try_from` takes. -/
def authMaxSize : Nat := 64

/-- What the TPM makes of the bytes of a PIN. -/
def Auth.ofBytes (b : Bytes) : Auth := ⟨stripZeros b, stripZeros_stripZeros b⟩

/-- `Auth::try_from`. -/
def Auth.tryFrom (b : Bytes) : Except TssError Auth :=
  if b.length ≤ authMaxSize then .ok (Auth.ofBytes b) else .error (.wrapper .wrongParamSize)

/-- The empty `authValue` of an index defined without one. -/
def Auth.empty : Auth := ⟨[], rfl⟩

theorem Auth.ofBytes_length_le (b : Bytes) : (Auth.ofBytes b).bytes.length ≤ b.length :=
  (List.rdropWhile_prefix _ b).length_le

/-- The value a PIN is stored as by the current format. -/
def Pin.auth (pin : Pin) : Auth := .ofBytes (asBytes pin.str)

/-- The value a PIN is compared as on a slot without a version tag. -/
def Pin.legacyAuth (pin : Pin) : Auth := .ofBytes (asBytes (normalizeLegacyPin pin.str))

theorem Pin.legacyAuth_canonical {pin : Pin} (canonical : normalizeLegacyPin pin.str = pin.str) :
    pin.legacyAuth = pin.auth := by
  rw [legacyAuth, canonical, auth]

/-- Different PINs without NUL bytes are stored as different values. -/
theorem Pin.auth_injective {p q : Pin} (freeP : '\x00' ∉ p.str) (freeQ : '\x00' ∉ q.str)
    (same : p.auth = q.auth) : p = q := by
  have bytes := congrArg Auth.bytes same
  simp only [Pin.auth, Auth.ofBytes, stripZeros_of_not_mem (zero_not_mem_asBytes freeP),
    stripZeros_of_not_mem (zero_not_mem_asBytes freeQ)] at bytes
  obtain ⟨s, _, _⟩ := p
  obtain ⟨s', _, _⟩ := q
  cases asBytes_injective bytes
  rfl

/-! ## Samples -/

/-- A PIN with a leading zero, the same digits with one more, and without any. -/
def chosenPin : Pin := ⟨"0042".toList, by decide +kernel, by decide⟩

def paddedPin : Pin := ⟨"00042".toList, by decide +kernel, by decide⟩

def plainPin : Pin := ⟨"4242".toList, by decide +kernel, by decide⟩

end Pinpam
