import Pinpam.Core.Config

/-!
# The policy of the NixOS module

`environment.etc."pinpam/policy"` writes the options of `security.pinpam.pin` as a text
for the parser. The line of the longest length is left out where there is none, and the
parser then takes its default.
-/

namespace Pinpam
set_option autoImplicit false

/-- `lib.types.ints.unsigned`; an integer of Nix has 64 bits, one of them its sign. -/
structure NixUnsigned where
  val : Nat
  fits : val < 2 ^ 63
  deriving DecidableEq

/-- `toString` of an integer. -/
def NixUnsigned.toString (n : NixUnsigned) : Str := Nat.toDigits 10 n.val

/-- The options of `security.pinpam.pin` that the text depends on. -/
structure PinOptions where
  minLength : NixUnsigned
  maxLength : Option NixUnsigned
  maxAttempts : NixUnsigned
  pinutilPath : Str

namespace PinOptions

variable (o : PinOptions)

/-- `lines`. -/
def lines : List Str :=
  ["pin_min_length=".toList ++ o.minLength.toString] ++
    (match o.maxLength with
      | some n => ["pin_max_length=".toList ++ n.toString]
      | none => []) ++
    ["pin_lockout_max_attempts=".toList ++ o.maxAttempts.toString,
      "pinutil_path=".toList ++ o.pinutilPath]

/-- The `text` of the file: `lib.concatStringsSep "\n" (lines ++ [ "" ])`. -/
def text : Str := ['\n'].intercalate (o.lines ++ [[]])

/-- The attempts fit, and the path is that of a regular file. -/
structure Sound (system : System) : Prop where
  attempts : o.maxAttempts.val < 2 ^ 32
  absolute : o.pinutilPath.head? = some '/'
  words : ∀ c ∈ o.pinutilPath, isWhitespace c = false
  isFile : system.isFile o.pinutilPath = true

/-- The parser reads the options back. -/
def ReadBack (system : System) : Prop :=
  ∃ policy, PinPolicy.parseConfig system o.text = .ok policy ∧ policy.minLength = o.minLength.val ∧
    policy.maxAttempts.toNat = o.maxAttempts.val ∧ policy.pinutilPath = o.pinutilPath ∧
      policy.maxLength = o.maxLength.map NixUnsigned.val

end PinOptions

section Generator

variable {system : System} {o : PinOptions} {policy : PinPolicy} {key value : Str} {n : NixUnsigned}
  {width : Nat}

/-- A setting as it is written. -/
def setting (x : Str × Str) : Str := x.1 ++ '=' :: x.2

/-- The settings of the lines. -/
def PinOptions.settings (o : PinOptions) : List (Str × Str) :=
  [("pin_min_length".toList, o.minLength.toString)] ++
    (match o.maxLength with
      | some n => [("pin_max_length".toList, n.toString)]
      | none => []) ++
    [("pin_lockout_max_attempts".toList, o.maxAttempts.toString),
      ("pinutil_path".toList, o.pinutilPath)]

theorem lines_settings : o.lines = o.settings.map setting := by
  unfold PinOptions.lines PinOptions.settings
  cases o.maxLength <;> rfl

/-- Each line ends with a newline, the last one too. -/
theorem intercalate_lines (lines : List Str) :
    ['\n'].intercalate (lines ++ [[]]) = lines.flatMap (· ++ ['\n']) := by
  induction lines with
  | nil => rfl
  | cons line lines ih =>
    have more : lines ++ [[]] ≠ [] := by simp
    rw [List.cons_append, List.intercalate_cons_of_ne_nil more, ih, List.flatMap_cons]

/-- The settings are read line by line. -/
theorem parse_settings (settings : List (Str × Str)) (free : ∀ x ∈ settings, '=' ∉ x.1)
    (words : ∀ x ∈ settings, ∀ c ∈ setting x, isWhitespace c = false) :
    (splitWhitespace ((settings.map setting).flatMap (· ++ ['\n']))).foldlM
        (PinPolicy.parsePart system) policy =
      settings.foldlM (fun policy x => PinPolicy.parseSetting system policy x.1 x.2) policy := by
  induction settings generalizing policy with
  | nil => rfl
  | cons x settings ih =>
    have word : PinPolicy.parsePart system policy (setting x) =
        PinPolicy.parseSetting system policy x.1 x.2 := by
      rw [PinPolicy.parsePart, setting, splitOnce_append (free x List.mem_cons_self)]
    rw [List.map_cons, List.flatMap_cons, List.append_assoc, List.singleton_append,
      splitWhitespace_line (words x List.mem_cons_self) (by
        simp [setting]), List.foldlM_cons, List.foldlM_cons, word]
    congr 1
    funext policy
    exact ih (fun y member => free y (List.mem_cons_of_mem _ member)) fun y member =>
      words y (List.mem_cons_of_mem _ member)

theorem isWhitespace_digit {c : Char} (digit : c.isDigit = true) : isWhitespace c = false := by
  simp only [Char.isDigit, Bool.and_eq_true, decide_eq_true_eq, UInt32.le_iff_toNat_le] at digit
  by_contra space
  simp [isWhitespace, UInt32.le_iff_toNat_le, ← UInt32.toNat_inj] at digit space
  omega

theorem toString_words {c : Char} (member : c ∈ n.toString) : isWhitespace c = false :=
  isWhitespace_digit (isDigit_toDigits member)

/-- A test of the characters of a text. -/
theorem words_of_all {s : Str} (all : (s.all fun c => !isWhitespace c) = true) :
    ∀ c ∈ s, isWhitespace c = false := by
  intro c member
  simpa using List.all_eq_true.1 all c member

theorem settings_words (sound : o.Sound system) :
    ∀ x ∈ o.settings, '=' ∉ x.1 ∧ ∀ c ∈ setting x, isWhitespace c = false := by
  have listed : ∀ key ∈ ["pin_min_length".toList, "pin_max_length".toList, "pin_lockout_max_attempts".toList,
      "pinutil_path".toList], '=' ∉ key ∧ (key.all fun c => !isWhitespace c) = true := by decide
  have known : ∀ key ∈ ["pin_min_length".toList, "pin_max_length".toList, "pin_lockout_max_attempts".toList,
      "pinutil_path".toList], '=' ∉ key ∧ ∀ c ∈ key, isWhitespace c = false :=
    fun key member => ⟨(listed key member).1, words_of_all (listed key member).2⟩
  have line : ∀ key value, ('=' ∉ key ∧ ∀ c ∈ key, isWhitespace c = false) →
      (∀ c ∈ value, isWhitespace c = false) →
      '=' ∉ key ∧ ∀ c ∈ setting (key, value), isWhitespace c = false := by
    intro key value left right
    refine ⟨left.1, fun c member => ?_⟩
    rcases List.mem_append.1 member with inKey | inValue
    · exact left.2 c inKey
    · rcases List.mem_cons.1 inValue with same | inValue
      · subst same
        decide
      · exact right c inValue
  have number : ∀ key (n : NixUnsigned), ('=' ∉ key ∧ ∀ c ∈ key, isWhitespace c = false) →
      '=' ∉ key ∧ ∀ c ∈ setting (key, n.toString), isWhitespace c = false :=
    fun key n left => line key n.toString left fun _ => toString_words
  intro x member
  simp only [PinOptions.settings, List.mem_append, List.mem_cons, List.not_mem_nil, or_false] at member
  obtain (rfl | longest) | rfl | rfl := member
  · exact number _ _ (known _ (by simp))
  · cases some_ : o.maxLength with
    | none => simp [some_] at longest
    | some n =>
      simp only [some_, List.mem_singleton] at longest
      subst longest
      exact number _ _ (known _ (by simp))
  · exact number _ _ (known _ (by simp))
  · exact line _ _ (known _ (by simp)) sound.words

theorem parseNumber_toString (fits : n.val < 2 ^ width) :
    PinPolicy.parseNumber width n.toString = .ok n.val := by
  rw [PinPolicy.parseNumber, NixUnsigned.toString, parseUnsigned_toDigits fits]

/-! Each key is only that of its own setting. -/

theorem parseSetting_minLength :
    PinPolicy.parseSetting system policy "pin_min_length".toList value = (do
      let n ← PinPolicy.parseNumber 64 value
      pure { policy with minLength := n }) := if_pos rfl

theorem parseSetting_maxLength :
    PinPolicy.parseSetting system policy "pin_max_length".toList value = (do
      let n ← PinPolicy.parseNumber 64 value
      pure { policy with maxLength := some n }) := by
  rw [PinPolicy.parseSetting, if_neg (by decide), if_pos rfl]

theorem parseSetting_maxAttempts :
    PinPolicy.parseSetting system policy "pin_lockout_max_attempts".toList value = (do
      let n ← PinPolicy.parseNumber 32 value
      pure { policy with maxAttempts := .ofNat n }) := by
  rw [PinPolicy.parseSetting, if_neg (by decide), if_neg (by decide), if_pos rfl]

theorem parseSetting_pinutilPath :
    PinPolicy.parseSetting system policy "pinutil_path".toList value = (do
      let path ← PinPolicy.parsePinutilPath system value
      pure { policy with pinutilPath := path }) := by
  rw [PinPolicy.parseSetting, if_neg (by decide), if_neg (by decide), if_neg (by decide), if_pos rfl]

/-- What the parser makes of the text. -/
theorem parseConfig_text (sound : o.Sound system) : PinPolicy.parseConfig system o.text = .ok
    { minLength := o.minLength.val
      maxLength := (o.maxLength.map NixUnsigned.val).or PinPolicy.default.maxLength
      maxAttempts := .ofNat o.maxAttempts.val
      pinutilPath := o.pinutilPath
      tcti := none } := by
  have settings := settings_words sound
  have length : ∀ n : NixUnsigned, PinPolicy.parseNumber 64 n.toString = .ok n.val := by
    intro n
    have fits := n.fits
    exact parseNumber_toString (by omega)
  have attempts := parseNumber_toString sound.attempts
  have path : PinPolicy.parsePinutilPath system o.pinutilPath = .ok o.pinutilPath := by
    simp [PinPolicy.parsePinutilPath, sound.absolute, sound.isFile]
  unfold PinPolicy.parseConfig PinOptions.text
  rw [intercalate_lines, lines_settings, parse_settings _ (fun x member => (settings x member).1)
    fun x member => (settings x member).2]
  unfold PinOptions.settings
  cases o.maxLength with
  | none =>
    simp only [List.cons_append, List.nil_append, List.foldlM_cons, List.foldlM_nil,
      parseSetting_minLength,
      parseSetting_maxAttempts, parseSetting_pinutilPath, length, attempts, path]
    rfl
  | some n =>
    simp only [List.cons_append, List.nil_append, List.foldlM_cons, List.foldlM_nil,
      parseSetting_minLength,
      parseSetting_maxLength, parseSetting_maxAttempts, parseSetting_pinutilPath,
        length, attempts, path]
    rfl

/-- The options are read back exactly if there is a longest length. -/
theorem policy_text_read_back_iff (sound : o.Sound system) :
    o.ReadBack system ↔ o.maxLength ≠ none := by
  have word : (UInt32.ofNat o.maxAttempts.val).toNat = o.maxAttempts.val := by
    have fits := sound.attempts
    simp
    omega
  constructor
  · rintro ⟨policy, read, -, -, -, longest⟩ absent
    rw [parseConfig_text sound] at read
    cases read
    simp [absent, PinPolicy.default] at longest
  · intro present
    refine ⟨_, parseConfig_text sound, rfl, word, rfl, ?_⟩
    obtain ⟨n, longest⟩ := Option.ne_none_iff_exists'.1 present
    simp [longest]

end Generator

/-! ## Samples -/

/-- A machine on which every path is that of a regular file. -/
def fullSystem : System := ⟨fun _ => true, fun _ => .ok ()⟩

/-- The defaults of the module, with this longest length. -/
def moduleOptions (maxLength : Option NixUnsigned) : PinOptions where
  minLength := ⟨4, by decide⟩
  maxLength
  maxAttempts := ⟨5, by decide⟩
  pinutilPath := "/run/wrappers/bin/pinutil".toList

theorem moduleOptions_sound {maxLength : Option NixUnsigned} :
    (moduleOptions maxLength).Sound fullSystem where
  attempts := by simp [moduleOptions]
  absolute := rfl
  words :=
    have spaceless : ("/run/wrappers/bin/pinutil".toList.all fun c => !isWhitespace c) = true := by decide
    words_of_all spaceless
  isFile := rfl

/-- Twice the longest length that the parser begins with. -/
theorem policy_text_read_back_once : (moduleOptions (some ⟨16, by decide⟩)).ReadBack fullSystem :=
  (policy_text_read_back_iff moduleOptions_sound).2 nofun

/-- `null`, which the option documents as no upper bound, is read as the default bound. -/
theorem policy_text_bounded :
    ¬ ∀ (system : System) (o : PinOptions), o.Sound system → o.ReadBack system := by
  intro claim
  exact (policy_text_read_back_iff moduleOptions_sound).1
    (claim fullSystem (moduleOptions none) moduleOptions_sound) rfl

end Pinpam
