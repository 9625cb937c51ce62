import ServerSimple.Library.Maps
import ServerSimple.Library.Scanning
import Mathlib.Data.List.Induction
import Mathlib.Data.List.TakeWhile
import Mathlib.Data.Nat.Digits.Defs

/-! # Parsing the query of a request target

A `std::string` is a list of characters, one for each byte. `std::stoll` follows the standard in the
"C" locale, and `std::stod` is an oracle: the value and the number of characters it consumed, or
nothing if it throws.
-/

namespace ServerSimple.Network.HttpParser

open Library

/-- The exceptions of the numeric conversions. -/
inductive ConversionError where
  | invalidArgument
  | outOfRange
  deriving DecidableEq

/-- `std::isspace`. -/
def isSpace (c : Char) : Bool :=
  c == ' ' || c == '\t' || c == '\n' || c == '\x0b' || c == '\x0c' || c == '\r'

def digitValue (c : Char) : ℕ := c.toNat - '0'.toNat

/-- The digits are read from the left. -/
def decimal (digits : List Char) : ℕ := digits.foldl (fun m c => 10 * m + digitValue c) 0

/-- An optional sign, and what follows it. -/
def takeSign : List Char → List Char × List Char
  | '-' :: rest => (['-'], rest)
  | '+' :: rest => (['+'], rest)
  | rest => ([], rest)

def signed (sign : List Char) (m : ℕ) : ℤ := if sign = ['-'] then -m else m

/-- `std::stoll`: the number and how many characters were consumed. -/
def stoll (s : List Char) : Except ConversionError (ℤ × ℕ) :=
  let blanks := s.takeWhile isSpace
  let (sign, rest) := takeSign (s.dropWhile isSpace)
  let digits := rest.takeWhile Char.isDigit
  if digits = [] then .error .invalidArgument
  else
    let n := signed sign (decimal digits)
    if -2 ^ 63 ≤ n ∧ n < 2 ^ 63 then .ok (n, blanks.length + sign.length + digits.length)
    else .error .outOfRange

/-- The JSON values that a parameter can have. -/
inductive Value (Double : Type) where
  | integer (n : ℤ)
  | double (f : Double)
  | text (s : List Char)

/-- The JSON object of the parameters. -/
abbrev Params (Double : Type) := AList fun _ : List Char => Value Double

section

variable {Double : Type} (stod : List Char → Option (Double × ℕ))

/-- The inner attempt: a floating-point number if it is the whole text. -/
def parseDouble (value : List Char) : Value Double :=
  match stod value with
  | some (f, pos) => if pos = value.length then .double f else .text value
  | none => .text value

/-- An integer if it is the whole text; a rest behind the number is an exception like any other. -/
def parseValue (value : List Char) : Value Double :=
  match stoll value with
  | .ok (i, pos) => if pos = value.length then .integer i else parseDouble stod value
  | .error _ => parseDouble stod value

/-- The body of the loop. The outer `Option` is for the exception of `substr`. -/
def parsePair (params : Params Double) (pair : List Char) : Option (Params Double) :=
  match findFrom '=' pair 0 with
  | none => some params
  | some eq => do
    let key ← substr pair 0 eq
    let value ← substrFrom pair (eq + 1)
    some (params.insert key (parseValue stod value))

/-- The end of the piece that begins at `start`. -/
def endOfPair (query : List Char) (start : ℕ) : ℕ :=
  match findFrom '&' query start with
  | some amp => amp
  | none => query.length

theorem le_endOfPair {query : List Char} {start : ℕ} (h : start < query.length) :
    start ≤ endOfPair query start := by
  unfold endOfPair
  split
  · rename_i amp hamp
    exact le_of_findFrom hamp
  · exact h.le

def parseLoop (query : List Char) (start : ℕ) (params : Params Double) : Option (Params Double) :=
  if h : start < query.length then do
    let amp := endOfPair query start
    let pair ← substr query start (amp - start)
    let params ← parsePair stod params pair
    parseLoop query (amp + 1) params
  else some params
termination_by query.length - start
decreasing_by
  have hle := le_endOfPair h
  omega

def parseQuery (target : List Char) : Option (Params Double) :=
  match findFrom '?' target 0 with
  | none => some ∅
  | some pos => do
    let query ← substrFrom target (pos + 1)
    parseLoop stod query 0 ∅

end

/-! ## Integers -/

/-- The text is a decimal integer: optional blanks, an optional sign, and digits. -/
structure IsDecimal (s : List Char) (blanks sign digits : List Char) : Prop where
  eq : s = blanks ++ (sign ++ digits)
  blanks : ∀ c ∈ blanks, isSpace c = true
  sign : sign = [] ∨ sign = ['+'] ∨ sign = ['-']
  ne_nil : digits ≠ []
  digits : ∀ c ∈ digits, c.isDigit = true

/-- The text denotes the integer `n` and `n` is a `long long`. -/
def IntegerText (s : List Char) (n : ℤ) : Prop :=
  ∃ blanks sign digits, IsDecimal s blanks sign digits ∧
    n = (if sign = ['-'] then -1 else 1) *
      ((Nat.ofDigits 10 (digits.reverse.map digitValue) : ℕ) : ℤ) ∧
    -2 ^ 63 ≤ n ∧ n < 2 ^ 63

theorem decimal_eq_ofDigits (digits : List Char) :
    decimal digits = Nat.ofDigits 10 (digits.reverse.map digitValue) := by
  induction digits using List.reverseRecOn with
  | nil => rfl
  | append_singleton digits c ih =>
    have hlast : decimal (digits ++ [c]) = 10 * decimal digits + digitValue c := by
      rw [decimal, List.foldl_append]
      rfl
    rw [hlast, ih, List.reverse_append, List.reverse_singleton, List.singleton_append,
      List.map_cons, Nat.ofDigits_cons, Nat.add_comm]

theorem signed_eq (sign : List Char) (m : ℕ) :
    signed sign m = (if sign = ['-'] then -1 else 1) * (m : ℤ) := by
  unfold signed
  split_ifs <;> simp

theorem not_isSpace_of_isDigit {c : Char} (h : c.isDigit = true) : isSpace c = false := by
  rw [← Bool.not_eq_true]
  intro hspace
  simp only [isSpace, Bool.or_eq_true, beq_iff_eq] at hspace
  obtain ((((rfl | rfl) | rfl) | rfl) | rfl) | rfl := hspace <;> revert h <;> decide

theorem takeSign_eq (s : List Char) :
    (takeSign s).1 ++ (takeSign s).2 = s ∧
      ((takeSign s).1 = [] ∨ (takeSign s).1 = ['+'] ∨ (takeSign s).1 = ['-']) := by
  unfold takeSign
  split <;> simp

theorem takeSign_digits {c : Char} (h : c.isDigit = true) (rest : List Char) :
    takeSign (c :: rest) = ([], c :: rest) := by
  unfold takeSign
  split
  · rename_i heq
    cases heq
    cases h
  · rename_i heq
    cases heq
    cases h
  · rfl

/-- The three parts are found again by the conversion. -/
theorem IsDecimal.parts {s blanks sign digits : List Char} (h : IsDecimal s blanks sign digits) :
    s.takeWhile isSpace = blanks ∧ takeSign (s.dropWhile isSpace) = (sign, digits) ∧
      digits.takeWhile Char.isDigit = digits := by
  obtain ⟨c, rest, rfl⟩ := List.exists_cons_of_ne_nil h.ne_nil
  have hc := h.digits c List.mem_cons_self
  have hhead : ∃ d tail, sign ++ c :: rest = d :: tail ∧ isSpace d = false := by
    obtain rfl | rfl | rfl := h.sign
    · exact ⟨c, rest, rfl, not_isSpace_of_isDigit hc⟩
    · exact ⟨'+', c :: rest, rfl, rfl⟩
    · exact ⟨'-', c :: rest, rfl, rfl⟩
  obtain ⟨d, tail, heq, hd⟩ := hhead
  refine ⟨?_, ?_, List.takeWhile_eq_self_iff.mpr h.digits⟩
  · rw [h.eq, List.takeWhile_append_of_pos h.blanks, heq, List.takeWhile_cons_of_neg (by simp [hd]),
      List.append_nil]
  · have hdrop : s.dropWhile isSpace = sign ++ c :: rest := by
      rw [h.eq, List.dropWhile_append_of_pos h.blanks, heq, List.dropWhile_cons_of_neg (by simp [hd])]
    rw [hdrop]
    obtain rfl | rfl | rfl := h.sign
    · exact takeSign_digits hc rest
    · rfl
    · rfl

/-- If nothing is left behind the digits, the text is made of the parts that the conversion found. -/
theorem isDecimal_of_length {s : List Char}
    (hnil : (takeSign (s.dropWhile isSpace)).2.takeWhile Char.isDigit ≠ [])
    (hlength : (s.takeWhile isSpace).length + (takeSign (s.dropWhile isSpace)).1.length +
      ((takeSign (s.dropWhile isSpace)).2.takeWhile Char.isDigit).length = s.length) :
    IsDecimal s (s.takeWhile isSpace) (takeSign (s.dropWhile isSpace)).1
      ((takeSign (s.dropWhile isSpace)).2.takeWhile Char.isDigit) := by
  obtain ⟨hsign, hshape⟩ := takeSign_eq (s.dropWhile isSpace)
  generalize takeSign (s.dropWhile isSpace) = parts at *
  have hs : s = s.takeWhile isSpace ++ (parts.1 ++ parts.2) := by
    rw [hsign, List.takeWhile_append_dropWhile]
  have hdigits : parts.2.takeWhile Char.isDigit = parts.2 := by
    apply (List.takeWhile_prefix Char.isDigit).eq_of_length
    have htotal := congrArg List.length hs
    simp only [List.length_append] at htotal
    omega
  rw [hdigits] at hnil ⊢
  exact ⟨hs, fun c hc => List.mem_takeWhile_imp hc, hshape, hnil,
    List.takeWhile_eq_self_iff.mp hdigits⟩

/-- The conversion consumes the whole text exactly if the text is an integer in range. -/
theorem stoll_whole_iff {s : List Char} {n : ℤ} : stoll s = .ok (n, s.length) ↔ IntegerText s n := by
  constructor
  · intro h
    simp only [stoll] at h
    split_ifs at h with hnil hrange
    rw [Except.ok.injEq, Prod.mk.injEq] at h
    refine ⟨_, _, _, isDecimal_of_length hnil h.2, ?_, ?_⟩
    · rw [← decimal_eq_ofDigits, ← signed_eq, h.1]
    · rw [← h.1]
      exact hrange
  · rintro ⟨blanks, sign, digits, h, hn, hrange⟩
    obtain ⟨hblanks, hsign, hdigits⟩ := h.parts
    rw [← decimal_eq_ofDigits, ← signed_eq] at hn
    have hlength : blanks.length + sign.length + digits.length = s.length := by
      rw [h.eq, List.length_append, List.length_append, Nat.add_assoc]
    simp only [stoll, hblanks, hsign, hdigits, if_neg h.ne_nil, ← hn, if_pos hrange, hlength]

/-! ## Values -/

section

variable {Double : Type} (stod : List Char → Option (Double × ℕ))

/-- The value that a text stands for: an integer, else a floating-point number, else the text. -/
structure IsValueOf (text : List Char) (value : Value Double) : Prop where
  integer : ∀ n, value = .integer n ↔ IntegerText text n
  double : (∀ n, ¬ IntegerText text n) → ∀ f, stod text = some (f, text.length) → value = .double f
  text : (∀ n, ¬ IntegerText text n) → (∀ f, stod text ≠ some (f, text.length)) →
    value = .text text

theorem parseDouble_ne_integer (text : List Char) (n : ℤ) : parseDouble stod text ≠ .integer n := by
  unfold parseDouble
  split
  · split_ifs <;> simp
  · simp

theorem parseDouble_of_whole {text : List Char} {f : Double}
    (h : stod text = some (f, text.length)) : parseDouble stod text = .double f := by
  simp [parseDouble, h]

theorem parseDouble_of_not_whole {text : List Char} (h : ∀ f, stod text ≠ some (f, text.length)) :
    parseDouble stod text = .text text := by
  unfold parseDouble
  split
  · rename_i f pos hsome
    split_ifs with hpos
    · exact absurd (hpos ▸ hsome) (h f)
    · rfl
  · rfl

theorem parseValue_of_integer {text : List Char} {n : ℤ} (h : IntegerText text n) :
    parseValue stod text = .integer n := by
  simp [parseValue, stoll_whole_iff.mpr h]

theorem parseValue_of_not_integer {text : List Char} (h : ∀ n, ¬ IntegerText text n) :
    parseValue stod text = parseDouble stod text := by
  unfold parseValue
  split
  · rename_i n pos hok
    split_ifs with hpos
    · exact absurd (stoll_whole_iff.mp (hpos ▸ hok)) (h n)
    · rfl
  · rfl

theorem parseValue_isValueOf (text : List Char) : IsValueOf stod text (parseValue stod text) := by
  by_cases hint : ∃ n, IntegerText text n
  · obtain ⟨n, hn⟩ := hint
    rw [parseValue_of_integer stod hn]
    refine ⟨?_, fun h => absurd hn (h n), fun h => absurd hn (h n)⟩
    intro m
    rw [Value.integer.injEq]
    constructor
    · rintro rfl
      exact hn
    · intro hm
      have hsame := (stoll_whole_iff.mpr hn).symm.trans (stoll_whole_iff.mpr hm)
      exact (Prod.mk.inj (Except.ok.inj hsame)).1
  · have hnone := not_exists.mp hint
    rw [parseValue_of_not_integer stod hnone]
    refine ⟨?_, fun _ f hf => parseDouble_of_whole stod hf,
      fun _ hf => parseDouble_of_not_whole stod hf⟩
    intro n
    exact iff_of_false (parseDouble_ne_integer stod text n) (hnone n)

end

end ServerSimple.Network.HttpParser
