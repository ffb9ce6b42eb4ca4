import Mathlib

/-!
# Decimal numbers and their notation

A numeral is a sign, digits with a point among them and perhaps an exponent, and denotes a rational
number. A decimal number is kept as a coefficient and an exponent. It is read from a numeral, and
written as one without an exponent. Among the numerals without superfluous zeros there is just one
for each number.
-/

namespace Decimal

open Nat (ofDigitChars toDigits)

/-! ### Digits -/

theorem ofDigitChars_head (c : Char) (digits : List Char) :
    ofDigitChars 10 (c :: digits) 0
      = 10 ^ digits.length * (c.toNat - '0'.toNat) + ofDigitChars 10 digits 0 := by
  rw [Nat.ofDigitChars_cons, Nat.ofDigitChars_eq_ofDigitChars_zero, Nat.mul_zero, Nat.zero_add]

theorem ofDigitChars_join (whole fraction : List Char) :
    ofDigitChars 10 (whole ++ fraction) 0
      = 10 ^ fraction.length * ofDigitChars 10 whole 0 + ofDigitChars 10 fraction 0 := by
  rw [Nat.ofDigitChars_append, Nat.ofDigitChars_eq_ofDigitChars_zero]

theorem eq_and_eq_of_shifted {k a b r r' : Nat} (hr : r < k) (hr' : r' < k)
    (h : k * a + r = k * b + r') : a = b ∧ r = r' := by
  have hpos : 0 < k := by omega
  have hquotient : a = b := by
    have := congrArg (· / k) h
    simpa [Nat.mul_add_div hpos, Nat.div_eq_of_lt hr, Nat.div_eq_of_lt hr'] using this
  rw [hquotient] at h
  exact ⟨hquotient, Nat.add_left_cancel h⟩

theorem toNat_of_isDigit {c : Char} (h : c.isDigit = true) :
    '0'.toNat ≤ c.toNat ∧ c.toNat ≤ '0'.toNat + 9 := by
  simp only [Char.isDigit, Bool.and_eq_true, decide_eq_true_eq] at h
  exact ⟨UInt32.le_iff_toNat_le.mp h.1, UInt32.le_iff_toNat_le.mp h.2⟩

theorem ofDigitChars_lt {digits : List Char} (h : ∀ c ∈ digits, c.isDigit = true) :
    ofDigitChars 10 digits 0 < 10 ^ digits.length := by
  induction digits with
  | nil => simp
  | cons c digits ih =>
      have hc := toNat_of_isDigit (h c List.mem_cons_self)
      have hdigits := ih fun d hd => h d (List.mem_cons_of_mem _ hd)
      have hdigit : c.toNat - '0'.toNat ≤ 9 := by omega
      calc ofDigitChars 10 (c :: digits) 0
          = 10 ^ digits.length * (c.toNat - '0'.toNat) + ofDigitChars 10 digits 0 :=
            ofDigitChars_head c digits
        _ < 10 ^ digits.length * 9 + 10 ^ digits.length :=
            Nat.add_lt_add_of_le_of_lt (Nat.mul_le_mul_left _ hdigit) hdigits
        _ = 10 ^ (digits.length + 1) := by ring

theorem digitChar_of_isDigit {c : Char} (h : c.isDigit = true) :
    (c.toNat - '0'.toNat).digitChar = c := by
  have hc := toNat_of_isDigit h
  apply Char.toNat_inj.mp
  rw [Nat.toNat_digitChar_of_lt_ten (by omega)]
  change 48 + (c.toNat - 48) = c.toNat
  exact Nat.add_sub_cancel' hc.1

theorem toDigits_of_isDigit {c : Char} (h : c.isDigit = true) :
    toDigits 10 (c.toNat - '0'.toNat) = [c] := by
  have hc := toNat_of_isDigit h
  rw [Nat.toDigits_of_lt_base (by omega), digitChar_of_isDigit h]

/-- Digits of one length that denote the same are the same. -/
theorem eq_of_ofDigitChars {digits digits' : List Char} (h : ∀ c ∈ digits, c.isDigit = true)
    (h' : ∀ c ∈ digits', c.isDigit = true) (hlength : digits.length = digits'.length)
    (hvalue : ofDigitChars 10 digits 0 = ofDigitChars 10 digits' 0) : digits = digits' := by
  induction digits generalizing digits' with
  | nil => exact (List.eq_nil_of_length_eq_zero hlength.symm).symm
  | cons c digits ih =>
      obtain ⟨c', digits', rfl⟩ : ∃ c' tail, digits' = c' :: tail :=
        List.exists_cons_of_length_eq_add_one hlength.symm
      obtain ⟨hc, hdigits⟩ := List.forall_mem_cons.mp h
      obtain ⟨hc', hdigits'⟩ := List.forall_mem_cons.mp h'
      have hlength : digits.length = digits'.length := Nat.succ.inj hlength
      rw [ofDigitChars_head, ofDigitChars_head, hlength] at hvalue
      have hlt := ofDigitChars_lt hdigits
      rw [hlength] at hlt
      obtain ⟨hhead, htail⟩ := eq_and_eq_of_shifted hlt (ofDigitChars_lt hdigits') hvalue
      rw [← digitChar_of_isDigit hc, hhead, digitChar_of_isDigit hc',
        ih hdigits hdigits' hlength htail]

/-- No zero stands before another digit. -/
def NoLeadingZero (digits : List Char) : Prop := digits.head? = some '0' → digits = ['0']

/-- Digits without a leading zero are those of the number they denote. -/
theorem toDigits_ofDigitChars {digits : List Char} (h : ∀ c ∈ digits, c.isDigit = true)
    (hne : digits ≠ []) (hlead : NoLeadingZero digits) :
    toDigits 10 (ofDigitChars 10 digits 0) = digits := by
  induction digits using List.reverseRecOn with
  | nil => exact absurd rfl hne
  | append_singleton front c ih =>
      have hc : c.isDigit = true := h c (List.mem_append_right _ List.mem_cons_self)
      obtain rfl | hfront := eq_or_ne front []
      · rw [List.nil_append, ofDigitChars_head, Nat.ofDigitChars_nil, List.length_nil, pow_zero,
          one_mul, add_zero, toDigits_of_isDigit hc]
      · have hhead : front.head? ≠ some '0' := by
          intro hzero
          have hzeros := hlead (by rw [List.head?_append_of_ne_nil _ hfront, hzero])
          have hlength := congrArg List.length hzeros
          rw [List.length_append, List.length_singleton, List.length_singleton] at hlength
          exact hfront (List.eq_nil_of_length_eq_zero (Nat.succ.inj hlength))
        have hdigits := ih (fun d hd => h d (List.mem_append_left _ hd)) hfront
          fun hzero => absurd hzero hhead
        have hpos : 0 < ofDigitChars 10 front 0 := by
          refine Nat.pos_of_ne_zero fun hzero => hhead ?_
          rw [← hdigits, hzero, Nat.toDigits_zero]
          rfl
        have hlt := toNat_of_isDigit hc
        rw [ofDigitChars_join, ofDigitChars_head, Nat.ofDigitChars_nil, List.length_singleton,
          List.length_nil, pow_one, pow_zero, one_mul, add_zero,
          ← Nat.toDigits_append_toDigits (by decide) hpos (by omega), hdigits,
          toDigits_of_isDigit hc]

theorem noLeadingZero_toDigits (n : Nat) : NoLeadingZero (toDigits 10 n) := by
  induction n using Nat.strongRecOn with
  | _ n ih =>
      intro hzero
      obtain hlt | hle := Nat.lt_or_ge n 10
      · rw [Nat.toDigits_of_lt_base hlt] at hzero ⊢
        rw [Option.some.inj hzero]
      · rw [Nat.toDigits_of_base_le (by decide) hle,
          List.head?_append_of_ne_nil _ Nat.toDigits_ne_nil] at hzero
        have hfront := ih (n / 10) (by omega) hzero
        have hnone : n / 10 = 0 := by
          rw [← Nat.ofDigitChars_ten_toDigits (n := n / 10), hfront]
          rfl
        omega

/-! ### Notation -/

/-- The exponent of a numeral, as in `e-07`. -/
structure Exponent where
  letter : Char
  negative : Bool
  digits : List Char
  isLetter : letter = 'e' ∨ letter = 'E'
  nonempty : digits ≠ []
  isDigit : ∀ c ∈ digits, c.isDigit = true

/-- A number with a negative sign or none. -/
def signed (negative : Bool) (magnitude : Nat) : Int :=
  if negative then -magnitude else magnitude

def Exponent.value (exponent : Exponent) : Int :=
  signed exponent.negative (ofDigitChars 10 exponent.digits 0)

def Exponent.text (exponent : Exponent) : List Char :=
  exponent.letter :: (if exponent.negative then '-' else '+') :: exponent.digits

/-- Digits with a point, or without one if there is no fraction, and perhaps an exponent. -/
@[ext]
structure Numeral where
  negative : Bool
  whole : List Char
  fraction : List Char
  exponent : Option Exponent
  nonempty : whole ≠ []
  isDigit_whole : ∀ c ∈ whole, c.isDigit = true
  isDigit_fraction : ∀ c ∈ fraction, c.isDigit = true

def sign (negative : Bool) : List Char := if negative then ['-'] else []

def point : List Char → List Char
  | [] => []
  | fraction => '.' :: fraction

theorem point_of_ne_nil {fraction : List Char} (h : fraction ≠ []) :
    point fraction = '.' :: fraction := by
  obtain ⟨c, tail, rfl⟩ := List.exists_cons_of_ne_nil h
  rfl

namespace Numeral

variable (n : Numeral)

def text : List Char :=
  sign n.negative ++ n.whole ++ point n.fraction ++ (n.exponent.map Exponent.text).getD []

def shift : Int := (n.exponent.map Exponent.value).getD 0

/-- What the numeral denotes. -/
def value : ℚ :=
  (if n.negative then -1 else 1)
    * (ofDigitChars 10 n.whole 0 + ofDigitChars 10 n.fraction 0 / 10 ^ n.fraction.length)
    * 10 ^ n.shift

/-- A zero with a sign. -/
def NegativeZero : Prop := n.negative = true ∧ n.value = 0

end Numeral

/-- The number `± coefficient * 10 ^ exponent`. -/
structure Number where
  negative : Bool
  coefficient : Nat
  exponent : Int
  deriving DecidableEq

def Number.value (d : Number) : ℚ :=
  (if d.negative then -1 else 1) * d.coefficient * 10 ^ d.exponent

def Numeral.number (n : Numeral) : Number where
  negative := n.negative
  coefficient := ofDigitChars 10 (n.whole ++ n.fraction) 0
  exponent := n.shift - n.fraction.length

theorem Numeral.number_value (n : Numeral) : n.number.value = n.value := by
  have hten : (10 : ℚ) ≠ 0 := by norm_num
  rw [Number.value, Numeral.value, Numeral.number, ofDigitChars_join, zpow_sub₀ hten, zpow_natCast]
  push_cast
  field_simp

/-! ### Reading -/

inductive Error where
  | invalidOperation
  deriving DecidableEq

/-- A decimal is a number, an infinity, or no number at all. -/
inductive Value where
  | finite (number : Number)
  | infinity (negative : Bool)
  | nan (negative signaling : Bool) (payload : List Char)
  deriving DecidableEq

def readSign : List Char → Bool × List Char
  | '-' :: rest => (true, rest)
  | '+' :: rest => (false, rest)
  | rest => (false, rest)

def readFraction : List Char → List Char × List Char
  | '.' :: rest => rest.span Char.isDigit
  | rest => ([], rest)

def readExponent : List Char → Option Int
  | [] => some 0
  | letter :: rest =>
      let (negative, digits) := readSign rest
      if (letter = 'e' ∨ letter = 'E') ∧ digits ≠ [] ∧ digits.all Char.isDigit then
        some (signed negative (ofDigitChars 10 digits 0))
      else none

/-- The names of the infinities and of what is no number, in any case. -/
def readSpecial (negative : Bool) (text : List Char) : Option Value :=
  let name := text.map Char.toLower
  let signaling := name.head? == some 's'
  let kind := if signaling then name.tail else name
  if name = "inf".toList ∨ name = "infinity".toList then some (.infinity negative)
  else if kind.take 3 = "nan".toList ∧ (kind.drop 3).all Char.isDigit then
    some (.nan negative signaling ((kind.drop 3).dropWhile (· == '0')))
  else none

/-- `Decimal(text)`, for a text without blanks and underscores. Exponents are not limited. -/
def Value.ofText (text : List Char) : Except Error Value :=
  let (negative, unsigned) := readSign text
  let (whole, rest) := unsigned.span Char.isDigit
  let (fraction, rest) := readFraction rest
  let value :=
    if whole = [] ∧ fraction = [] then readSpecial negative unsigned
    else (readExponent rest).map fun exponent =>
      .finite ⟨negative, ofDigitChars 10 (whole ++ fraction) 0, exponent - fraction.length⟩
  value.elim (.error .invalidOperation) .ok

theorem readSign_sign (negative : Bool) {c : Char} (h : c.isDigit = true) (rest : List Char) :
    readSign (sign negative ++ c :: rest) = (negative, c :: rest) := by
  cases negative with
  | true => rfl
  | false =>
      change readSign (c :: rest) = _
      unfold readSign
      split
      · next heq => cases heq; cases h
      · next heq => cases heq; cases h
      · rfl

theorem span_digits {digits rest : List Char} (h : ∀ c ∈ digits, c.isDigit = true)
    (hrest : ∀ c ∈ rest.head?, c.isDigit = false) :
    (digits ++ rest).span Char.isDigit = (digits, rest) := by
  rw [List.span_eq_takeWhile_dropWhile, List.takeWhile_append_of_pos h,
    List.dropWhile_append_of_pos h]
  cases rest with
  | nil => simp
  | cons c rest =>
      have hc : c.isDigit = false := hrest c rfl
      simp [hc]

theorem readFraction_point {fraction rest : List Char} (h : ∀ c ∈ fraction, c.isDigit = true)
    (hrest : ∀ c ∈ rest.head?, c.isDigit = false ∧ c ≠ '.') :
    readFraction (point fraction ++ rest) = (fraction, rest) := by
  cases fraction with
  | nil =>
      change readFraction rest = _
      unfold readFraction
      split
      · next tail => exact absurd rfl (hrest '.' rfl).2
      · rfl
  | cons c fraction => exact span_digits h fun d hd => (hrest d hd).1

theorem readExponent_text (exponent : Exponent) :
    readExponent exponent.text = some exponent.value := by
  have hsign : readSign ((if exponent.negative then '-' else '+') :: exponent.digits)
      = (exponent.negative, exponent.digits) := by
    cases exponent.negative <;> rfl
  rw [Exponent.text, readExponent, hsign]
  exact if_pos ⟨exponent.isLetter, exponent.nonempty, List.all_eq_true.mpr exponent.isDigit⟩

/-- What is read of a numeral is its number. -/
theorem ofText_text (n : Numeral) : Value.ofText n.text = .ok (.finite n.number) := by
  obtain ⟨c, whole, hwhole⟩ := List.exists_cons_of_ne_nil n.nonempty
  have hc : c.isDigit = true := n.isDigit_whole c (hwhole ▸ List.mem_cons_self)
  let written := (n.exponent.map Exponent.text).getD []
  have hwritten : readExponent written = some n.shift ∧
      ∀ c ∈ written.head?, c.isDigit = false ∧ c ≠ '.' := by
    cases hexponent : n.exponent with
    | none => simp [written, Numeral.shift, hexponent, readExponent]
    | some exponent =>
        simp only [written, Numeral.shift, hexponent, Option.map_some, Option.getD_some]
        refine ⟨readExponent_text exponent, ?_⟩
        rintro c ⟨⟩
        rcases exponent.isLetter with hletter | hletter <;> rw [hletter] <;> decide
  have hrest : ∀ c ∈ (point n.fraction ++ written).head?, c.isDigit = false := by
    cases n.fraction with
    | nil => exact fun c hc => (hwritten.2 c hc).1
    | cons d fraction =>
        rintro c ⟨⟩
        rfl
  have htext : n.text = sign n.negative ++ c :: (whole ++ (point n.fraction ++ written)) := by
    simp [Numeral.text, hwhole, written]
  have hspan : (c :: (whole ++ (point n.fraction ++ written))).span Char.isDigit
      = (n.whole, point n.fraction ++ written) := by
    rw [hwhole]
    exact span_digits (hwhole ▸ n.isDigit_whole) hrest
  rw [htext, Value.ofText, readSign_sign n.negative hc]
  dsimp only
  rw [hspan]
  dsimp only
  rw [readFraction_point n.isDigit_fraction hwritten.2]
  dsimp only
  rw [if_neg (fun hnone => n.nonempty hnone.1), hwritten.1]
  rfl

theorem Numeral.value_eq_of_text_eq {n n' : Numeral} (h : n.text = n'.text) :
    n.value = n'.value := by
  have hread := ofText_text n
  rw [h, ofText_text] at hread
  injection hread with hvalue
  injection hvalue with hnumber
  rw [← number_value, ← hnumber, number_value]

/-! ### Writing -/

/-- The digits before and after the point, when it stands after that many digits. Zeros stand where
there are no digits. -/
def place (digits : List Char) (point : Int) : List Char × List Char :=
  if point < 0 then (['0'], List.replicate (-point).toNat '0' ++ digits)
  else if digits.length < point then
    (digits ++ List.replicate (point - digits.length).toNat '0', [])
  else
    let whole := digits.take point.toNat
    (if whole = [] then ['0'] else whole, digits.drop point.toNat)

/-- What stands before and after the point are digits. They denote the number with the point moved,
and there is no fraction where none is needed. -/
structure Placed (digits : List Char) (point : Int) (whole fraction : List Char) : Prop where
  nonempty : whole ≠ []
  isDigit_whole : ∀ c ∈ whole, c.isDigit = true
  isDigit_fraction : ∀ c ∈ fraction, c.isDigit = true
  length : (fraction.length : Int) = max 0 (digits.length - point)
  value : ofDigitChars 10 (whole ++ fraction) 0
    = 10 ^ (point - digits.length).toNat * ofDigitChars 10 digits 0
  noLeadingZero : NoLeadingZero digits → (digits = ['0'] → point ≤ 1) → NoLeadingZero whole

theorem isDigit_replicate (count : Nat) : ∀ c ∈ List.replicate count '0', c.isDigit = true := by
  intro c hc
  rw [List.eq_of_mem_replicate hc]
  rfl

section Place

variable {digits : List Char} (h : ∀ c ∈ digits, c.isDigit = true) {point : Int}

include h

theorem placed_before (hpoint : point < 0) :
    Placed digits point ['0'] (List.replicate (-point).toNat '0' ++ digits) where
  nonempty := List.cons_ne_nil _ _
  isDigit_whole := isDigit_replicate 1
  isDigit_fraction := List.forall_mem_append.mpr ⟨isDigit_replicate _, h⟩
  length := by
    rw [List.length_append, List.length_replicate]
    omega
  value := by
    have hzero : (point - digits.length).toNat = 0 := by omega
    rw [hzero, pow_zero, one_mul, List.singleton_append, ofDigitChars_head,
      Nat.ofDigitChars_append, Nat.ofDigitChars_replicate_zero]
    simp
  noLeadingZero _ _ _ := rfl

theorem placed_after (hne : digits ≠ []) (hpoint : digits.length < point) :
    Placed digits point (digits ++ List.replicate (point - digits.length).toNat '0') [] where
  nonempty := List.append_ne_nil_of_left_ne_nil hne _
  isDigit_whole := List.forall_mem_append.mpr ⟨h, isDigit_replicate _⟩
  isDigit_fraction := List.forall_mem_nil _
  length := by
    rw [List.length_nil]
    omega
  value := by
    rw [List.append_nil, Nat.ofDigitChars_append, Nat.ofDigitChars_replicate_zero]
  noLeadingZero hlead hone hhead := by
    rw [List.head?_append_of_ne_nil _ hne] at hhead
    have hzero := hlead hhead
    have hle := hone hzero
    rw [hzero, List.length_singleton] at hpoint
    omega

theorem placed_within (hbefore : ¬ point < 0) (hafter : ¬ digits.length < point) :
    Placed digits point
      (if digits.take point.toNat = [] then ['0'] else digits.take point.toNat)
      (digits.drop point.toNat) where
  nonempty := by
    split
    · exact List.cons_ne_nil _ _
    · assumption
  isDigit_whole := by
    split
    · exact isDigit_replicate 1
    · exact fun c hc => h c (List.mem_of_mem_take hc)
  isDigit_fraction c hc := h c (List.mem_of_mem_drop hc)
  length := by
    rw [List.length_drop]
    omega
  value := by
    have hzero : (point - digits.length).toNat = 0 := by omega
    have hall := List.take_append_drop point.toNat digits
    rw [hzero, pow_zero, one_mul]
    split
    · next hnone =>
        rw [hnone, List.nil_append] at hall
        rw [hall, List.singleton_append, ofDigitChars_head]
        simp
    · rw [hall]
  noLeadingZero hlead _ := by
    split
    · exact fun _ => rfl
    · next hsome =>
        intro hhead
        have hdigits : digits = ['0'] := by
          apply hlead
          rw [← List.take_append_drop point.toNat digits, List.head?_append_of_ne_nil _ hsome, hhead]
        rw [hdigits] at hsome ⊢
        cases hcount : point.toNat with
        | zero => exact absurd (by rw [hcount]; rfl) hsome
        | succ count => exact List.take_of_length_le (Nat.le_add_left 1 count)

theorem place_placed (hne : digits ≠ []) :
    Placed digits point (place digits point).1 (place digits point).2 := by
  unfold place
  split
  · next hbefore => exact placed_before h hbefore
  · next hbefore =>
      split
      · next hafter => exact placed_after h hne hafter
      · next hafter => exact placed_within h hbefore hafter

end Place

/-- The point has moved to one side, and the fraction makes up for the other. -/
theorem Placed.scaled {digits whole fraction : List Char} {point : Int}
    (h : Placed digits point whole fraction) :
    (ofDigitChars 10 (whole ++ fraction) 0 : ℚ) * 10 ^ (0 - (fraction.length : Int))
      = ofDigitChars 10 digits 0 * 10 ^ (point - digits.length) := by
  have hten : (10 : ℚ) ≠ 0 := by norm_num
  have hlength := h.length
  have hexponent : ((point - digits.length).toNat : Int) + (0 - fraction.length)
      = point - digits.length := by omega
  calc (ofDigitChars 10 (whole ++ fraction) 0 : ℚ) * 10 ^ (0 - (fraction.length : Int))
      = ofDigitChars 10 digits 0
          * (10 ^ ((point - digits.length).toNat : Int) * 10 ^ (0 - (fraction.length : Int))) := by
        rw [h.value, zpow_natCast]
        push_cast
        ring
    _ = ofDigitChars 10 digits 0 * 10 ^ (point - digits.length) := by
        rw [← zpow_add₀ hten, hexponent]

namespace Number

variable (d : Number)

def digits : List Char := toDigits 10 d.coefficient

theorem isDigit_digits : ∀ c ∈ d.digits, c.isDigit = true :=
  fun _ hc => Nat.isDigit_of_mem_toDigits (by decide) le_rfl hc

theorem placed (point : Int) : Placed d.digits point (place d.digits point).1
    (place d.digits point).2 :=
  place_placed d.isDigit_digits Nat.toDigits_ne_nil

/-- The digits of the number with a point among them. -/
def pointed (point : Int) : Numeral where
  negative := d.negative
  whole := (place d.digits point).1
  fraction := (place d.digits point).2
  exponent := none
  nonempty := (d.placed point).nonempty
  isDigit_whole := (d.placed point).isDigit_whole
  isDigit_fraction := (d.placed point).isDigit_fraction

theorem pointed_value (point : Int) : (d.pointed point).value
    = (if d.negative then -1 else 1) * (d.coefficient * 10 ^ (point - d.digits.length)) := by
  have hscaled := (d.placed point).scaled
  rw [digits, Nat.ofDigitChars_ten_toDigits] at hscaled
  rw [← Numeral.number_value, Number.value, mul_assoc]
  exact congrArg _ hscaled

/-- The number without an exponent. A zero has no zeros before the point. -/
def plain : Numeral :=
  let exponent := if d.coefficient = 0 ∧ 0 < d.exponent then 0 else d.exponent
  d.pointed (exponent + d.digits.length)

end Number

/-- `format(value, "f")`. -/
def Value.format : Value → List Char
  | .finite number => number.plain.text
  | .infinity negative => sign negative ++ "Infinity".toList
  | .nan negative signaling payload =>
      sign negative ++ (if signaling then ['s'] else []) ++ "NaN".toList ++ payload

namespace Number

variable (d : Number)

theorem plain_value : d.plain.value = d.value := by
  rw [plain, pointed_value, add_sub_cancel_right, Number.value, mul_assoc]
  congr 1
  by_cases hzero : d.coefficient = 0
  · rw [hzero, Nat.cast_zero, zero_mul, zero_mul]
  · rw [if_neg fun hboth => hzero hboth.1]

theorem plain_noLeadingZero : NoLeadingZero d.plain.whole := by
  refine (d.placed _).noLeadingZero (noLeadingZero_toDigits _) fun hdigits => ?_
  have hzero : d.coefficient = 0 := by
    rw [← Nat.ofDigitChars_ten_toDigits (n := d.coefficient)]
    exact congrArg (ofDigitChars 10 · 0) hdigits
  rw [hdigits, List.length_singleton]
  split
  · rfl
  · next hnot =>
      have hle := not_lt.mp fun hpos => hnot ⟨hzero, hpos⟩
      omega

end Number

/-! ### Numerals without superfluous zeros -/

/-- The zeros at the end of a fraction denote nothing. -/
theorem fraction_trim (fraction : List Char) :
    (ofDigitChars 10 (fraction.rdropWhile (· == '0')) 0 : ℚ)
        / 10 ^ (fraction.rdropWhile (· == '0')).length
      = ofDigitChars 10 fraction 0 / 10 ^ fraction.length := by
  induction fraction using List.reverseRecOn with
  | nil => rfl
  | append_singleton fraction c ih =>
      rw [List.rdropWhile_concat]
      split
      · next hzero =>
          rw [beq_iff_eq.mp hzero, ih, ofDigitChars_join, ofDigitChars_head, List.length_append,
            List.length_singleton, pow_succ]
          simp only [Nat.ofDigitChars_nil, Nat.sub_self, mul_zero, add_zero]
          push_cast
          field_simp
          ring
      · rfl

namespace Numeral

/-- The numeral without the zeros at the end of its fraction. -/
def trim (n : Numeral) : Numeral :=
  { n with
    fraction := n.fraction.rdropWhile (· == '0')
    isDigit_fraction := fun c hc => n.isDigit_fraction c ((List.rdropWhile_prefix _ _).subset hc) }

theorem trim_value (n : Numeral) : n.trim.value = n.value := by
  rw [value, value]
  change _ * (_ + (ofDigitChars 10 (n.fraction.rdropWhile (· == '0')) 0 : ℚ)
    / 10 ^ (n.fraction.rdropWhile (· == '0')).length) * _ = _
  rw [fraction_trim]
  rfl

theorem trim_getLast? (n : Numeral) : n.trim.fraction.getLast? ≠ some '0' := by
  intro hlast
  have hne : n.trim.fraction ≠ [] := by
    intro hnil
    rw [hnil] at hlast
    cases hlast
  rw [List.getLast?_eq_some_getLast hne] at hlast
  exact List.rdropWhile_last_not _ _ hne (beq_iff_eq.mpr (Option.some.inj hlast))

/-- No exponent, no zero that could be left out, and no sign before a zero. -/
structure Canonical (n : Numeral) : Prop where
  plain : n.exponent = none
  whole : NoLeadingZero n.whole
  fraction : n.fraction.getLast? ≠ some '0'
  sign : ¬ n.NegativeZero

variable {n n' : Numeral}

theorem value_of_plain (h : n.exponent = none) : n.value = (if n.negative then -1 else 1)
    * (ofDigitChars 10 (n.whole ++ n.fraction) 0 / 10 ^ n.fraction.length) := by
  have hshift : n.shift = 0 := by rw [shift, h]; rfl
  rw [value, hshift, zpow_zero, mul_one, ofDigitChars_join]
  push_cast
  field_simp

namespace Canonical

theorem negative_iff (h : n.Canonical) : n.negative = true ↔ n.value < 0 := by
  have hvalue := value_of_plain h.plain
  have hpos : (0 : ℚ) ≤ ofDigitChars 10 (n.whole ++ n.fraction) 0 / 10 ^ n.fraction.length := by
    positivity
  constructor
  · intro hnegative
    have hne : n.value ≠ 0 := fun hzero => h.sign ⟨hnegative, hzero⟩
    rw [hnegative, if_pos rfl] at hvalue
    exact lt_of_le_of_ne (by linarith) hne
  · intro hlt
    by_contra hnegative
    rw [if_neg hnegative] at hvalue
    linarith

/-- The last digit of a fraction is none that could be left out. -/
theorem not_dvd (h : n.Canonical) (hfraction : n.fraction ≠ []) :
    ¬ 10 ∣ ofDigitChars 10 (n.whole ++ n.fraction) 0 := by
  obtain ⟨front, c, hlast⟩ : ∃ front c, n.fraction = front ++ [c] :=
    ⟨_, _, (List.dropLast_append_getLast hfraction).symm⟩
  have hc : c.isDigit = true := n.isDigit_fraction c (by rw [hlast]; simp)
  have hne : c ≠ '0' := by
    rintro rfl
    exact h.fraction (by rw [hlast]; simp)
  have hlt := toNat_of_isDigit hc
  have hdigit : c.toNat ≠ '0'.toNat := fun heq => hne (Char.toNat_inj.mp heq)
  rw [hlast, ← List.append_assoc, ofDigitChars_join, ofDigitChars_head]
  simp only [List.length_singleton, List.length_nil, Nat.ofDigitChars_nil]
  omega

theorem length_le (h' : n'.Canonical)
    (heq : ofDigitChars 10 (n.whole ++ n.fraction) 0 * 10 ^ n'.fraction.length
      = ofDigitChars 10 (n'.whole ++ n'.fraction) 0 * 10 ^ n.fraction.length) :
    n'.fraction.length ≤ n.fraction.length := by
  by_contra hlt
  obtain ⟨extra, hextra⟩ := Nat.exists_eq_add_of_lt (not_le.mp hlt)
  have hfraction : n'.fraction ≠ [] := by
    intro hnil
    rw [hnil] at hextra
    exact absurd hextra (by simp)
  apply h'.not_dvd hfraction
  refine ⟨ofDigitChars 10 (n.whole ++ n.fraction) 0 * 10 ^ extra, ?_⟩
  apply Nat.eq_of_mul_eq_mul_right (Nat.pow_pos (n := n.fraction.length) (by decide : 0 < 10))
  rw [← heq, hextra, pow_succ, pow_add]
  ring

/-- **Uniqueness.** There is one numeral without superfluous zeros for each number. -/
theorem eq_of_value_eq (h : n.Canonical) (h' : n'.Canonical) (heq : n.value = n'.value) :
    n = n' := by
  have hnegative : n.negative = n'.negative := by
    rw [Bool.eq_iff_iff, h.negative_iff, h'.negative_iff, heq]
  have hmagnitude : ofDigitChars 10 (n.whole ++ n.fraction) 0 * 10 ^ n'.fraction.length
      = ofDigitChars 10 (n'.whole ++ n'.fraction) 0 * 10 ^ n.fraction.length := by
    rw [value_of_plain h.plain, value_of_plain h'.plain, hnegative] at heq
    have hsign : (if n'.negative then -1 else 1 : ℚ) ≠ 0 := by split <;> norm_num
    have hquotients := mul_left_cancel₀ hsign heq
    rw [div_eq_div_iff (by positivity) (by positivity)] at hquotients
    exact_mod_cast hquotients
  have hlength : n.fraction.length = n'.fraction.length :=
    le_antisymm (h.length_le hmagnitude.symm) (h'.length_le hmagnitude)
  rw [hlength] at hmagnitude
  have hpos : 0 < 10 ^ n'.fraction.length := Nat.pow_pos (by decide)
  have hvalue := Nat.eq_of_mul_eq_mul_right hpos hmagnitude
  rw [ofDigitChars_join, ofDigitChars_join, hlength] at hvalue
  have hlt := ofDigitChars_lt n.isDigit_fraction
  rw [hlength] at hlt
  obtain ⟨hwhole, hfraction⟩ :=
    eq_and_eq_of_shifted hlt (ofDigitChars_lt n'.isDigit_fraction) hvalue
  ext1
  · exact hnegative
  · rw [← toDigits_ofDigitChars n.isDigit_whole n.nonempty h.whole, hwhole,
      toDigits_ofDigitChars n'.isDigit_whole n'.nonempty h'.whole]
  · exact eq_of_ofDigitChars n.isDigit_fraction n'.isDigit_fraction hlength hfraction
  · rw [h.plain, h'.plain]

end Canonical

end Numeral

/-! ### Notation with an exponent -/

/-- An exponent of that many digits at least. -/
def Exponent.ofInt (letter : Char) (isLetter : letter = 'e' ∨ letter = 'E') (width : Nat)
    (exponent : Int) : Exponent where
  letter := letter
  negative := decide (exponent < 0)
  digits :=
    let digits := toDigits 10 exponent.natAbs
    List.replicate (width - digits.length) '0' ++ digits
  isLetter := isLetter
  nonempty := List.append_ne_nil_of_right_ne_nil _ Nat.toDigits_ne_nil
  isDigit := List.forall_mem_append.mpr
    ⟨isDigit_replicate _, fun _ hc => Nat.isDigit_of_mem_toDigits (by decide) le_rfl hc⟩

theorem Exponent.ofInt_value (letter : Char) (isLetter : letter = 'e' ∨ letter = 'E')
    (width : Nat) (exponent : Int) :
    (Exponent.ofInt letter isLetter width exponent).value = exponent := by
  have hdigits : ofDigitChars 10 (Exponent.ofInt letter isLetter width exponent).digits 0
      = exponent.natAbs := by
    simp only [Exponent.ofInt]
    rw [Nat.ofDigitChars_append, Nat.ofDigitChars_replicate_zero, Nat.mul_zero,
      Nat.ofDigitChars_ten_toDigits]
  rw [Exponent.value, hdigits]
  by_cases hneg : exponent < 0
  · simp only [Exponent.ofInt, signed, hneg, decide_true, if_true]
    omega
  · simp only [Exponent.ofInt, signed, hneg, decide_false, Bool.false_eq_true, if_false]
    omega

/-- A fraction of one zero where there is none. -/
def Numeral.withFraction (n : Numeral) : Numeral :=
  { n with
    fraction := if n.fraction = [] then ['0'] else n.fraction
    isDigit_fraction := by
      split
      · exact isDigit_replicate 1
      · exact n.isDigit_fraction }

theorem Numeral.withFraction_value (n : Numeral) : n.withFraction.value = n.value := by
  have hfraction : n.withFraction.fraction.rdropWhile (· == '0')
      = n.fraction.rdropWhile (· == '0') := by
    simp only [withFraction]
    split
    · next hnone => rw [hnone]; rfl
    · rfl
  have htrim : n.withFraction.trim = n.trim := Numeral.ext rfl rfl hfraction rfl
  rw [← trim_value, htrim, trim_value]

namespace Number

variable (d : Number)

/-- The digits before the point when there is no exponent. Zeros count below none. -/
def leftdigits : Int := d.exponent + d.digits.length

/-- The point after `dotplace` digits, and the exponent that makes up for it if it is not there. -/
def scientific (letter : Char) (isLetter : letter = 'e' ∨ letter = 'E') (width : Nat)
    (dotplace : Int) : Numeral :=
  { d.pointed dotplace with
    exponent :=
      if d.leftdigits = dotplace then none
      else some (Exponent.ofInt letter isLetter width (d.leftdigits - dotplace)) }

theorem scientific_value (letter : Char) (isLetter : letter = 'e' ∨ letter = 'E') (width : Nat)
    (dotplace : Int) : (d.scientific letter isLetter width dotplace).value = d.value := by
  have hten : (10 : ℚ) ≠ 0 := by norm_num
  have hshift : (d.scientific letter isLetter width dotplace).shift = d.leftdigits - dotplace := by
    simp only [scientific, Numeral.shift]
    split
    · next heq => rw [heq, sub_self]; rfl
    · exact Exponent.ofInt_value letter isLetter width _
  have hexponent : dotplace - d.digits.length + (d.leftdigits - dotplace) = d.exponent := by
    rw [leftdigits]
    ring
  calc (d.scientific letter isLetter width dotplace).value
      = (d.pointed dotplace).value * 10 ^ (d.leftdigits - dotplace) := by
        have hpointed : (d.pointed dotplace).shift = 0 := rfl
        rw [Numeral.value, hshift, Numeral.value, hpointed, zpow_zero, mul_one]
        rfl
    _ = (if d.negative then -1 else 1) * d.coefficient
          * (10 ^ (dotplace - d.digits.length) * 10 ^ (d.leftdigits - dotplace)) := by
        rw [pointed_value]
        ring
    _ = d.value := by rw [← zpow_add₀ hten, hexponent, value]

/-- `str` of a decimal: without an exponent if the digits reach the point and at most five zeros
stand between them. -/
def decimalStr : Numeral :=
  d.scientific 'E' (.inr rfl) 1 (if d.exponent ≤ 0 ∧ -6 < d.leftdigits then d.leftdigits else 1)

theorem decimalStr_value : d.decimalStr.value = d.value := scientific_value ..

/-- `str` of a float, by the shortest digits that denote it: without an exponent if at most sixteen
digits stand before the point and at most three zeros after it. -/
def floatStr : Numeral :=
  if -4 < d.leftdigits ∧ d.leftdigits ≤ 16 then
    (d.scientific 'e' (.inl rfl) 2 d.leftdigits).withFraction
  else d.scientific 'e' (.inl rfl) 2 1

theorem floatStr_negative : d.floatStr.negative = d.negative := by
  rw [floatStr]
  split <;> rfl

theorem floatStr_value : d.floatStr.value = d.value := by
  rw [floatStr]
  split
  · rw [Numeral.withFraction_value, scientific_value]
  · exact scientific_value ..

end Number

end Decimal
