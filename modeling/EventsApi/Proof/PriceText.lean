import EventsApi.Events.Schemas

/-!
# Prices on the wire

A price is read from what `str` makes of it, written without an exponent, and loses the zeros and the
point at its end. The zeros are only taken where there is a point, so none of a whole number is
lost, and one number has one text.
-/

namespace EventsApi

open Decimal

/-- The text is plain notation of just that number: no exponent, no zero at the end of a fraction
and no point without one. -/
structure PlainNotation (text : String) (value : ℚ) : Prop where
  denotes : ∃ n : Numeral, n.exponent = none ∧ text.toList = n.text ∧ n.value = value
  no_trailing_zero : '.' ∈ text.toList → text.toList.getLast? ≠ some '0'
  no_trailing_point : text.toList.getLast? ≠ some '.'

/-! ### Stripping -/

theorem rstrip_append (front text : List Char) (char : Char) : rstrip (front ++ text) char
    = if rstrip text char = [] then rstrip front char else front ++ rstrip text char := by
  induction text using List.reverseRecOn with
  | nil => simp [rstrip]
  | append_singleton text c ih =>
      rw [← List.append_assoc, rstrip, List.rdropWhile_concat, rstrip, rstrip,
        List.rdropWhile_concat]
      split
      · exact ih
      · simp

theorem rstrip_of_getLast? {text : List Char} {char : Char} (h : text.getLast? ≠ some char) :
    rstrip text char = text := by
  apply List.rdropWhile_eq_self_iff.mpr
  intro hne heq
  rw [List.getLast?_eq_some_getLast hne] at h
  exact h (congrArg some (beq_iff_eq.mp heq))

section Numeral

variable {n : Numeral}

theorem ne_point_of_isDigit {c : Char} (h : c.isDigit = true) : c ≠ '.' := by
  rintro rfl
  cases h

theorem text_of_plain (h : n.exponent = none) :
    n.text = sign n.negative ++ n.whole ++ point n.fraction := by
  rw [Numeral.text, h]
  exact List.append_nil _

theorem text_trim (h : n.exponent = none) :
    n.trim.text = sign n.negative ++ n.whole ++ point (rstrip n.fraction '0') :=
  text_of_plain (n := n.trim) h

theorem getLast?_whole_ne_point : (sign n.negative ++ n.whole).getLast? ≠ some '.' := by
  rw [List.getLast?_append_of_ne_nil _ n.nonempty]
  exact fun hlast => ne_point_of_isDigit (n.isDigit_whole _ (List.mem_of_getLast? hlast)) rfl

theorem getLast?_text (h : n.exponent = none) (hfraction : n.fraction ≠ []) :
    n.text.getLast? = n.fraction.getLast? := by
  rw [text_of_plain h, point_of_ne_nil hfraction, List.append_cons,
    List.getLast?_append_of_ne_nil _ hfraction]

/-- There is a point just if there is a fraction. -/
theorem point_mem_text (h : n.exponent = none) : '.' ∈ n.text ↔ n.fraction ≠ [] := by
  rw [text_of_plain h]
  constructor
  · intro hmem hnil
    rw [hnil, point, List.append_nil, List.mem_append] at hmem
    rcases hmem with hsign | hwhole
    · cases hnegative : n.negative <;> simp [sign, hnegative] at hsign
    · exact ne_point_of_isDigit (n.isDigit_whole _ hwhole) rfl
  · intro hfraction
    rw [point_of_ne_nil hfraction]
    simp

theorem getLast?_text_ne_point (h : n.exponent = none) : n.text.getLast? ≠ some '.' := by
  by_cases hfraction : n.fraction = []
  · rw [text_of_plain h, hfraction, point, List.append_nil]
    exact getLast?_whole_ne_point
  · rw [getLast?_text h hfraction]
    exact fun hlast => ne_point_of_isDigit (n.isDigit_fraction _ (List.mem_of_getLast? hlast)) rfl

/-- Taking the zeros and then the point off the end trims the numeral. -/
theorem rstrip_text (h : n.exponent = none) :
    (if '.' ∈ n.text then rstrip (rstrip n.text '0') '.' else n.text) = n.trim.text := by
  rw [text_trim h]
  by_cases hfraction : n.fraction = []
  · rw [if_neg fun hmem => (point_mem_text h).mp hmem hfraction, text_of_plain h, hfraction]
    rfl
  · have htext : n.text = (sign n.negative ++ n.whole ++ ['.']) ++ n.fraction := by
      rw [text_of_plain h, point_of_ne_nil hfraction, List.append_cons]
    rw [if_pos ((point_mem_text h).mpr hfraction), htext, rstrip_append]
    by_cases hnone : rstrip n.fraction '0' = []
    · -- Nothing is left of the fraction, and the point goes with it.
      have hzeros : rstrip (sign n.negative ++ n.whole ++ ['.']) '0'
          = sign n.negative ++ n.whole ++ ['.'] := rstrip_of_getLast? (by simp)
      have hpoint : rstrip ['.'] '.' = [] := by decide
      rw [if_pos hnone, hzeros, rstrip_append, if_pos hpoint,
        rstrip_of_getLast? getLast?_whole_ne_point, hnone, point, List.append_nil]
    · have hlast : n.trim.text.getLast? ≠ some '.' := getLast?_text_ne_point (n := n.trim) h
      rw [text_trim h, point_of_ne_nil hnone] at hlast
      rw [if_neg hnone, ← List.append_cons, point_of_ne_nil hnone, rstrip_of_getLast? hlast]

theorem plainNotation_of_canonical (h : n.Canonical) :
    PlainNotation (String.ofList n.text) n.value where
  denotes := ⟨n, h.plain, String.toList_ofList, rfl⟩
  no_trailing_zero hmem := by
    rw [String.toList_ofList] at hmem ⊢
    rw [getLast?_text h.plain ((point_mem_text h.plain).mp hmem)]
    exact h.fraction
  no_trailing_point := by
    rw [String.toList_ofList]
    exact getLast?_text_ne_point h.plain

/-- The numeral that goes out for a price. -/
def wireNumeral (n : Numeral) : Numeral := n.number.plain.trim

theorem wireNumeral_value (n : Numeral) : (wireNumeral n).value = n.value := by
  rw [wireNumeral, Numeral.trim_value, Number.plain_value, Numeral.number_value]

theorem wireNumeral_canonical (h : ¬ n.NegativeZero) : (wireNumeral n).Canonical where
  plain := rfl
  whole := n.number.plain_noLeadingZero
  fraction := n.number.plain.trim_getLast?
  sign := fun hzero => h ⟨hzero.1, wireNumeral_value n ▸ hzero.2⟩

end Numeral

/-! ### The text of a price -/

section Price

variable {Num : Type} {str : Num → String} {value : Num} {n : Numeral}

theorem priceAsString_numeral (hstr : str value = String.ofList n.text) :
    priceAsString str (some value) = .ok (some (String.ofList (wireNumeral n).text)) := by
  have hplain : n.number.plain.exponent = none := rfl
  rw [priceAsString, hstr, String.toList_ofList, ofText_text, wireNumeral, ← rstrip_text hplain]
  rfl

/-- Equal prices have one text, in whatever notations `str` gives them. -/
theorem priceAsString_of_value_eq {Num' : Type} {str' : Num' → String} {value' : Num'}
    {n' : Numeral} (hstr : str value = String.ofList n.text)
    (hstr' : str' value' = String.ofList n'.text) (hzero : ¬ n.NegativeZero)
    (hzero' : ¬ n'.NegativeZero) (heq : n.value = n'.value) :
    priceAsString str (some value) = priceAsString str' (some value') := by
  have hvalue : (wireNumeral n).value = (wireNumeral n').value := by
    rw [wireNumeral_value, wireNumeral_value, heq]
  have hsame : wireNumeral n = wireNumeral n' :=
    (wireNumeral_canonical hzero).eq_of_value_eq (wireNumeral_canonical hzero') hvalue
  rw [priceAsString_numeral hstr, priceAsString_numeral hstr', hsame]

/-- A price has one text as a float and as a decimal. -/
theorem priceAsString_float_eq_decimal (d : Number) (hzero : d.negative = true → d.value ≠ 0) :
    priceAsString (fun d : Number => String.ofList d.floatStr.text) (some d)
      = priceAsString (fun d : Number => String.ofList d.decimalStr.text) (some d) := by
  apply priceAsString_of_value_eq rfl rfl
  · rintro ⟨hnegative, hnone⟩
    rw [Number.floatStr_negative] at hnegative
    exact hzero hnegative (d.floatStr_value ▸ hnone)
  · rintro ⟨hnegative, hnone⟩
    exact hzero hnegative (d.decimalStr_value ▸ hnone)
  · rw [Number.floatStr_value, Number.decimalStr_value]

/-- **One text for each price.** A finite price that is no negative zero goes out as plain notation
of just that price, and another price goes out as the same text just if it is equal. -/
theorem priceAsString_plainNotation (hstr : str value = String.ofList n.text)
    (hzero : ¬ n.NegativeZero) :
    ∃ text, priceAsString str (some value) = .ok (some text) ∧ PlainNotation text n.value
      ∧ ∀ (value' : Num) (n' : Numeral), str value' = String.ofList n'.text → ¬ n'.NegativeZero →
        (priceAsString str (some value') = .ok (some text) ↔ n'.value = n.value) := by
  refine ⟨_, priceAsString_numeral hstr, ?_, ?_⟩
  · rw [← wireNumeral_value n]
    exact plainNotation_of_canonical (wireNumeral_canonical hzero)
  · intro value' n' hstr' hzero'
    rw [priceAsString_numeral hstr']
    constructor
    · intro hsame
      injection hsame with hsome
      have htext := String.ofList_injective (Option.some.inj hsome)
      rw [← wireNumeral_value n', Numeral.value_eq_of_text_eq htext, wireNumeral_value]
    · intro heq
      rw [← priceAsString_numeral hstr', priceAsString_of_value_eq hstr' hstr hzero' hzero heq,
        priceAsString_numeral hstr]

/-- The decimals `1E-7` and `1.0E-7` have one text. -/
theorem priceAsString_tenMillionth :
    let str (price : Number) := String.ofList price.decimalStr.text
    ∃ text, priceAsString str (some ⟨false, 1, -7⟩) = .ok (some text)
      ∧ PlainNotation text (1 / 10 ^ 7)
      ∧ priceAsString str (some ⟨false, 10, -8⟩) = .ok (some text) := by
  intro str
  have hvalue : (Number.decimalStr ⟨false, 1, -7⟩).value = 1 / 10 ^ 7 := by
    rw [Number.decimalStr_value]
    norm_num [Number.value]
  have hvalue' : (Number.decimalStr ⟨false, 10, -8⟩).value = 1 / 10 ^ 7 := by
    rw [Number.decimalStr_value]
    norm_num [Number.value]
  obtain ⟨text, htext, hplain, hsame⟩ :=
    @priceAsString_plainNotation Number str ⟨false, 1, -7⟩ _ rfl
      fun hzero => absurd hzero.1 (by decide)
  refine ⟨text, htext, hvalue ▸ hplain, ?_⟩
  exact (hsame ⟨false, 10, -8⟩ _ rfl fun hzero => absurd hzero.1 (by decide)).mpr
    (hvalue'.trans hvalue.symm)

theorem priceAsString_map {priceText : Num → String} (price : Option Num)
    (htext : ∀ value ∈ price, priceAsString str (some value) = .ok (some (priceText value))) :
    priceAsString str price = .ok (price.map priceText) := by
  cases price with
  | none => rfl
  | some value => exact htext value rfl

/-- The response carries the texts of both prices. -/
theorem fromEvent_prices [LinearOrder Num] [Zero Num] (cf : Like.CaseFold)
    {priceText : Num → String} (event : Event Num)
    (hfrom : ∀ value ∈ event.priceFrom,
      priceAsString str (some value) = .ok (some (priceText value)))
    (hto : ∀ value ∈ event.priceTo,
      priceAsString str (some value) = .ok (some (priceText value))) :
    let response := EventResponse.fromEvent cf priceText event
    priceAsString str event.priceFrom = .ok response.priceFrom
      ∧ priceAsString str event.priceTo = .ok response.priceTo :=
  ⟨priceAsString_map event.priceFrom hfrom, priceAsString_map event.priceTo hto⟩

end Price

end EventsApi
