import Mathlib.Init

/-!
# Query strings

Percent-encoding and the pairs of a query string, as `urllib.parse` has them: `quote_plus`, `unquote`
with replacement of what is not UTF-8, `urlencode` and `parse_qsl` with blank values kept.
-/

namespace UrlQuery

/-! ### Percent-encoding -/

def hexDigit (n : Nat) : Char := "0123456789ABCDEF".toList.getD n '0'

def hexValue (c : Char) : Option Nat :=
  if '0' ≤ c ∧ c ≤ '9' then some (c.toNat - '0'.toNat)
  else if 'A' ≤ c ∧ c ≤ 'F' then some (c.toNat - 'A'.toNat + 10)
  else if 'a' ≤ c ∧ c ≤ 'f' then some (c.toNat - 'a'.toNat + 10)
  else none

/-- The characters `quote` leaves as they are. -/
def unreserved (c : Char) : Bool := c.isAlphanum || ['_', '.', '-', '~'].contains c

def percentByte (byte : UInt8) : List Char :=
  ['%', hexDigit (byte.toNat / 16), hexDigit (byte.toNat % 16)]

def quotePlusChar (c : Char) : List Char :=
  if c = ' ' then ['+']
  else if unreserved c then [c]
  else (String.utf8EncodeChar c).flatMap percentByte

def quotePlus (text : List Char) : List Char := text.flatMap quotePlusChar

/-- A percent sign that two hexadecimal digits do not follow stands for itself. -/
def unquoteToBytes : List Char → List UInt8
  | '%' :: high :: low :: rest =>
      match hexValue high, hexValue low with
      | some h, some l => UInt8.ofNat (16 * h + l) :: unquoteToBytes rest
      | _, _ => UInt8.ofNat '%'.toNat :: unquoteToBytes (high :: low :: rest)
  | c :: rest => UInt8.ofNat c.toNat :: unquoteToBytes rest
  | [] => []

/-! ### UTF-8 with replacement -/

def decodeChar (bytes : List UInt8) : Option Char := bytes.toByteArray.utf8DecodeChar? 0

def isContinuation (byte : UInt8) : Bool := decide (0x80 ≤ byte ∧ byte ≤ 0xBF)

/-- The second bytes that a lead byte of three or four admits. -/
def admitsSecond (lead second : UInt8) : Bool :=
  isContinuation second
    && (if lead = 0xE0 then decide (0xA0 ≤ second)
      else if lead = 0xED then decide (second ≤ 0x9F)
      else if lead = 0xF0 then decide (0x90 ≤ second)
      else if lead = 0xF4 then decide (second ≤ 0x8F)
      else decide (0xE1 ≤ lead ∧ lead ≤ 0xF3))

/-- The bytes that one replacement character stands for where no character begins: as many as could
have begun one. -/
def brokenLength : List UInt8 → Nat
  | lead :: second :: rest =>
      if admitsSecond lead second then
        if 0xF0 ≤ lead ∧ rest.head?.any isContinuation then 3 else 2
      else 1
  | _ => 1

def decodeFrom : (fuel : Nat) → List UInt8 → List Char
  | 0, _ => []
  | fuel + 1, bytes =>
      if bytes = [] then []
      else (decodeChar bytes).elim
        ('\uFFFD' :: decodeFrom fuel (bytes.drop (brokenLength bytes)))
        fun c => c :: decodeFrom fuel (bytes.drop c.utf8Size)

def decodeReplacing (bytes : List UInt8) : List Char := decodeFrom bytes.length bytes

/-! ### Fields and pairs -/

def isAscii (c : Char) : Bool := decide (c.toNat < 128)

/-- Runs of ASCII are unquoted to bytes and decoded, everything else is kept. -/
def unquoteFrom (run : List Char) : List Char → List Char
  | [] => decodeReplacing (unquoteToBytes run)
  | c :: rest =>
      if isAscii c then unquoteFrom (run ++ [c]) rest
      else decodeReplacing (unquoteToBytes run) ++ c :: unquoteFrom [] rest

def unquote (text : List Char) : List Char := unquoteFrom [] text

def plusToSpace (text : List Char) : List Char := text.map fun c => if c = '+' then ' ' else c

def parseField (field : List Char) : List Char × List Char :=
  (unquote (plusToSpace (field.takeWhile (· != '='))),
    unquote (plusToSpace ((field.dropWhile (· != '=')).drop 1)))

/-- `parse_qsl(qs, keep_blank_values=True)`. -/
def parseQsl (query : List Char) : List (List Char × List Char) :=
  ((query.splitOn '&').filter (· ≠ [])).map parseField

def encodePair (pair : List Char × List Char) : List Char :=
  quotePlus pair.1 ++ '=' :: quotePlus pair.2

def urlencode (pairs : List (List Char × List Char)) : List Char :=
  ['&'].intercalate (pairs.map encodePair)

/-! ### UTF-8 decodes what it encodes -/

theorem decodeChar_append (c : Char) (rest : List UInt8) :
    decodeChar (String.utf8EncodeChar c ++ rest) = some c := by
  rw [decodeChar, List.toByteArray_append, ByteArray.utf8DecodeChar?_utf8EncodeChar_append]

theorem decodeFrom_encode (text : List Char) {fuel : Nat}
    (hfuel : (text.flatMap String.utf8EncodeChar).length ≤ fuel) :
    decodeFrom fuel (text.flatMap String.utf8EncodeChar) = text := by
  induction text generalizing fuel with
  | nil => cases fuel <;> rfl
  | cons c text ih =>
      rw [List.flatMap_cons, List.length_append, String.length_utf8EncodeChar] at hfuel
      have hpos := Char.utf8Size_pos c
      cases fuel with
      | zero => omega
      | succ fuel =>
          have hne : String.utf8EncodeChar c ++ text.flatMap String.utf8EncodeChar ≠ [] := by
            intro hnil
            have hlength := congrArg List.length hnil
            rw [List.length_append, String.length_utf8EncodeChar, List.length_nil] at hlength
            omega
          have hdrop : (String.utf8EncodeChar c ++ text.flatMap String.utf8EncodeChar).drop
              c.utf8Size = text.flatMap String.utf8EncodeChar := by
            rw [← String.length_utf8EncodeChar c, List.drop_left]
          rw [List.flatMap_cons, decodeFrom, if_neg hne, decodeChar_append, Option.elim_some, hdrop,
            ih (by omega)]

theorem decodeReplacing_encode (text : List Char) :
    decodeReplacing (text.flatMap String.utf8EncodeChar) = text :=
  decodeFrom_encode text (Nat.le_refl _)

/-! ### Unquoting what was quoted -/

theorem hexValue_hexDigit : ∀ n < 16, hexValue (hexDigit n) = some n := by decide

theorem hexDigit_plain : ∀ n < 16, isAscii (hexDigit n) = true ∧ hexDigit n ≠ '+'
    ∧ hexDigit n ≠ '&' ∧ hexDigit n ≠ '=' ∧ hexDigit n ≠ '#' := by
  decide

theorem isAscii_of_unreserved {c : Char} (h : unreserved c = true) : isAscii c = true := by
  delta unreserved Char.isAlphanum Char.isAlpha Char.isUpper Char.isLower Char.isDigit at h
  simp only [Bool.or_eq_true, Bool.and_eq_true, decide_eq_true_eq, List.contains_iff_mem,
    UInt32.le_iff_toNat_le, ge_iff_le] at h
  simp only [isAscii, decide_eq_true_eq, Char.toNat]
  obtain ((⟨_, h⟩ | ⟨_, h⟩) | ⟨_, h⟩) | h := h
  · exact Nat.lt_of_le_of_lt h (by decide)
  · exact Nat.lt_of_le_of_lt h (by decide)
  · exact Nat.lt_of_le_of_lt h (by decide)
  · simp only [List.mem_cons, List.not_mem_nil, or_false] at h
    obtain rfl | rfl | rfl | rfl := h <;> decide

theorem ne_of_unreserved {c other : Char} (h : unreserved c = true)
    (hother : unreserved other = false) : c ≠ other := by
  rintro rfl
  rw [h] at hother
  cases hother

theorem percentByte_lt (byte : UInt8) : byte.toNat / 16 < 16 ∧ byte.toNat % 16 < 16 := by
  have := byte.toNat_lt
  omega

theorem unquoteToBytes_percentByte (byte : UInt8) (rest : List Char) :
    unquoteToBytes (percentByte byte ++ rest) = byte :: unquoteToBytes rest := by
  obtain ⟨hhigh, hlow⟩ := percentByte_lt byte
  simp only [percentByte, List.cons_append, List.nil_append, unquoteToBytes,
    hexValue_hexDigit _ hhigh, hexValue_hexDigit _ hlow]
  rw [Nat.div_add_mod, UInt8.ofNat_toNat]

theorem plusToSpace_percentByte (byte : UInt8) :
    plusToSpace (percentByte byte) = percentByte byte := by
  obtain ⟨hhigh, hlow⟩ := percentByte_lt byte
  have hplus := (hexDigit_plain _ hhigh).2.1
  have hplus' := (hexDigit_plain _ hlow).2.1
  simp [plusToSpace, percentByte, hplus, hplus']

theorem plusToSpace_append (first second : List Char) :
    plusToSpace (first ++ second) = plusToSpace first ++ plusToSpace second :=
  List.map_append

theorem unquoteToBytes_cons {c : Char} (h : c ≠ '%') (rest : List Char) :
    unquoteToBytes (c :: rest) = UInt8.ofNat c.toNat :: unquoteToBytes rest := by
  rw [unquoteToBytes]
  rintro _ _ _ rfl
  exact absurd rfl h

theorem utf8EncodeChar_ascii {c : Char} (h : isAscii c = true) :
    String.utf8EncodeChar c = [UInt8.ofNat c.toNat] := by
  rw [isAscii, decide_eq_true_eq] at h
  have hsize : c.utf8Size = 1 := Char.utf8Size_eq_one_iff.mpr (Nat.le_of_lt_succ h)
  rw [String.utf8EncodeChar_eq_singleton hsize]
  rfl

theorem unquoteToBytes_percentBytes (bytes : List UInt8) (rest : List Char) :
    unquoteToBytes (plusToSpace (bytes.flatMap percentByte) ++ rest)
      = bytes ++ unquoteToBytes rest := by
  induction bytes with
  | nil => rfl
  | cons byte bytes ih =>
      rw [List.flatMap_cons, plusToSpace_append, plusToSpace_percentByte, List.append_assoc,
        unquoteToBytes_percentByte, ih, List.cons_append]

theorem unquoteToBytes_quotePlusChar (c : Char) (rest : List Char) :
    unquoteToBytes (plusToSpace (quotePlusChar c) ++ rest)
      = String.utf8EncodeChar c ++ unquoteToBytes rest := by
  unfold quotePlusChar
  split
  · rename_i hspace
    subst hspace
    rw [show plusToSpace ['+'] = [' '] from rfl, List.singleton_append,
      unquoteToBytes_cons (by decide), utf8EncodeChar_ascii (by decide)]
    rfl
  · split
    · rename_i hunreserved
      have hplus := ne_of_unreserved hunreserved (show unreserved '+' = false by decide)
      have hpercent := ne_of_unreserved hunreserved (show unreserved '%' = false by decide)
      rw [show plusToSpace [c] = [c] by simp [plusToSpace, hplus], List.singleton_append,
        unquoteToBytes_cons hpercent, utf8EncodeChar_ascii (isAscii_of_unreserved hunreserved)]
      rfl
    · exact unquoteToBytes_percentBytes _ rest

theorem unquoteToBytes_quotePlus (text : List Char) :
    unquoteToBytes (plusToSpace (quotePlus text)) = text.flatMap String.utf8EncodeChar := by
  induction text with
  | nil => rfl
  | cons c text ih =>
      rw [quotePlus, List.flatMap_cons, plusToSpace_append, unquoteToBytes_quotePlusChar,
        List.flatMap_cons]
      exact congrArg _ ih

theorem unquoteFrom_ascii {text : List Char} (h : ∀ c ∈ text, isAscii c = true)
    (run : List Char) : unquoteFrom run text = decodeReplacing (unquoteToBytes (run ++ text)) := by
  induction text generalizing run with
  | nil => rw [unquoteFrom, List.append_nil]
  | cons c text ih =>
      rw [unquoteFrom, if_pos (h c List.mem_cons_self),
        ih (fun c' hc' => h c' (List.mem_cons_of_mem _ hc')), List.append_assoc,
        List.singleton_append]

/-- What `quote_plus` can put into a text. -/
def quotedChar (c : Char) : Bool := unreserved c || c == '+' || c == '%'

theorem quotedChar_of_mem {text : List Char} {c : Char} (h : c ∈ quotePlus text) :
    quotedChar c = true := by
  obtain ⟨original, _, hc⟩ := List.mem_flatMap.mp h
  unfold quotePlusChar at hc
  split at hc
  · rw [List.mem_singleton.mp hc]
    rfl
  · split at hc
    · rename_i hunreserved
      rw [List.mem_singleton.mp hc, quotedChar, hunreserved]
      rfl
    · obtain ⟨byte, _, hc⟩ := List.mem_flatMap.mp hc
      obtain ⟨hhigh, hlow⟩ := percentByte_lt byte
      have hdigit : ∀ n < 16, quotedChar (hexDigit n) = true := by decide
      simp only [percentByte, List.mem_cons, List.not_mem_nil, or_false] at hc
      obtain rfl | rfl | rfl := hc
      · rfl
      · exact hdigit _ hhigh
      · exact hdigit _ hlow

theorem isAscii_of_quotedChar {c : Char} (h : quotedChar c = true) : isAscii c = true := by
  simp only [quotedChar, Bool.or_eq_true, beq_iff_eq] at h
  obtain (h | rfl) | rfl := h
  · exact isAscii_of_unreserved h
  · rfl
  · rfl

theorem ne_of_quotedChar {c other : Char} (h : quotedChar c = true)
    (hother : quotedChar other = false) : c ≠ other := by
  rintro rfl
  rw [h] at hother
  cases hother

/-- **A component round-trips.** -/
theorem unquote_quotePlus (text : List Char) : unquote (plusToSpace (quotePlus text)) = text := by
  have hascii : ∀ c ∈ plusToSpace (quotePlus text), isAscii c = true := by
    intro c hc
    obtain ⟨quoted, hquoted, rfl⟩ := List.mem_map.mp hc
    split
    · rfl
    · exact isAscii_of_quotedChar (quotedChar_of_mem hquoted)
  rw [unquote, unquoteFrom_ascii hascii, List.nil_append, unquoteToBytes_quotePlus,
    decodeReplacing_encode]

/-! ### Pairs -/

theorem takeWhile_encodePair (pair : List Char × List Char) :
    (encodePair pair).takeWhile (· != '=') = quotePlus pair.1
      ∧ (encodePair pair).dropWhile (· != '=') = '=' :: quotePlus pair.2 := by
  have hname : ∀ c ∈ quotePlus pair.1, (c != '=') = true := fun c hc =>
    bne_iff_ne.mpr (ne_of_quotedChar (quotedChar_of_mem hc) (by decide))
  constructor
  · rw [encodePair, List.takeWhile_append_of_pos hname, List.takeWhile_cons_of_neg (by decide),
      List.append_nil]
  · rw [encodePair, List.dropWhile_append_of_pos hname, List.dropWhile_cons_of_neg (by decide)]

theorem parseField_encodePair (pair : List Char × List Char) :
    parseField (encodePair pair) = pair := by
  rw [parseField, (takeWhile_encodePair pair).1, (takeWhile_encodePair pair).2, List.drop_one,
    List.tail_cons, unquote_quotePlus, unquote_quotePlus]

theorem not_mem_encodePair {pair : List Char × List Char} {c : Char}
    (h : quotedChar c = false) (hne : c ≠ '=') : c ∉ encodePair pair := by
  intro hc
  obtain hc | hc := List.mem_append.mp hc
  · exact ne_of_quotedChar (quotedChar_of_mem hc) h rfl
  · obtain hc | hc := List.mem_cons.mp hc
    · exact hne hc
    · exact ne_of_quotedChar (quotedChar_of_mem hc) h rfl

/-- **A query round-trips**: parsing what was encoded gives the pairs, blank ones included. -/
theorem parseQsl_urlencode (pairs : List (List Char × List Char)) :
    parseQsl (urlencode pairs) = pairs := by
  cases pairs with
  | nil => rfl
  | cons pair pairs =>
      have hsplit : (urlencode (pair :: pairs)).splitOn '&' = (pair :: pairs).map encodePair := by
        refine List.splitOn_intercalate '&' (fun field hfield => ?_) (by simp)
        obtain ⟨encoded, _, rfl⟩ := List.mem_map.mp hfield
        exact not_mem_encodePair (by decide) (by decide)
      have hnonempty : ∀ field ∈ (pair :: pairs).map encodePair,
          decide (field ≠ []) = true := by
        intro field hfield
        obtain ⟨encoded, _, rfl⟩ := List.mem_map.mp hfield
        simp [encodePair]
      rw [parseQsl, hsplit, List.filter_eq_self.mpr hnonempty, List.map_map]
      exact (List.map_congr_left fun encoded _ => parseField_encodePair encoded).trans
        (List.map_id _)

theorem urlencode_ne_nil {pairs : List (List Char × List Char)} (h : pairs ≠ []) :
    urlencode pairs ≠ [] := by
  intro hnil
  have hpairs := parseQsl_urlencode pairs
  rw [hnil] at hpairs
  exact h hpairs.symm

theorem mem_urlencode {pairs : List (List Char × List Char)} {c : Char} (h : c ∈ urlencode pairs) :
    quotedChar c = true ∨ c = '=' ∨ c = '&' := by
  have hpair : ∀ pair, c ∈ encodePair pair → quotedChar c = true ∨ c = '=' ∨ c = '&' := by
    intro pair hc
    obtain hc | hc := List.mem_append.mp hc
    · exact Or.inl (quotedChar_of_mem hc)
    · obtain hc | hc := List.mem_cons.mp hc
      · exact Or.inr (Or.inl hc)
      · exact Or.inl (quotedChar_of_mem hc)
  induction pairs with
  | nil => cases h
  | cons pair pairs ih =>
      cases pairs with
      | nil => exact hpair pair (by simpa [urlencode, List.intercalate] using h)
      | cons second pairs =>
          rw [urlencode, List.map_cons, List.map_cons, List.intercalate_cons_cons,
            ← List.map_cons] at h
          obtain h | h := List.mem_append.mp h
          · obtain h | h := List.mem_append.mp h
            · exact hpair pair h
            · exact Or.inr (Or.inr (List.mem_singleton.mp h))
          · exact ih h

end UrlQuery
