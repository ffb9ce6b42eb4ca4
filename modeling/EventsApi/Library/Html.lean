import Mathlib.Tactic.ByContra
import Mathlib.Tactic.Push

/-!
# Markup and escaped text

A reader for a plain fragment of HTML: text, closing tags, and opening tags whose attributes carry
double-quoted values. Escaping replaces the characters that could end a text or a value by
references, so an escaped string never leaves the place it stands in, and resolving the references
gives the string back.
-/

namespace Html

structure Attribute where
  name : List Char
  value : List Char
  deriving DecidableEq

inductive Token where
  | text (content : List Char)
  | openTag (name : List Char) (attributes : List Attribute)
  | closeTag (name : List Char)
  deriving DecidableEq

/-! ### Reading -/

/-- Where the reader stands, with what it has read of the current token. -/
inductive State where
  | data (text : List Char)
  | tagOpen
  | tagName (closing : Bool) (name : List Char)
  | beforeAttribute (name : List Char) (attributes : List Attribute)
  | attributeName (name : List Char) (attributes : List Attribute) (key : List Char)
  | beforeValue (name : List Char) (attributes : List Attribute) (key : List Char)
  | value (name : List Char) (attributes : List Attribute) (key value : List Char)
  /-- Outside the fragment. -/
  | lost

/-- A text token, unless there is no text. -/
def flush : List Char → List Token
  | [] => []
  | text => [.text text]

def step : State → Char → List Token × State
  | .data text, c => if c = '<' then (flush text, .tagOpen) else ([], .data (text ++ [c]))
  | .tagOpen, c => if c = '/' then ([], .tagName true []) else ([], .tagName false [c])
  | .tagName true name, c =>
      if c = '>' then ([.closeTag name], .data []) else ([], .tagName true (name ++ [c]))
  | .tagName false name, c =>
      if c = '>' then ([.openTag name []], .data [])
      else if c = ' ' then ([], .beforeAttribute name [])
      else ([], .tagName false (name ++ [c]))
  | .beforeAttribute name attributes, c =>
      if c = '>' then ([.openTag name attributes], .data [])
      else if c = ' ' then ([], .beforeAttribute name attributes)
      else ([], .attributeName name attributes [c])
  | .attributeName name attributes key, c =>
      if c = '=' then ([], .beforeValue name attributes key)
      else ([], .attributeName name attributes (key ++ [c]))
  | .beforeValue name attributes key, c =>
      if c = '"' then ([], .value name attributes key []) else ([], .lost)
  | .value name attributes key value, c =>
      if c = '"' then ([], .beforeAttribute name (attributes ++ [⟨key, value⟩]))
      else ([], .value name attributes key (value ++ [c]))
  | .lost, _ => ([], .lost)

/-- The tokens read from a state on. An unfinished tag yields none. -/
def tokensFrom : State → List Char → List Token
  | .data text, [] => flush text
  | _, [] => []
  | state, c :: rest => (step state c).1 ++ tokensFrom (step state c).2 rest

def tokenise (html : List Char) : List Token := tokensFrom (.data []) html

/-! ### Writing -/

def Attribute.write (pair : Attribute) : List Char :=
  ' ' :: pair.name ++ '=' :: '"' :: pair.value ++ ['"']

def Token.write : Token → List Char
  | .text content => content
  | .openTag name attributes => '<' :: name ++ attributes.flatMap Attribute.write ++ ['>']
  | .closeTag name => '<' :: '/' :: name ++ ['>']

def write (tokens : List Token) : List Char := tokens.flatMap Token.write

/-! ### Escaping -/

def escapeChar : Char → List Char
  | '&' => ['&', 'a', 'm', 'p', ';']
  | '<' => ['&', 'l', 't', ';']
  | '>' => ['&', 'g', 't', ';']
  | '"' => ['&', 'q', 'u', 'o', 't', ';']
  | '\'' => ['&', '#', 'x', '2', '7', ';']
  | c => [c]

/-- The five references resolved, everything else as it is. -/
def unescape : List Char → List Char
  | '&' :: 'a' :: 'm' :: 'p' :: ';' :: rest => '&' :: unescape rest
  | '&' :: 'l' :: 't' :: ';' :: rest => '<' :: unescape rest
  | '&' :: 'g' :: 't' :: ';' :: rest => '>' :: unescape rest
  | '&' :: 'q' :: 'u' :: 'o' :: 't' :: ';' :: rest => '"' :: unescape rest
  | '&' :: '#' :: 'x' :: '2' :: '7' :: ';' :: rest => '\'' :: unescape rest
  | c :: rest => c :: unescape rest
  | [] => []

/-- The character is written as a reference. -/
def Markup (c : Char) : Prop := c = '&' ∨ c = '<' ∨ c = '>' ∨ c = '"' ∨ c = '\''

theorem escapeChar_of_not_markup {c : Char} (h : ¬ Markup c) : escapeChar c = [c] := by
  unfold Markup at h
  push Not at h
  unfold escapeChar
  split <;> simp_all

theorem unescape_cons {c : Char} (h : c ≠ '&') (rest : List Char) :
    unescape (c :: rest) = c :: unescape rest := by
  rw [unescape.eq_def]
  split <;> simp_all

/-- Text without references is read as it stands. -/
theorem unescape_append {text : List Char} (h : '&' ∉ text) (rest : List Char) :
    unescape (text ++ rest) = text ++ unescape rest := by
  induction text with
  | nil => rfl
  | cons c text ih =>
      rw [List.mem_cons, not_or] at h
      rw [List.cons_append, unescape_cons (Ne.symm h.1), ih h.2, List.cons_append]

theorem unescape_escapeChar (c : Char) (rest : List Char) :
    unescape (escapeChar c ++ rest) = c :: unescape rest := by
  by_cases h : Markup c
  · obtain rfl | rfl | rfl | rfl | rfl := h <;> rfl
  · have hc : c ≠ '&' := fun heq => h (.inl heq)
    rw [escapeChar_of_not_markup h]
    exact unescape_cons hc rest

/-- **Escaping is undone**, whatever follows. -/
theorem unescape_escape_append (text rest : List Char) :
    unescape (text.flatMap escapeChar ++ rest) = text ++ unescape rest := by
  induction text with
  | nil => rfl
  | cons c text ih =>
      rw [List.flatMap_cons, List.append_assoc, unescape_escapeChar, ih, List.cons_append]

/-- An escaped string holds no character that could end a text or a value. -/
theorem not_mem_escape (text : List Char) :
    '<' ∉ text.flatMap escapeChar ∧ '"' ∉ text.flatMap escapeChar := by
  have hchar (c : Char) : '<' ∉ escapeChar c ∧ '"' ∉ escapeChar c := by
    by_cases h : Markup c
    · obtain rfl | rfl | rfl | rfl | rfl := h <;> decide
    · rw [escapeChar_of_not_markup h, List.mem_singleton, List.mem_singleton]
      exact ⟨fun heq => h (.inr (.inl heq.symm)),
        fun heq => h (.inr (.inr (.inr (.inl heq.symm))))⟩
  simp only [List.mem_flatMap, not_exists, not_and]
  exact ⟨fun c _ => (hchar c).1, fun c _ => (hchar c).2⟩

/-! ### Reading what was written -/

theorem tokensFrom_cons (state : State) (c : Char) (rest : List Char) :
    tokensFrom state (c :: rest) = (step state c).1 ++ tokensFrom (step state c).2 rest := by
  cases state <;> rfl

/-- Characters that a state only collects leave it there, with all of them. -/
theorem tokensFrom_collected (collecting : List Char → State) {text : List Char}
    (h : ∀ c ∈ text, ∀ before, step (collecting before) c = ([], collecting (before ++ [c])))
    (before rest : List Char) :
    tokensFrom (collecting before) (text ++ rest)
      = tokensFrom (collecting (before ++ text)) rest := by
  induction text generalizing before with
  | nil => rw [List.nil_append, List.append_nil]
  | cons c text ih =>
      obtain ⟨hc, htext⟩ := List.forall_mem_cons.mp h
      rw [List.cons_append, tokensFrom_cons, hc, List.nil_append, ih htext, List.append_assoc,
        List.singleton_append]

theorem tokensFrom_data {text : List Char} (h : '<' ∉ text) (before rest : List Char) :
    tokensFrom (.data before) (text ++ rest) = tokensFrom (.data (before ++ text)) rest := by
  apply tokensFrom_collected .data
  intro c hc before
  rw [step, if_neg (ne_of_mem_of_not_mem hc h)]

theorem tokensFrom_value {text : List Char} (h : '"' ∉ text) (name : List Char)
    (attributes : List Attribute) (key before rest : List Char) :
    tokensFrom (.value name attributes key before) (text ++ rest)
      = tokensFrom (.value name attributes key (before ++ text)) rest := by
  apply tokensFrom_collected (.value name attributes key)
  intro c hc before
  rw [step, if_neg (ne_of_mem_of_not_mem hc h)]

theorem tokensFrom_attributeName {key : List Char} (h : '=' ∉ key) (name : List Char)
    (attributes : List Attribute) (before rest : List Char) :
    tokensFrom (.attributeName name attributes before) (key ++ rest)
      = tokensFrom (.attributeName name attributes (before ++ key)) rest := by
  apply tokensFrom_collected (.attributeName name attributes)
  intro c hc before
  rw [step, if_neg (ne_of_mem_of_not_mem hc h)]

theorem tokensFrom_tagName {name : List Char} (closing : Bool) (hclose : '>' ∉ name)
    (hspace : ' ' ∉ name) (before rest : List Char) :
    tokensFrom (.tagName closing before) (name ++ rest)
      = tokensFrom (.tagName closing (before ++ name)) rest := by
  apply tokensFrom_collected (.tagName closing)
  intro c hc before
  have hclose : c ≠ '>' := ne_of_mem_of_not_mem hc hclose
  cases closing with
  | true => rw [step, if_neg hclose]
  | false => rw [step, if_neg hclose, if_neg (ne_of_mem_of_not_mem hc hspace)]

/-- A name that opens no other syntax. -/
structure Name (name : List Char) : Prop where
  nonempty : name ≠ []
  close : '>' ∉ name
  space : ' ' ∉ name
  slash : '/' ∉ name
  equals : '=' ∉ name

/-- The token can be written and read back. -/
def Token.Valid : Token → Prop
  | .text content => content ≠ [] ∧ '<' ∉ content
  | .openTag name attributes =>
      Name name ∧ ∀ pair ∈ attributes, Name pair.name ∧ '"' ∉ pair.value
  | .closeTag name => Name name

def Token.isText : Token → Bool
  | .text _ => true
  | _ => false

/-- No text follows another one. -/
def Separate : List Token → Prop
  | first :: second :: tokens =>
      ¬ (first.isText = true ∧ second.isText = true) ∧ Separate (second :: tokens)
  | _ => True

theorem tokensFrom_attributes {attributes : List Attribute}
    (h : ∀ pair ∈ attributes, Name pair.name ∧ '"' ∉ pair.value) (name : List Char)
    (before : List Attribute) (rest : List Char) :
    tokensFrom (.beforeAttribute name before) (attributes.flatMap Attribute.write ++ '>' :: rest)
      = .openTag name (before ++ attributes) :: tokensFrom (.data []) rest := by
  induction attributes generalizing before with
  | nil =>
      rw [List.flatMap_nil, List.nil_append, tokensFrom_cons, step, if_pos rfl, List.append_nil]
      rfl
  | cons pair attributes ih =>
      obtain ⟨⟨hname, hvalue⟩, hrest⟩ := List.forall_mem_cons.mp h
      obtain ⟨key, value⟩ := pair
      cases key with
      | nil => exact absurd rfl hname.nonempty
      | cons c key =>
          have hclose : c ≠ '>' := fun heq => hname.close (heq ▸ List.mem_cons_self)
          have hspace : c ≠ ' ' := fun heq => hname.space (heq ▸ List.mem_cons_self)
          have hequals : '=' ∉ key := fun hmem => hname.equals (List.mem_cons_of_mem _ hmem)
          have hwritten : (Attribute.mk (c :: key) value :: attributes).flatMap Attribute.write
              ++ '>' :: rest
              = ' ' :: c :: (key ++ '=' :: '"' :: (value ++ '"' ::
                (attributes.flatMap Attribute.write ++ '>' :: rest))) := by
            simp [Attribute.write]
          rw [hwritten, tokensFrom_cons, step, if_neg (by decide), if_pos rfl, List.nil_append,
            tokensFrom_cons, step, if_neg hclose, if_neg hspace, List.nil_append,
            tokensFrom_attributeName hequals, tokensFrom_cons, step, if_pos rfl, List.nil_append,
            tokensFrom_cons, step, if_pos rfl, List.nil_append, tokensFrom_value hvalue,
            tokensFrom_cons, step, if_pos rfl, List.nil_append, ih hrest]
          simp

/-- A tag ends the text before it and is read whole. -/
theorem tokensFrom_tag {token : Token} (hvalid : token.Valid) (htag : token.isText = false)
    (before rest : List Char) :
    tokensFrom (.data before) (token.write ++ rest)
      = flush before ++ token :: tokensFrom (.data []) rest := by
  cases token with
  | text content => cases htag
  | closeTag name =>
      have hwritten : (Token.closeTag name).write ++ rest = '<' :: '/' :: (name ++ '>' :: rest) := by
        simp [Token.write]
      rw [hwritten, tokensFrom_cons, step, if_pos rfl, tokensFrom_cons, step, if_pos rfl,
        List.nil_append, tokensFrom_tagName true hvalid.close hvalid.space, tokensFrom_cons, step,
        if_pos rfl]
      rfl
  | openTag name attributes =>
      obtain ⟨hname, hattributes⟩ := hvalid
      cases name with
      | nil => exact absurd rfl hname.nonempty
      | cons c name =>
          have hslash : c ≠ '/' := fun heq => hname.slash (heq ▸ List.mem_cons_self)
          have hclose : '>' ∉ name := fun hmem => hname.close (List.mem_cons_of_mem _ hmem)
          have hspace : ' ' ∉ name := fun hmem => hname.space (List.mem_cons_of_mem _ hmem)
          have hwritten : (Token.openTag (c :: name) attributes).write ++ rest
              = '<' :: c :: (name ++ (attributes.flatMap Attribute.write ++ '>' :: rest)) := by
            simp [Token.write]
          rw [hwritten, tokensFrom_cons, step, if_pos rfl, tokensFrom_cons, step, if_neg hslash,
            List.nil_append, tokensFrom_tagName false hclose hspace]
          cases attributes with
          | nil =>
              rw [List.flatMap_nil, List.nil_append, tokensFrom_cons, step, if_pos rfl]
              rfl
          | cons pair attributes =>
              -- the blank before the first attribute is read alike from both states
              have hblank (rest : List Char) : tokensFrom (.tagName false ([c] ++ name)) (' ' :: rest)
                  = tokensFrom (.beforeAttribute (c :: name) []) (' ' :: rest) := rfl
              obtain ⟨more, hmore⟩ : ∃ more,
                  (pair :: attributes).flatMap Attribute.write ++ '>' :: rest = ' ' :: more :=
                ⟨_, rfl⟩
              have hfirst := tokensFrom_attributes hattributes (c :: name) [] rest
              rw [hmore] at hfirst ⊢
              rw [hblank, hfirst]
              rfl

/-- **Round trip.** Tokens that can be written, with no two texts in a row, are read back from what
they were written as. -/
theorem tokenise_write {tokens : List Token} (hvalid : ∀ token ∈ tokens, token.Valid)
    (hseparate : Separate tokens) : tokenise (write tokens) = tokens := by
  unfold tokenise
  induction tokens with
  | nil => rfl
  | cons token tokens ih =>
      obtain ⟨hhead, htail⟩ := List.forall_mem_cons.mp hvalid
      have hrest : Separate tokens := by
        cases tokens with
        | nil => trivial
        | cons second tokens => exact hseparate.2
      have ih := ih htail hrest
      rw [write, List.flatMap_cons]
      cases hcase : token.isText with
      | false =>
          rw [tokensFrom_tag hhead hcase]
          exact congrArg (token :: ·) ih
      | true =>
          cases token with
          | openTag | closeTag => cases hcase
          | text content =>
              rw [Token.write, tokensFrom_data hhead.2, List.nil_append]
              have hflush : flush content = [.text content] := by
                cases content with
                | nil => exact absurd rfl hhead.1
                | cons c content => rfl
              cases tokens with
              | nil => exact hflush
              | cons second tokens =>
                  have hsecond : second.isText = false := by
                    have := hseparate.1
                    simpa [Token.isText] using this
                  have hvalid := (List.forall_mem_cons.mp htail).1
                  rw [write, List.flatMap_cons, tokensFrom_tag hvalid hsecond] at ih
                  rw [List.flatMap_cons, tokensFrom_tag hvalid hsecond, hflush]
                  exact congrArg (Token.text content :: ·) ih

/-! ### Templates

A template is a list of pieces with places for strings, in a text or as the value of an attribute.
Filling the places with escaped strings cannot change its tags. -/

def escapeText (text : List Char) : List Char := text.flatMap escapeChar

inductive Piece where
  | text (before slot after : List Char)
  | openTag (name : List Char) (attributes : List Attribute)
  | closeTag (name : List Char)

/-- The piece with each string put into its place through `f`. -/
def Piece.token (f : List Char → List Char) : Piece → Token
  | .text before slot after => .text (before ++ f slot ++ after)
  | .openTag name attributes =>
      .openTag name (attributes.map fun pair => ⟨pair.name, f pair.value⟩)
  | .closeTag name => .closeTag name

def fill (f : List Char → List Char) (pieces : List Piece) : List Token := pieces.map (·.token f)

/-- Text of a template: nothing that opens a tag or a reference. -/
def Plain (text : List Char) : Prop := '<' ∉ text ∧ '&' ∉ text

instance (text : List Char) : Decidable (Plain text) := inferInstanceAs (Decidable (_ ∧ _))

theorem Plain.append {text rest : List Char} (htext : Plain text) (hrest : Plain rest) :
    Plain (text ++ rest) := by
  unfold Plain
  rw [List.mem_append, List.mem_append, not_or, not_or]
  exact ⟨⟨htext.1, hrest.1⟩, htext.2, hrest.2⟩

def Piece.Valid : Piece → Prop
  | .text before slot after => Plain before ∧ Plain after ∧ before ++ slot ++ after ≠ []
  | .openTag name attributes => Name name ∧ ∀ pair ∈ attributes, Name pair.name
  | .closeTag name => Name name

def Token.unescape : Token → Token
  | .text content => .text (Html.unescape content)
  | .openTag name attributes =>
      .openTag name (attributes.map fun pair => ⟨pair.name, Html.unescape pair.value⟩)
  | .closeTag name => .closeTag name

theorem unescape_of_plain {text : List Char} (h : Plain text) : unescape text = text := by
  have := unescape_append h.2 []
  rwa [List.append_nil, unescape, List.append_nil] at this

theorem unescape_escapeText (text : List Char) : unescape (escapeText text) = text := by
  have := unescape_escape_append text []
  rwa [List.append_nil, unescape, List.append_nil] at this

theorem escapeText_ne_nil {text : List Char} (h : text ≠ []) : escapeText text ≠ [] := by
  cases text with
  | nil => exact absurd rfl h
  | cons c text =>
      intro hempty
      have hescaped := unescape_escapeText (c :: text)
      rw [hempty] at hescaped
      cases hescaped

theorem Piece.Valid.token {piece : Piece} (h : piece.Valid) : (piece.token escapeText).Valid := by
  cases piece with
  | closeTag name => exact h
  | openTag name attributes =>
      refine ⟨h.1, fun pair hpair => ?_⟩
      obtain ⟨source, hsource, rfl⟩ := List.mem_map.mp hpair
      exact ⟨h.2 source hsource, (not_mem_escape source.value).2⟩
  | text before slot after =>
      obtain ⟨hbefore, hafter, hne⟩ := h
      refine ⟨fun hempty => hne ?_, ?_⟩
      · simp only [List.append_eq_nil_iff] at hempty ⊢
        refine ⟨⟨hempty.1.1, ?_⟩, hempty.2⟩
        by_contra hslot
        exact escapeText_ne_nil hslot hempty.1.2
      · simp only [List.mem_append, not_or]
        exact ⟨⟨hbefore.1, (not_mem_escape slot).1⟩, hafter.1⟩

theorem Piece.Valid.unescape {piece : Piece} (h : piece.Valid) :
    (piece.token escapeText).unescape = piece.token id := by
  cases piece with
  | closeTag name => rfl
  | openTag name attributes =>
      simp [Piece.token, Token.unescape, Function.comp_def, unescape_escapeText]
  | text before slot after =>
      obtain ⟨hbefore, hafter, _⟩ := h
      rw [Piece.token, Token.unescape, List.append_assoc, unescape_append hbefore.2, escapeText,
        unescape_escape_append, unescape_of_plain hafter, Piece.token, List.append_assoc]
      rfl

theorem isText_token (f g : List Char → List Char) (piece : Piece) :
    (piece.token f).isText = (piece.token g).isText := by
  cases piece <;> rfl

/-- Whether texts follow each other does not depend on what is filled in. -/
theorem Separate.fill {pieces : List Piece} {f : List Char → List Char}
    (h : Separate (fill f pieces)) (g : List Char → List Char) : Separate (fill g pieces) := by
  induction pieces with
  | nil => trivial
  | cons first pieces ih =>
      cases pieces with
      | nil => trivial
      | cons second pieces =>
          obtain ⟨hpair, hrest⟩ := h
          refine ⟨?_, ih hrest⟩
          rwa [isText_token g f, isText_token g f]

/-- **Templates hold.** What a template with escaped strings is written as is read back as its own
tags around these strings, and with the references resolved as the strings themselves. -/
theorem tokenise_fill {pieces : List Piece} (hvalid : ∀ piece ∈ pieces, piece.Valid)
    (hseparate : Separate (fill id pieces)) :
    tokenise (write (fill escapeText pieces)) = fill escapeText pieces
      ∧ (fill escapeText pieces).map Token.unescape = fill id pieces := by
  constructor
  · apply tokenise_write _ (hseparate.fill escapeText)
    intro token htoken
    obtain ⟨piece, hpiece, rfl⟩ := List.mem_map.mp htoken
    exact (hvalid piece hpiece).token
  · rw [fill, fill, List.map_map]
    exact List.map_congr_left fun piece hpiece => (hvalid piece hpiece).unescape

/-- The tags, with the value of one attribute left out. -/
def skeleton (key : List Char) (tokens : List Token) : List Token :=
  (tokens.filter (!·.isText)).map fun
    | .openTag name attributes =>
        .openTag name (attributes.map fun pair => if pair.name = key then ⟨key, []⟩ else pair)
    | token => token

end Html
