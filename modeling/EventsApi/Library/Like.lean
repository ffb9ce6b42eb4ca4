import EventsApi.Library.ThreeValued
import Mathlib

/-!
# LIKE patterns

The pattern language of SQL's `LIKE` and a matcher for it. `%` stands for any run of characters, `_`
for any one character, and a backslash takes the character after it literally. `ILIKE` matches the
case-folded text against the case-folded pattern.
-/

namespace Like

/-- One element of a pattern. -/
inductive Item where
  | exactly (c : Char)
  | anyOne
  | anyRun
  deriving DecidableEq

/-- The elements of a pattern text. A backslash that ends the text stands for itself. -/
def items : List Char → List Item
  | [] => []
  | '\\' :: c :: rest => .exactly c :: items rest
  | '%' :: rest => .anyRun :: items rest
  | '_' :: rest => .anyOne :: items rest
  | c :: rest => .exactly c :: items rest

/-- Some suffix of the text is accepted. -/
def someSuffix (accept : List Char → Bool) : List Char → Bool
  | [] => accept []
  | c :: text => accept (c :: text) || someSuffix accept text

def accepts : List Item → List Char → Bool
  | [], text => text.isEmpty
  | .exactly c :: rest, text =>
      match text with
      | [] => false
      | d :: text => d == c && accepts rest text
  | .anyOne :: rest, text =>
      match text with
      | [] => false
      | _ :: text => accepts rest text
  | .anyRun :: rest, text => someSuffix (accepts rest) text

/-- Case folding, one character at a time. ASCII characters that are not upper-case letters, the
pattern characters among them, fold to themselves. -/
structure CaseFold where
  foldChar : Char → List Char
  foldChar_ascii : ∀ c : Char, c.toNat < 128 → c.isUpper = false → foldChar c = [c]

/-- ASCII letters to lower case, every other character as it is. -/
def CaseFold.ascii : CaseFold where
  foldChar c := [c.toLower]
  foldChar_ascii c _ hlower := by
    have hrange : ¬ (c.val ≥ 'A'.val ∧ c.val ≤ 'Z'.val) := of_decide_eq_false hlower
    rw [Char.toLower, dif_neg hrange]

def CaseFold.fold (cf : CaseFold) (text : String) : List Char := text.toList.flatMap cf.foldChar

/-- `text ILIKE pattern`, unknown when the text is missing. -/
def ilike (cf : CaseFold) (text : Option String) (pattern : String) : ThreeValued.Truth :=
  text.map fun s => accepts (items (cf.fold pattern)) (cf.fold s)

/-- `%part%`. -/
def containing (part : String) : String := "%" ++ part ++ "%"

theorem someSuffix_iff {accept : List Char → Bool} {text : List Char} :
    someSuffix accept text = true ↔ ∃ suffix, suffix <:+ text ∧ accept suffix = true := by
  induction text with
  | nil => simp [someSuffix]
  | cons c text ih =>
      simp only [someSuffix, Bool.or_eq_true, ih, List.suffix_cons_iff]
      constructor
      · rintro (haccept | ⟨suffix, hsuf, haccept⟩)
        · exact ⟨_, Or.inl rfl, haccept⟩
        · exact ⟨suffix, Or.inr hsuf, haccept⟩
      · rintro ⟨suffix, rfl | hsuf, haccept⟩
        · exact Or.inl haccept
        · exact Or.inr ⟨suffix, hsuf, haccept⟩

theorem accepts_exactly_append_anyRun (literal text : List Char) :
    accepts (literal.map .exactly ++ [.anyRun]) text = true ↔ literal <+: text := by
  induction literal generalizing text with
  | nil => simpa [accepts] using someSuffix_iff.mpr ⟨[], List.nil_suffix, rfl⟩
  | cons c literal ih =>
      cases text with
      | nil => simp [accepts]
      | cons d text =>
          rw [List.map_cons, List.cons_append, accepts, Bool.and_eq_true, beq_iff_eq, ih,
            List.cons_prefix_cons, eq_comm]

/-- **Substring search.** A literal between two `%` accepts exactly the texts that contain it. -/
theorem accepts_anyRun_exactly_anyRun (literal text : List Char) :
    accepts (.anyRun :: (literal.map .exactly ++ [.anyRun])) text = true ↔ literal <:+: text := by
  simp only [accepts, someSuffix_iff, accepts_exactly_append_anyRun]
  exact ⟨fun ⟨_, hsuf, hpre⟩ => hpre.isInfix.trans hsuf.isInfix,
    fun hinfix => (List.infix_iff_prefix_suffix.mp hinfix).imp fun _ h => ⟨h.2, h.1⟩⟩

/-! ### Spliced texts

A text spliced between two `%` is searched for literally exactly when it holds no pattern character.
The shortest text a pattern accepts tells the difference: it is no longer than the spliced text, and
a different text as soon as a character of it was read as more than itself. -/

/-- The character has a meaning of its own in a pattern. -/
def Special (c : Char) : Prop := c = '%' ∨ c = '_' ∨ c = '\\'

/-- The text has no pattern characters. -/
def Literal (text : List Char) : Prop := ∀ c ∈ text, ¬ Special c

theorem items_cons_of_not_special {c : Char} (hc : ¬ Special c) (rest : List Char) :
    items (c :: rest) = .exactly c :: items rest := by
  unfold Special at hc
  push Not at hc
  rw [items.eq_def]
  split <;> simp_all

theorem items_append_of_literal {text : List Char} (htext : Literal text) (rest : List Char) :
    items (text ++ rest) = text.map .exactly ++ items rest := by
  induction text with
  | nil => rfl
  | cons c text ih =>
      rw [List.cons_append, items_cons_of_not_special (htext c List.mem_cons_self),
        ih fun d hd => htext d (List.mem_cons_of_mem _ hd)]
      rfl

/-- The shortest text that a pattern accepts, with one fixed character wherever any would do. -/
def shortest : List Item → List Char
  | [] => []
  | .exactly c :: rest => c :: shortest rest
  | .anyOne :: rest => 'x' :: shortest rest
  | .anyRun :: rest => shortest rest

theorem accepts_shortest (pattern : List Item) : accepts pattern (shortest pattern) = true := by
  induction pattern with
  | nil => rfl
  | cons item pattern ih =>
      cases item with
      | exactly c => simpa [shortest, accepts] using ih
      | anyOne => simpa [shortest, accepts] using ih
      | anyRun => exact someSuffix_iff.mpr ⟨_, List.suffix_rfl, ih⟩

/-- A pattern character costs the shortest accepted text a character, or changes one. -/
theorem shortest_items (text : List Char) :
    (shortest (items (text ++ ['%']))).length ≤ text.length
      ∧ (shortest (items (text ++ ['%'])) = text → Literal text) := by
  induction text using items.induct with
  | case1 => exact ⟨le_rfl, fun _ => List.forall_mem_nil _⟩
  | case2 c rest ih =>
      have hitems : items ('\\' :: c :: rest ++ ['%']) = .exactly c :: items (rest ++ ['%']) := rfl
      rw [hitems, shortest, List.length_cons, List.length_cons, List.length_cons]
      exact ⟨by omega, fun heq => absurd (congrArg List.length heq) (by simp; omega)⟩
  | case3 rest ih =>
      have hitems : items ('%' :: rest ++ ['%']) = .anyRun :: items (rest ++ ['%']) := rfl
      rw [hitems, shortest, List.length_cons]
      exact ⟨by omega, fun heq => absurd (congrArg List.length heq) (by simp; omega)⟩
  | case4 rest ih =>
      have hitems : items ('_' :: rest ++ ['%']) = .anyOne :: items (rest ++ ['%']) := rfl
      rw [hitems, shortest, List.length_cons, List.length_cons]
      refine ⟨by omega, fun heq => ?_⟩
      exact absurd (List.cons.inj heq).1 (by decide)
  | case5 c rest hescape hrun hone ih =>
      by_cases hc : c = '\\'
      · -- a backslash that ends the text takes the closing wildcard literally
        obtain rfl : rest = [] := by
          cases rest with
          | nil => rfl
          | cons d rest => exact absurd rfl fun heq => hescape d rest hc heq
        subst hc
        exact ⟨le_rfl, fun heq => absurd heq (by decide)⟩
      · have hplain : ¬ Special c := by
          rintro (heq | heq | heq)
          exacts [hrun heq, hone heq, hc heq]
        rw [List.cons_append, items_cons_of_not_special hplain, shortest, List.length_cons,
          List.length_cons]
        refine ⟨by omega, fun heq => ?_⟩
        exact List.forall_mem_cons.mpr ⟨hplain, ih.2 (List.cons.inj heq).2⟩

theorem mem_shortest_items {text : List Char} {c : Char} (h : c ∈ shortest (items text)) :
    c ∈ text ∨ c = 'x' := by
  induction text using items.induct with
  | case1 => simp [items, shortest] at h
  | case2 d rest ih =>
      rw [items, shortest, List.mem_cons] at h
      simp only [List.mem_cons]
      tauto
  | case3 rest ih =>
      rw [items, shortest] at h
      simp only [List.mem_cons]
      tauto
  | case4 rest ih =>
      rw [items, shortest, List.mem_cons] at h
      simp only [List.mem_cons]
      tauto
  | case5 d rest hescape hrun hone ih =>
      rw [items.eq_5 d rest hescape hrun hone, shortest, List.mem_cons] at h
      simp only [List.mem_cons]
      tauto

/-- **Searching literally.** Between two `%`, a text without pattern characters accepts exactly the
texts that contain it. -/
theorem accepts_containing {text : List Char} (htext : Literal text) (s : List Char) :
    accepts (items ('%' :: (text ++ ['%']))) s = true ↔ text <:+: s := by
  have hitems : items ('%' :: (text ++ ['%'])) = .anyRun :: (text.map .exactly ++ [.anyRun]) := by
    rw [items, items_append_of_literal htext]
    rfl
  rw [hitems, accepts_anyRun_exactly_anyRun]

theorem accepts_containing_shortest (text : List Char) :
    accepts (items ('%' :: (text ++ ['%']))) (shortest (items (text ++ ['%']))) = true :=
  accepts_shortest (.anyRun :: items (text ++ ['%']))

/-- Only a text without pattern characters occurs in the shortest text that its pattern accepts. -/
theorem literal_of_infix_shortest {text : List Char}
    (h : text <:+: shortest (items (text ++ ['%']))) : Literal text := by
  obtain ⟨hlength, hliteral⟩ := shortest_items text
  exact hliteral (h.eq_of_length_le hlength).symm

end Like
