import Mathlib.Data.List.TakeWhile

/-!
# Splitting a URL

`urlsplit` and `urlunsplit` of `urllib.parse`. What makes a network location acceptable (matching
brackets, a form that normalisation leaves alone) is a parameter: a location that is not raises
`ValueError`, which is `none` here.
-/

namespace UrlSplit

structure Parts where
  scheme : List Char
  netloc : List Char
  path : List Char
  query : List Char
  fragment : List Char
  deriving DecidableEq

def isC0OrSpace (c : Char) : Bool := decide (c.toNat ≤ ' '.toNat)

/-- The characters `urlsplit` takes out wherever they stand. -/
def isRemoved (c : Char) : Bool := ['\t', '\r', '\n'].contains c

def schemeChar (c : Char) : Bool := c.isAlphanum || ['+', '-', '.'].contains c

/-- What stands before a colon is the scheme, if it looks like one. -/
def splitScheme (url : List Char) : List Char × List Char :=
  let before := url.takeWhile (· != ':')
  if before ≠ url ∧ before.head?.any Char.isAlpha ∧ before.all schemeChar then
    (before.map Char.toLower, url.drop (before.length + 1))
  else ([], url)

def inNetloc (c : Char) : Bool := !(['/', '?', '#'].contains c)

def splitNetloc (url : List Char) : List Char × List Char :=
  if url.take 2 = ['/', '/'] then
    ((url.drop 2).takeWhile inNetloc, (url.drop 2).dropWhile inNetloc)
  else ([], url)

/-- `url.split(c, 1)`, with nothing where there is no `c`. -/
def splitFirst (c : Char) (url : List Char) : List Char × List Char :=
  (url.takeWhile (· != c), (url.dropWhile (· != c)).drop 1)

variable (netlocValid : List Char → Bool)

def urlsplit (url : List Char) : Option Parts :=
  let url := (url.dropWhile isC0OrSpace).filter (!isRemoved ·)
  let (scheme, url) := splitScheme url
  let (netloc, url) := splitNetloc url
  let (url, fragment) := splitFirst '#' url
  let (path, query) := splitFirst '?' url
  if netlocValid netloc then some ⟨scheme, netloc, path, query, fragment⟩ else none

/-- The schemes after which two slashes stand even before no location. -/
def usesNetloc : List String :=
  ["", "ftp", "http", "gopher", "nntp", "telnet", "imap", "wais", "file", "mms", "https", "shttp",
    "snews", "prospero", "rtsp", "rtsps", "rtspu", "rsync", "svn", "svn+ssh", "sftp", "nfs", "git",
    "git+ssh", "ws", "wss", "itms-services"]

/-- The location and the path. -/
def joinNetloc (parts : Parts) : List Char :=
  if parts.netloc ≠ [] then
    '/' :: '/' :: parts.netloc
      ++ (if parts.path ≠ [] ∧ parts.path.head? ≠ some '/' then '/' :: parts.path else parts.path)
  else if parts.path.take 2 = ['/', '/'] then '/' :: '/' :: parts.path
  else if parts.scheme ≠ [] ∧ String.ofList parts.scheme ∈ usesNetloc
      ∧ (parts.path = [] ∨ parts.path.head? = some '/') then '/' :: '/' :: parts.path
  else parts.path

def urlunsplit (parts : Parts) : List Char :=
  (if parts.scheme ≠ [] then parts.scheme ++ [':'] else []) ++ joinNetloc parts
    ++ (if parts.query ≠ [] then '?' :: parts.query else [])
    ++ (if parts.fragment ≠ [] then '#' :: parts.fragment else [])

/-! ### Characters -/

theorem ascii_of_schemeChar {c : Char} (h : schemeChar c = true) : c.toNat < 128 := by
  delta schemeChar Char.isAlphanum Char.isAlpha Char.isUpper Char.isLower Char.isDigit at h
  simp only [Bool.or_eq_true, Bool.and_eq_true, decide_eq_true_eq, List.contains_iff_mem,
    UInt32.le_iff_toNat_le, ge_iff_le] at h
  obtain ((⟨_, h⟩ | ⟨_, h⟩) | ⟨_, h⟩) | h := h
  · exact Nat.lt_of_le_of_lt h (by decide)
  · exact Nat.lt_of_le_of_lt h (by decide)
  · exact Nat.lt_of_le_of_lt h (by decide)
  · simp only [List.mem_cons, List.not_mem_nil, or_false] at h
    obtain rfl | rfl | rfl := h <;> decide

theorem schemeChar_facts {c : Char} (h : schemeChar c = true) :
    schemeChar c.toLower = true ∧ (c.isAlpha = true → c.toLower.isAlpha = true)
      ∧ c.toLower.toLower = c.toLower ∧ isRemoved c.toLower = false := by
  have hall : ∀ n < 128, schemeChar (Char.ofNat n) = true →
      schemeChar (Char.ofNat n).toLower = true
        ∧ ((Char.ofNat n).isAlpha = true → (Char.ofNat n).toLower.isAlpha = true)
        ∧ (Char.ofNat n).toLower.toLower = (Char.ofNat n).toLower
        ∧ isRemoved (Char.ofNat n).toLower = false := by
    decide
  have hc := hall c.toNat (ascii_of_schemeChar h)
  rw [Char.ofNat_toNat] at hc
  exact hc h

theorem not_isC0OrSpace_of_isAlpha {c : Char} (h : c.isAlpha = true) : isC0OrSpace c = false := by
  rw [isC0OrSpace, decide_eq_false_iff_not]
  delta Char.isAlpha Char.isUpper Char.isLower at h
  simp only [Bool.or_eq_true, Bool.and_eq_true, decide_eq_true_eq, UInt32.le_iff_toNat_le,
    ge_iff_le] at h
  intro hle
  obtain ⟨h, _⟩ | ⟨h, _⟩ := h
  · exact absurd (Nat.le_trans h hle) (by decide)
  · exact absurd (Nat.le_trans h hle) (by decide)

/-! ### Where a prefix ends -/

theorem takeWhile_boundary {p : Char → Bool} {before after : List Char}
    (hbefore : ∀ c ∈ before, p c = true) (hafter : after.head?.all fun c => !p c) :
    (before ++ after).takeWhile p = before ∧ (before ++ after).dropWhile p = after := by
  rw [List.takeWhile_append_of_pos hbefore, List.dropWhile_append_of_pos hbefore]
  cases after with
  | nil => simp
  | cons c after =>
      have hc : p c = false := by simpa using hafter
      simp [hc]

/-! ### The scheme -/

def HasScheme (url : List Char) : Prop :=
  ∃ before rest, url = before ++ ':' :: rest ∧ before.head?.any Char.isAlpha = true
    ∧ ∀ c ∈ before, schemeChar c = true

theorem colon_not_mem {before : List Char} (h : ∀ c ∈ before, schemeChar c = true) :
    ∀ c ∈ before, (c != ':') = true := by
  intro c hc
  rw [bne_iff_ne]
  rintro rfl
  exact absurd (h ':' hc) (by decide)

theorem splitScheme_of_scheme {before : List Char}
    (halpha : before.head?.any Char.isAlpha = true) (hchars : ∀ c ∈ before, schemeChar c = true)
    (rest : List Char) :
    splitScheme (before ++ ':' :: rest) = (before.map Char.toLower, rest) := by
  have hbefore : (before ++ ':' :: rest).takeWhile (· != ':') = before :=
    (takeWhile_boundary (colon_not_mem hchars) (by simp)).1
  have hne : before ≠ before ++ ':' :: rest := by simp
  have hdrop : (before ++ ':' :: rest).drop (before.length + 1) = rest := by simp
  rw [splitScheme]
  rw [hbefore, if_pos ⟨hne, halpha, List.all_eq_true.mpr hchars⟩, hdrop]

theorem splitScheme_of_not_hasScheme {url : List Char} (h : ¬ HasScheme url) :
    splitScheme url = ([], url) := by
  rw [splitScheme]
  refine if_neg fun ⟨hne, halpha, hchars⟩ => h ?_
  have hsplit := List.takeWhile_append_dropWhile (p := (· != ':')) (l := url)
  cases hrest : url.dropWhile (· != ':') with
  | nil =>
      rw [hrest, List.append_nil] at hsplit
      exact absurd hsplit hne
  | cons c rest =>
      have hcolon : c = ':' := by
        have hne' : url.dropWhile (· != ':') ≠ [] := by
          rw [hrest]
          exact List.cons_ne_nil c rest
        simpa [hrest] using List.head_dropWhile_not (· != ':') hne'
      rw [hrest, hcolon] at hsplit
      exact ⟨_, rest, hsplit.symm, halpha, List.all_eq_true.mp hchars⟩

theorem splitScheme_cases (url : List Char) :
    (¬ HasScheme url ∧ splitScheme url = ([], url))
    ∨ ∃ before rest, url = before ++ ':' :: rest ∧ before.head?.any Char.isAlpha = true
      ∧ (∀ c ∈ before, schemeChar c = true)
      ∧ splitScheme url = (before.map Char.toLower, rest) := by
  by_cases h : HasScheme url
  · obtain ⟨before, rest, rfl, halpha, hchars⟩ := h
    exact Or.inr ⟨before, rest, rfl, halpha, hchars, splitScheme_of_scheme halpha hchars rest⟩
  · exact Or.inl ⟨h, splitScheme_of_not_hasScheme h⟩

/-- A path that no colon makes a scheme of, whatever query follows it. -/
theorem not_hasScheme_query {path rest : List Char} (h : ¬ HasScheme (path ++ rest))
    (tail : List Char) : ¬ HasScheme (path ++ '?' :: tail) := by
  rintro ⟨before, after, hsplit, halpha, hchars⟩
  obtain ⟨middle, hbefore, htail⟩ | ⟨middle, hpath, hafter⟩ := List.append_eq_append_iff.mp hsplit
  · cases middle with
    | nil => simp at htail
    | cons c middle =>
        obtain ⟨rfl, _⟩ := List.cons.inj htail
        exact absurd (hchars '?' (by simp [hbefore])) (by decide)
  · cases middle with
    | nil => simp at hafter
    | cons c middle =>
        obtain ⟨rfl, _⟩ := List.cons.inj hafter
        exact h ⟨before, middle ++ rest, by simp [hpath], halpha, hchars⟩

theorem not_hasScheme_of_head {url : List Char} (h : ∀ c ∈ url.head?, c.isAlpha = false) :
    ¬ HasScheme url := by
  rintro ⟨before, rest, rfl, halpha, _⟩
  cases before with
  | nil => simp at halpha
  | cons c before =>
      have hc : c.isAlpha = true := by simpa using halpha
      rw [h c (by simp)] at hc
      cases hc

/-! ### What a split gives -/

/-- The network location, and a path after it that begins with a slash. -/
theorem splitNetloc_of_netloc {netloc rest : List Char} (hnetloc : ∀ c ∈ netloc, inNetloc c = true)
    (hrest : rest.head?.all fun c => !inNetloc c) :
    splitNetloc ('/' :: '/' :: netloc ++ rest) = (netloc, rest) := by
  obtain ⟨htake, hdrop⟩ := takeWhile_boundary hnetloc hrest
  simp [splitNetloc, htake, hdrop]

theorem splitFirst_of_not_mem {c : Char} {before : List Char} (h : c ∉ before)
    (after : List Char) : splitFirst c (before ++ c :: after) = (before, after)
      ∧ splitFirst c before = (before, []) := by
  have hbefore : ∀ c' ∈ before, (c' != c) = true := by
    intro c' hc'
    rw [bne_iff_ne]
    rintro rfl
    exact h hc'
  obtain ⟨htake, hdrop⟩ := @takeWhile_boundary _ _ (c :: after) hbefore (by simp)
  obtain ⟨htake', hdrop'⟩ := @takeWhile_boundary _ _ [] hbefore rfl
  rw [List.append_nil] at htake' hdrop'
  simp [splitFirst, htake, hdrop, htake', hdrop']

/-- What holds of the parts of every URL. -/
structure Parts.WellFormed (parts : Parts) : Prop where
  scheme_alpha : parts.scheme ≠ [] → parts.scheme.head?.any Char.isAlpha = true
  scheme_chars : ∀ c ∈ parts.scheme, schemeChar c = true
  scheme_lower : parts.scheme.map Char.toLower = parts.scheme
  netloc_chars : ∀ c ∈ parts.netloc, inNetloc c = true
  path_chars : ∀ c ∈ parts.path, c ≠ '?' ∧ c ≠ '#'
  rooted : parts.netloc ≠ [] → ∀ c ∈ parts.path.head?, c = '/'
  relative : parts.scheme = [] → parts.netloc = [] →
    ∀ tail, ¬ HasScheme (parts.path ++ '?' :: tail)
  start : parts.scheme = [] → parts.netloc = [] → ∀ c ∈ parts.path.head?, isC0OrSpace c = false
  clean : ∀ c, c ∈ parts.scheme ∨ c ∈ parts.netloc ∨ c ∈ parts.path ∨ c ∈ parts.fragment →
    isRemoved c = false

theorem mem_of_mem_splitFirst {c c' : Char} {url : List Char} :
    (c' ∈ (splitFirst c url).1 → c' ∈ url ∧ c' ≠ c) ∧ (c' ∈ (splitFirst c url).2 → c' ∈ url) := by
  constructor
  · intro h
    exact ⟨(List.takeWhile_prefix _).subset h, by simpa using List.mem_takeWhile_imp h⟩
  · intro h
    exact (List.dropWhile_suffix _).subset (List.mem_of_mem_drop h)

/-- What is left of a text after the network location. -/
theorem splitNetloc_cases (url : List Char) :
    (url.take 2 ≠ ['/', '/'] ∧ splitNetloc url = ([], url))
    ∨ ∃ netloc rest, url = '/' :: '/' :: netloc ++ rest ∧ (∀ c ∈ netloc, inNetloc c = true)
      ∧ (∀ c ∈ rest.head?, inNetloc c = false) ∧ splitNetloc url = (netloc, rest) := by
  by_cases h : url.take 2 = ['/', '/']
  · right
    have hurl : url = '/' :: '/' :: url.drop 2 := by
      conv => lhs; rw [← List.take_append_drop 2 url, h]
      rfl
    refine ⟨(url.drop 2).takeWhile inNetloc, (url.drop 2).dropWhile inNetloc, ?_,
      fun c hc => List.mem_takeWhile_imp hc, fun c hc => ?_, by rw [splitNetloc, if_pos h]⟩
    · rw [List.cons_append, List.cons_append, List.takeWhile_append_dropWhile]
      exact hurl
    · cases hdrop : (url.drop 2).dropWhile inNetloc with
      | nil => simp [hdrop] at hc
      | cons first rest =>
          have hne : (url.drop 2).dropWhile inNetloc ≠ [] := by
            rw [hdrop]
            exact List.cons_ne_nil first rest
          have hhead := List.head_dropWhile_not inNetloc hne
          simp only [hdrop, List.head_cons] at hhead
          simp only [hdrop, List.head?_cons, Option.mem_def, Option.some_inj] at hc
          exact hc ▸ hhead
  · exact Or.inl ⟨h, by rw [splitNetloc, if_neg h]⟩

/-- The path is a beginning of what follows the network location. -/
theorem path_beginning (rest : List Char) :
    (splitFirst '?' (splitFirst '#' rest).1).1 <+: rest :=
  (List.takeWhile_prefix _).trans (List.takeWhile_prefix _)

theorem head_of_beginning {c : Char} {path rest : List Char} (h : path <+: rest)
    (hc : c ∈ path.head?) : c ∈ rest.head? := by
  obtain ⟨tail, rfl⟩ := h
  cases path with
  | nil => cases hc
  | cons first path => exact hc

theorem not_inNetloc_iff {c : Char} : inNetloc c = false ↔ c = '/' ∨ c = '?' ∨ c = '#' := by
  rw [inNetloc, Bool.not_eq_false', List.contains_iff_mem]
  simp

theorem wellFormed_of_rest {scheme netloc rest : List Char} (query : List Char)
    (halpha : scheme ≠ [] → scheme.head?.any Char.isAlpha = true)
    (hchars : ∀ c ∈ scheme, schemeChar c = true) (hlower : scheme.map Char.toLower = scheme)
    (hnetloc : ∀ c ∈ netloc, inNetloc c = true)
    (hrooted : netloc ≠ [] → ∀ c ∈ rest.head?, inNetloc c = false)
    (hrelative : scheme = [] → netloc = [] → ¬ HasScheme rest)
    (hstart : scheme = [] → netloc = [] → ∀ c ∈ rest.head?, isC0OrSpace c = false)
    (hclean : ∀ c, c ∈ scheme ∨ c ∈ netloc ∨ c ∈ rest → isRemoved c = false) :
    (⟨scheme, netloc, (splitFirst '?' (splitFirst '#' rest).1).1, query,
      (splitFirst '#' rest).2⟩ : Parts).WellFormed := by
  have hbeginning := path_beginning rest
  have hpath : ∀ c ∈ (splitFirst '?' (splitFirst '#' rest).1).1, c ≠ '?' ∧ c ≠ '#' := by
    intro c hc
    obtain ⟨hc, hquestion⟩ := mem_of_mem_splitFirst.1 hc
    exact ⟨hquestion, (mem_of_mem_splitFirst.1 hc).2⟩
  refine ⟨halpha, hchars, hlower, hnetloc, hpath, fun hne c hc => ?_, fun hs hn => ?_,
    fun hs hn c hc => hstart hs hn c (head_of_beginning hbeginning hc), fun c hc => ?_⟩
  · have hends := not_inNetloc_iff.mp (hrooted hne c (head_of_beginning hbeginning hc))
    have hplain := hpath c (List.mem_of_mem_head? hc)
    exact hends.resolve_right fun hother => hother.elim hplain.1 hplain.2
  · obtain ⟨tail, htail⟩ := hbeginning
    exact not_hasScheme_query (htail ▸ hrelative hs hn)
  · obtain hc | hc | hc | hc := hc
    · exact hclean c (Or.inl hc)
    · exact hclean c (Or.inr (Or.inl hc))
    · exact hclean c (Or.inr (Or.inr (hbeginning.subset hc)))
    · exact hclean c (Or.inr (Or.inr (mem_of_mem_splitFirst.2 hc)))

/-- The text that is split has nothing to take out, and begins with no blank. -/
theorem cleaned_facts (url : List Char) :
    (∀ c ∈ (url.dropWhile isC0OrSpace).filter (!isRemoved ·), isRemoved c = false)
    ∧ ∀ c ∈ ((url.dropWhile isC0OrSpace).filter (!isRemoved ·)).head?, isC0OrSpace c = false := by
  constructor
  · intro c hc
    simpa using (List.mem_filter.mp hc).2
  · cases hurl : url.dropWhile isC0OrSpace with
    | nil => simp
    | cons first rest =>
        have hne : url.dropWhile isC0OrSpace ≠ [] := by
          rw [hurl]
          exact List.cons_ne_nil first rest
        have hfirst : isC0OrSpace first = false := by
          simpa [hurl] using List.head_dropWhile_not isC0OrSpace hne
        have hkept : isRemoved first = false := by
          rw [Bool.eq_false_iff]
          intro hremoved
          simp only [isRemoved, List.contains_iff_mem, List.mem_cons, List.not_mem_nil,
            or_false] at hremoved
          obtain rfl | rfl | rfl := hremoved <;> exact absurd hfirst (by decide)
        intro c hc
        rw [List.filter_cons_of_pos (by simp [hkept])] at hc
        exact Option.some_inj.mp hc ▸ hfirst

theorem map_toLower_facts {before : List Char} (hchars : ∀ c ∈ before, schemeChar c = true)
    (halpha : before.head?.any Char.isAlpha = true) :
    (∀ c ∈ before.map Char.toLower, schemeChar c = true ∧ isRemoved c = false)
      ∧ (before.map Char.toLower).head?.any Char.isAlpha = true
      ∧ (before.map Char.toLower).map Char.toLower = before.map Char.toLower
      ∧ before.map Char.toLower ≠ [] := by
  refine ⟨fun c hc => ?_, ?_, ?_, ?_⟩
  · obtain ⟨original, horiginal, rfl⟩ := List.mem_map.mp hc
    obtain ⟨hscheme, _, _, hremoved⟩ := schemeChar_facts (hchars original horiginal)
    exact ⟨hscheme, hremoved⟩
  · cases before with
    | nil => simp at halpha
    | cons first before =>
        have hfirst : first.isAlpha = true := by simpa using halpha
        simpa using (schemeChar_facts (hchars first List.mem_cons_self)).2.1 hfirst
  · rw [List.map_map]
    exact List.map_congr_left fun c hc => (schemeChar_facts (hchars c hc)).2.2.1
  · rintro hnil
    rw [List.map_eq_nil_iff] at hnil
    simp [hnil] at halpha

theorem wellFormed_of_urlsplit {netlocValid : List Char → Bool} {url : List Char} {parts : Parts}
    (h : urlsplit netlocValid url = some parts) :
    parts.WellFormed ∧ netlocValid parts.netloc = true := by
  obtain ⟨hremoved, hblank⟩ := cleaned_facts url
  unfold urlsplit at h
  generalize (url.dropWhile isC0OrSpace).filter (!isRemoved ·) = cleaned at hremoved hblank h
  dsimp only at h
  split at h
  · rename_i hvalid
    cases h
    refine ⟨?_, hvalid⟩
    obtain ⟨hno, hscheme⟩ | ⟨before, rest, rfl, halpha, hchars, hscheme⟩ :=
      splitScheme_cases cleaned
    · rw [hscheme]
      dsimp only
      obtain ⟨_, hsplit⟩ | ⟨netloc, rest, rfl, hnetloc, hrest, hsplit⟩ :=
        splitNetloc_cases cleaned
      · rw [hsplit]
        exact wellFormed_of_rest _ (absurd rfl) (by simp) rfl (by simp) (absurd rfl)
          (fun _ _ => hno) (fun _ _ => hblank) (by simpa using hremoved)
      · rw [hsplit]
        refine wellFormed_of_rest _ (absurd rfl) (by simp) rfl hnetloc (fun _ => hrest)
          (fun _ _ => not_hasScheme_of_head fun c hc => ?_) (fun _ _ c hc => ?_) (fun c hc => ?_)
        · obtain rfl | rfl | rfl := not_inNetloc_iff.mp (hrest c hc) <;> decide
        · obtain rfl | rfl | rfl := not_inNetloc_iff.mp (hrest c hc) <;> decide
        · obtain hc | hc | hc := hc
          · cases hc
          · exact hremoved c (by simp [hc])
          · exact hremoved c (by simp [hc])
    · rw [hscheme]
      dsimp only
      obtain ⟨hlower, halpha', htwice, hne⟩ := map_toLower_facts hchars halpha
      obtain ⟨_, hsplit⟩ | ⟨netloc, rest', rfl, hnetloc, hrest, hsplit⟩ := splitNetloc_cases rest
      · rw [hsplit]
        refine wellFormed_of_rest _ (fun _ => halpha') (fun c hc => (hlower c hc).1) htwice
          (by simp) (absurd rfl) (fun hnil => absurd hnil hne) (fun hnil => absurd hnil hne)
          (fun c hc => ?_)
        obtain hc | hc | hc := hc
        · exact (hlower c hc).2
        · cases hc
        · exact hremoved c (by simp [hc])
      · rw [hsplit]
        refine wellFormed_of_rest _ (fun _ => halpha') (fun c hc => (hlower c hc).1) htwice hnetloc
          (fun _ => hrest) (fun hnil => absurd hnil hne) (fun hnil => absurd hnil hne)
          (fun c hc => ?_)
        obtain hc | hc | hc := hc
        · exact (hlower c hc).2
        · exact hremoved c (by simp [hc])
        · exact hremoved c (by simp [hc])
  · cases h

/-! ### Splitting what was put together -/

theorem splitNetloc_joinNetloc {parts : Parts} (h : parts.WellFormed) (tail : List Char) :
    splitNetloc (joinNetloc parts ++ '?' :: tail) = (parts.netloc, parts.path ++ '?' :: tail) := by
  have hroot : ∀ {path : List Char}, (path = [] ∨ path.head? = some '/') →
      (path ++ '?' :: tail).head?.all fun c => !inNetloc c := by
    rintro path (rfl | hpath)
    · rfl
    · cases path with
      | nil => rfl
      | cons c path =>
          obtain rfl : c = '/' := by simpa using hpath
          rfl
  have hbare : ∀ {path : List Char}, (path = [] ∨ path.head? = some '/') →
      splitNetloc ('/' :: '/' :: path ++ '?' :: tail) = ([], path ++ '?' :: tail) := by
    intro path hpath
    exact @splitNetloc_of_netloc [] _ (by simp) (hroot hpath)
  unfold joinNetloc
  split
  · rename_i hne
    have hpath : parts.path = [] ∨ parts.path.head? = some '/' := by
      cases hpath : parts.path with
      | nil => exact Or.inl rfl
      | cons c path =>
          right
          rw [List.head?_cons, h.rooted hne c (by simp [hpath])]
    rw [if_neg fun hother => hpath.elim hother.1 hother.2, List.append_assoc]
    exact splitNetloc_of_netloc h.netloc_chars (hroot hpath)
  · rename_i hnil
    rw [ne_eq, not_not] at hnil
    rw [hnil]
    split
    · rename_i hslashes
      refine hbare (Or.inr ?_)
      cases hpath : parts.path with
      | nil => simp [hpath] at hslashes
      | cons c path => simp_all
    · rename_i hslashes
      split
      · rename_i huses
        exact hbare huses.2.2
      · rw [splitNetloc, if_neg]
        intro htake
        cases hpath : parts.path with
        | nil => simp [hpath] at htake
        | cons c path =>
            cases path with
            | nil => simp [hpath] at htake
            | cons c' path => simp_all

theorem splitPath {parts : Parts} (h : parts.WellFormed) {query : List Char}
    (hquery : '#' ∉ query) :
    splitFirst '#' (parts.path ++ '?' :: query
        ++ if parts.fragment ≠ [] then '#' :: parts.fragment else [])
      = (parts.path ++ '?' :: query, parts.fragment)
    ∧ splitFirst '?' (parts.path ++ '?' :: query) = (parts.path, query) := by
  have hhash : '#' ∉ parts.path ++ '?' :: query := by
    intro hmem
    obtain hmem | hmem := List.mem_append.mp hmem
    · exact (h.path_chars '#' hmem).2 rfl
    · obtain hmem | hmem := List.mem_cons.mp hmem
      · cases hmem
      · exact hquery hmem
  refine ⟨?_, (splitFirst_of_not_mem (fun hmem => (h.path_chars '?' hmem).1 rfl) query).1⟩
  split
  · exact (splitFirst_of_not_mem hhash _).1
  · rename_i hnil
    rw [ne_eq, not_not] at hnil
    rw [List.append_nil, hnil]
    exact (splitFirst_of_not_mem hhash []).2

theorem mem_joinNetloc {parts : Parts} {c : Char} (hc : c ∈ joinNetloc parts) :
    c = '/' ∨ c ∈ parts.netloc ∨ c ∈ parts.path := by
  grind [joinNetloc]

/-- With no scheme before it, the location and the path look like no scheme, and begin with no
blank. -/
theorem joinNetloc_start {parts : Parts} (h : parts.WellFormed) (hscheme : parts.scheme = [])
    (tail : List Char) :
    ¬ HasScheme (joinNetloc parts ++ '?' :: tail)
    ∧ ∀ c ∈ (joinNetloc parts ++ '?' :: tail).head?, isC0OrSpace c = false := by
  have hslash : ∀ rest : List Char, ¬ HasScheme ('/' :: rest)
      ∧ ∀ c ∈ ('/' :: rest).head?, isC0OrSpace c = false := by
    intro rest
    constructor
    · exact not_hasScheme_of_head fun c hc => Option.some_inj.mp hc ▸ rfl
    · exact fun c hc => Option.some_inj.mp hc ▸ rfl
  unfold joinNetloc
  split
  · exact hslash _
  · rename_i hnil
    rw [ne_eq, not_not] at hnil
    split
    · exact hslash _
    · rw [if_neg fun huses => huses.1 hscheme]
      refine ⟨h.relative hscheme hnil tail, fun c hc => ?_⟩
      cases hpath : parts.path with
      | nil =>
          rw [hpath] at hc
          exact Option.some_inj.mp hc ▸ rfl
      | cons first path =>
          refine h.start hscheme hnil c ?_
          rw [hpath] at hc ⊢
          exact hc

/-- **Replacing the query.** A URL put together from the parts of another one, with a query of its
own, is split into these parts and this query. -/
theorem urlsplit_urlunsplit {netlocValid : List Char → Bool} {url : List Char} {parts : Parts}
    (h : urlsplit netlocValid url = some parts) {query : List Char} (hne : query ≠ [])
    (hquery : ∀ c ∈ query, c ≠ '#' ∧ isRemoved c = false) :
    urlsplit netlocValid (urlunsplit { parts with query := query })
      = some { parts with query := query } := by
  obtain ⟨hparts, hvalid⟩ := wellFormed_of_urlsplit h
  have hhash : '#' ∉ query := fun hmem => (hquery '#' hmem).1 rfl
  let tail := query ++ if parts.fragment ≠ [] then '#' :: parts.fragment else []
  have htail : '?' :: query ++ (if parts.fragment ≠ [] then '#' :: parts.fragment else [])
      = '?' :: tail := rfl
  have hunsplit : urlunsplit { parts with query := query }
      = (if parts.scheme ≠ [] then parts.scheme ++ [':'] else [])
        ++ (joinNetloc parts ++ '?' :: tail) := by
    rw [urlunsplit]
    dsimp only
    rw [if_pos hne, List.append_assoc, List.append_assoc, htail]
    rfl
  have hclean : ∀ c ∈ urlunsplit { parts with query := query }, isRemoved c = false := by
    intro c hc
    have hmark : ∀ c ∈ ['/', ':', '?', '#'], isRemoved c = false := by simp [isRemoved]
    have hpart := hparts.clean c
    have hchar := hquery c
    have hjoin := @mem_joinNetloc parts c
    grind
  have hstart : ∀ c ∈ (urlunsplit { parts with query := query }).head?,
      isC0OrSpace c = false := by
    intro c hc
    rw [hunsplit] at hc
    split at hc
    · rename_i hnonempty
      cases hscheme : parts.scheme with
      | nil => exact absurd hscheme hnonempty
      | cons first scheme =>
          have halpha := hparts.scheme_alpha hnonempty
          rw [hscheme] at hc halpha
          refine not_isC0OrSpace_of_isAlpha ?_
          rw [← Option.some_inj.mp hc]
          simpa using halpha
    · rename_i hnil
      rw [ne_eq, not_not] at hnil
      exact (joinNetloc_start hparts hnil tail).2 c hc
  have hscheme : splitScheme (urlunsplit { parts with query := query })
      = (parts.scheme, joinNetloc parts ++ '?' :: tail) := by
    rw [hunsplit]
    split
    · rename_i hnonempty
      rw [List.append_assoc, List.singleton_append,
        splitScheme_of_scheme (hparts.scheme_alpha hnonempty) hparts.scheme_chars,
        hparts.scheme_lower]
    · rename_i hnil
      rw [ne_eq, not_not] at hnil
      rw [List.nil_append, hnil]
      exact splitScheme_of_not_hasScheme (joinNetloc_start hparts hnil tail).1
  have hblank : (urlunsplit { parts with query := query }).dropWhile isC0OrSpace
      = urlunsplit { parts with query := query } := by
    cases hurl : urlunsplit { parts with query := query } with
    | nil => rfl
    | cons first rest =>
        rw [hurl] at hstart
        exact List.dropWhile_cons_of_neg (by simp [hstart first rfl])
  have hkept : (urlunsplit { parts with query := query }).filter (!isRemoved ·)
      = urlunsplit { parts with query := query } :=
    List.filter_eq_self.mpr fun c hc => by rw [hclean c hc]; rfl
  obtain ⟨hfragment, hpath⟩ := splitPath hparts hhash
  have hrest : parts.path ++ '?' :: tail = parts.path ++ '?' :: query
      ++ if parts.fragment ≠ [] then '#' :: parts.fragment else [] := by
    simp [tail]
  rw [urlsplit, hblank, hkept, hscheme]
  dsimp only
  rw [splitNetloc_joinNetloc hparts]
  dsimp only
  rw [hrest, hfragment]
  dsimp only
  rw [hpath]
  dsimp only
  rw [if_pos hvalid]

end UrlSplit
