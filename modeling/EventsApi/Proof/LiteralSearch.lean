import EventsApi.Proof.PastRule

/-!
# User texts in patterns

The location and search filters splice the user's text between two `%` and leave its own pattern
characters as they are. The clause is a substring search exactly for the texts without them.
-/

namespace EventsApi

open ThreeValued Like

variable {Num : Type} [LinearOrder Num] [Zero Num] {context : QueryContext}

/-- The text is known and contains the part, both with their case folded. -/
def Contains (cf : CaseFold) (text : Option String) (part : String) : Prop :=
  ∃ s, text = some s ∧ cf.fold part <:+: cf.fold s

/-- What is relied on of the two text functions of the database: `unaccent` passes ASCII characters
on, folding changes nothing a second time, and neither function changes an ASCII text or a text put
together from folded characters of an unaccented one. -/
structure TextFunctions (context : QueryContext) : Prop where
  unaccent_ascii : ∀ before text after : String,
    (∀ c ∈ before.toList ++ after.toList, c.toNat < 128) →
    context.unaccent (before ++ text ++ after) = before ++ context.unaccent text ++ after
  fold_folded : ∀ c, ∀ d ∈ context.caseFold.foldChar c, context.caseFold.foldChar d = [d]
  unaccent_folded : ∀ text s : String,
    (∀ c ∈ s.toList, c ∈ context.caseFold.fold (context.unaccent text) ∨ c.toNat < 128) →
    context.unaccent s = s

theorem fold_containing (cf : CaseFold) (part : String) :
    cf.fold (containing part) = '%' :: (cf.fold part ++ ['%']) := by
  have hpercent : cf.foldChar '%' = ['%'] := cf.foldChar_ascii '%' (by decide) (by decide)
  simp [CaseFold.fold, containing, hpercent]

/-- A text of folded characters and two fixed ones is its own folding. -/
theorem fold_of_folded {cf : CaseFold}
    (hfolded : ∀ c, ∀ d ∈ cf.foldChar c, cf.foldChar d = [d]) {part : String} {s : List Char}
    (h : ∀ c ∈ s, c ∈ cf.fold part ∨ c = 'x' ∨ c = '%') : cf.fold (String.ofList s) = s := by
  have hsame : ∀ c ∈ s, cf.foldChar c = [c] := by
    intro c hc
    obtain hpart | rfl | rfl := h c hc
    · obtain ⟨d, _, hd⟩ := List.mem_flatMap.mp hpart
      exact hfolded d c hd
    · exact cf.foldChar_ascii 'x' (by decide) (by decide)
    · exact cf.foldChar_ascii '%' (by decide) (by decide)
  rw [CaseFold.fold, String.toList_ofList]
  clear h
  induction s with
  | nil => rfl
  | cons c s ih =>
      rw [List.flatMap_cons, hsame c List.mem_cons_self,
        ih fun d hd => hsame d (List.mem_cons_of_mem _ hd)]
      rfl

theorem holds_ilike_iff (cf : CaseFold) {part : String} (hpart : Literal (cf.fold part))
    (text : Option String) :
    holds (ilike cf text (containing part)) = true ↔ Contains cf text part := by
  cases text with
  | none => simp [ilike, Contains]
  | some s =>
      rw [ilike, Option.map_some, holds_some, fold_containing, accepts_containing hpart]
      simp [Contains]

/-! ### The two clauses -/

theorem admits_onlyLocation (context : QueryContext) {names : List String} (hnames : names ≠ [])
    (now : Int) (event : Event Num) :
    admits context (onlyLocation names) none now event = true
      ↔ ∃ name ∈ names, holds (ilike context.caseFold event.city (containing name)) = true
        ∨ holds (ilike context.caseFold event.address (containing name)) = true := by
  obtain ⟨name, names, rfl⟩ := List.exists_cons_of_ne_nil hnames
  simp [admits, buildFilters, onlyLocation, textFalsy, holds_conjAll, holds_disjAll]

/-- Without a search text there is no clause, and every title contains the empty text. -/
theorem admits_onlySearch (context : QueryContext) (search : String) (now : Int)
    (event : Event Num) :
    admits context (onlySearch search) none now event = true
      ↔ search = "" ∨ holds (ilike context.caseFold (some (context.unaccent event.title))
        (context.unaccent (containing search))) = true := by
  by_cases hempty : search = ""
  · simp [admits, buildFilters, onlySearch, textFalsy, holds_conjAll, hempty]
  · simp [admits, buildFilters, onlySearch, textFalsy, holds_conjAll, hempty]

/-- The location clause searches for each of the texts as it stands. -/
def LocationLiteral (Num : Type) [LinearOrder Num] [Zero Num] (context : QueryContext)
    (names : List String) : Prop :=
  ∀ (now : Int) (event : Event Num),
    admits context (onlyLocation names) none now event = true
      ↔ ∃ name ∈ names, Contains context.caseFold event.city name
        ∨ Contains context.caseFold event.address name

/-- The search clause searches for the text as it stands, apart from accents. -/
def SearchLiteral (Num : Type) [LinearOrder Num] [Zero Num] (context : QueryContext)
    (search : String) : Prop :=
  ∀ (now : Int) (event : Event Num),
    admits context (onlySearch search) none now event = true
      ↔ Contains context.caseFold (some (context.unaccent event.title)) (context.unaccent search)

theorem locationLiteral {names : List String} (hnames : names ≠ [])
    (h : ∀ name ∈ names, Literal (context.caseFold.fold name)) :
    LocationLiteral Num context names := by
  intro now event
  rw [admits_onlyLocation context hnames]
  refine exists_congr fun name => and_congr_right fun hname => ?_
  rw [holds_ilike_iff _ (h name hname), holds_ilike_iff _ (h name hname)]

/-- A text that is searched for literally in one city has no pattern characters. -/
theorem literal_of_location (hfolded : ∀ c, ∀ d ∈ context.caseFold.foldChar c,
      context.caseFold.foldChar d = [d]) {name : String}
    (h : LocationLiteral Num context [name]) : Literal (context.caseFold.fold name) := by
  let s := shortest (items (context.caseFold.fold name ++ ['%']))
  let event : Event Num := { Event.bare Num 0 "" with city := some (String.ofList s) }
  have hfold : context.caseFold.fold (String.ofList s) = s := by
    have hmem : ∀ c ∈ s, c ∈ context.caseFold.fold name ∨ c = 'x' ∨ c = '%' := by
      intro c hc
      have := mem_shortest_items hc
      simp only [List.mem_append, List.mem_singleton] at this
      tauto
    exact fold_of_folded hfolded hmem
  have hadmitted : admits context (onlyLocation [name]) none 0 event = true := by
    rw [admits_onlyLocation context (List.cons_ne_nil _ _)]
    refine ⟨name, List.mem_singleton_self _, .inl ?_⟩
    rw [ilike, Option.map_some, holds_some, fold_containing, hfold]
    exact accepts_containing_shortest _
  obtain ⟨_, hname, hcity | haddress⟩ := (h 0 event).mp hadmitted
  · obtain rfl := List.mem_singleton.mp hname
    obtain ⟨_, hcity, hinfix⟩ := hcity
    obtain rfl := Option.some_inj.mp hcity
    rw [hfold] at hinfix
    exact literal_of_infix_shortest hinfix
  · obtain ⟨_, haddress, _⟩ := haddress
    cases haddress

theorem TextFunctions.unaccent_containing (h : TextFunctions context) (search : String) :
    context.unaccent (containing search) = containing (context.unaccent search) :=
  h.unaccent_ascii "%" search "%" (by simp)

theorem TextFunctions.unaccent_empty (h : TextFunctions context) : context.unaccent "" = "" :=
  h.unaccent_folded "" "" (by simp)

theorem searchLiteral (htext : TextFunctions context) {search : String}
    (h : Literal (context.caseFold.fold (context.unaccent search))) :
    SearchLiteral Num context search := by
  intro now event
  rw [admits_onlySearch, htext.unaccent_containing, holds_ilike_iff _ h]
  refine or_iff_right_of_imp fun hempty => ⟨_, rfl, ?_⟩
  rw [hempty, htext.unaccent_empty]
  exact List.nil_infix

theorem literal_of_search (htext : TextFunctions context) {search : String}
    (h : SearchLiteral Num context search) :
    Literal (context.caseFold.fold (context.unaccent search)) := by
  let s := shortest (items (context.caseFold.fold (context.unaccent search) ++ ['%']))
  have hmem : ∀ c ∈ s, c ∈ context.caseFold.fold (context.unaccent search) ∨ c = 'x' ∨ c = '%' := by
    intro c hc
    have := mem_shortest_items hc
    simp only [List.mem_append, List.mem_singleton] at this
    tauto
  have hfold : context.caseFold.fold (String.ofList s) = s := fold_of_folded htext.fold_folded hmem
  have hunaccent : context.unaccent (String.ofList s) = String.ofList s := by
    refine htext.unaccent_folded search _ fun c hc => (hmem c (by simpa using hc)).imp_right ?_
    rintro (rfl | rfl) <;> decide
  have hadmitted : admits context (onlySearch search) none 0 (Event.bare Num 0 (String.ofList s))
      = true := by
    rw [admits_onlySearch, htext.unaccent_containing]
    refine .inr ?_
    rw [ilike, Option.map_some, holds_some, fold_containing]
    change accepts _ (context.caseFold.fold (context.unaccent (String.ofList s))) = true
    rw [hunaccent, hfold]
    exact accepts_containing_shortest _
  obtain ⟨_, htitle, hinfix⟩ := (h 0 _).mp hadmitted
  obtain rfl := Option.some_inj.mp htitle
  change _ <:+: context.caseFold.fold (context.unaccent (String.ofList s)) at hinfix
  rw [hunaccent, hfold] at hinfix
  exact literal_of_infix_shortest hinfix

/-- **Literal search.** Every list drawn from a set of location texts is searched for as it stands,
in every event, exactly when no text of the set has a pattern character, and a search text is exactly
when it has none once its accents are removed. -/
theorem literal_search_iff (htext : TextFunctions context) :
    (∀ texts : Set String,
      (∀ names, names ≠ [] → (∀ name ∈ names, name ∈ texts) → LocationLiteral Num context names)
        ↔ ∀ text ∈ texts, Literal (context.caseFold.fold text))
    ∧ ∀ search, SearchLiteral Num context search
      ↔ Literal (context.caseFold.fold (context.unaccent search)) := by
  refine ⟨fun texts => ⟨fun h text hmem => ?_, fun h names hnames hsubset => ?_⟩,
    fun search => ⟨literal_of_search htext, searchLiteral htext⟩⟩
  · have hone := h [text] (List.cons_ne_nil _ _) (by simpa using hmem)
    exact literal_of_location htext.fold_folded hone
  · exact locationLiteral hnames fun name hname => h name (hsubset name hname)

theorem textFunctions_vilnius : TextFunctions vilniusContext where
  unaccent_ascii _ _ _ _ := rfl
  fold_folded c d hd := by
    obtain rfl := List.mem_singleton.mp hd
    have hlower : c.toLower.toLower = c.toLower := Char.toLower_eq_of_not_isUpper (by simp)
    exact congrArg (fun c => [c]) hlower
  unaccent_folded _ _ _ := rfl

theorem literal_search_vilnius :
    (∀ texts : Set String,
      (∀ names, names ≠ [] → (∀ name ∈ names, name ∈ texts) →
        LocationLiteral Int vilniusContext names)
        ↔ ∀ text ∈ texts, Literal (vilniusContext.caseFold.fold text))
    ∧ ∀ search, SearchLiteral Int vilniusContext search
      ↔ Literal (vilniusContext.caseFold.fold (vilniusContext.unaccent search)) :=
  literal_search_iff textFunctions_vilnius

/-- An event in a city without a percent sign, found by one. -/
theorem percent_found_in_vilnius :
    ¬ LocationLiteral Int vilniusContext ["%"] ∧ ¬ SearchLiteral Int vilniusContext "a_b" := by
  constructor
  · intro h
    let event : Event Int := { Event.bare Int 1 "Koncertas" with city := some "Vilnius" }
    have hadmitted : admits vilniusContext (onlyLocation ["%"]) none 0 event = true := by decide
    obtain ⟨name, hname, ⟨_, hcity, hinfix⟩ | ⟨_, haddress, _⟩⟩ := (h 0 event).mp hadmitted
    · obtain rfl := List.mem_singleton.mp hname
      obtain rfl := Option.some_inj.mp hcity
      exact absurd hinfix (by decide)
    · cases haddress
  · intro h
    have hadmitted : admits vilniusContext (onlySearch "a_b") none 0 (Event.bare Int 1 "aXb")
        = true := by decide
    obtain ⟨_, htitle, hinfix⟩ := (h 0 _).mp hadmitted
    obtain rfl := Option.some_inj.mp htitle
    exact absurd hinfix (by decide)

end EventsApi
