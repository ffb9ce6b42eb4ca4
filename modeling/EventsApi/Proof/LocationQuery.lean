import EventsApi.Events.Query
import EventsApi.Proof.LiteralSearch

/-!
# Locations however they are given

The location parameter may be repeated, hold several names between commas, or both. Only the text
that the parameters make joined by commas matters, and the names found are a way to give them that
finds them again.
-/

namespace EventsApi

open ThreeValued Like

/-! ### Stripping -/

theorem strip_strip (text : List Char) : strip (strip text) = strip text := by
  have hhead : (strip text).dropWhile isSpace = strip text := by
    cases hstripped : strip text with
    | nil => rfl
    | cons c rest =>
        obtain ⟨tail, htail⟩ : c :: rest <+: text.dropWhile isSpace := by
          rw [← hstripped]
          exact List.rdropWhile_prefix isSpace _
        have hne : text.dropWhile isSpace ≠ [] := by
          rw [← htail]
          exact List.cons_ne_nil _ _
        have hc := List.head_dropWhile_not isSpace hne
        simp only [← htail, List.cons_append, List.head_cons] at hc
        rw [List.dropWhile_cons_of_neg (by rw [hc]; decide)]
  rw [strip, hhead, strip, List.rdropWhile_idempotent]

theorem mem_of_mem_strip {c : Char} {text : List Char} (h : c ∈ strip text) : c ∈ text :=
  (List.dropWhile_suffix isSpace).subset ((List.rdropWhile_prefix isSpace _).subset h)

/-! ### Names -/

/-- A name that splitting leaves as it is. -/
structure LocationName (name : String) : Prop where
  nonempty : name ≠ ""
  no_comma : ',' ∉ name.toList
  stripped : strip name.toList = name.toList

theorem comma_not_mem_of_mem_splitOn {text part : List Char} (h : part ∈ text.splitOn ',') :
    ',' ∉ part := by
  induction text generalizing part with
  | nil =>
      rw [List.splitOn_nil, List.mem_singleton] at h
      rw [h]
      exact List.not_mem_nil
  | cons c text ih =>
      obtain ⟨first, rest, hsplit⟩ := List.exists_cons_of_ne_nil (List.splitOn_ne_nil ',' text)
      rw [List.splitOn_cons_eq_if_modifyHead, hsplit] at h
      rw [hsplit] at ih
      by_cases hc : c = ','
      · rw [if_pos (beq_iff_eq.mpr hc)] at h
        rcases List.mem_cons.mp h with rfl | h
        · exact List.not_mem_nil
        · exact ih h
      · rw [if_neg (by rwa [beq_iff_eq]), List.modifyHead_cons] at h
        rcases List.mem_cons.mp h with rfl | h
        · intro hmem
          rcases List.mem_cons.mp hmem with heq | hmem
          · exact hc heq.symm
          · exact ih List.mem_cons_self hmem
        · exact ih (List.mem_cons_of_mem _ h)

theorem mem_locationNames {item name : String} :
    name ∈ locationNames item
      ↔ ∃ part ∈ item.toList.splitOn ',', strip part ≠ [] ∧ name = String.ofList (strip part) := by
  rw [locationNames, List.mem_filterMap]
  refine exists_congr fun part => and_congr_right fun _ => ?_
  split
  · next hblank => simp [hblank]
  · next hne => simp [hne, eq_comm]

theorem LocationName.of_mem {item name : String} (h : name ∈ locationNames item) :
    LocationName name := by
  obtain ⟨part, hpart, hne, rfl⟩ := mem_locationNames.mp h
  refine ⟨?_, ?_, ?_⟩
  · intro hempty
    apply hne
    rw [← String.toList_ofList (l := strip part), hempty]
    rfl
  · rw [String.toList_ofList]
    exact fun hmem => comma_not_mem_of_mem_splitOn hpart (mem_of_mem_strip hmem)
  · rw [String.toList_ofList, strip_strip]

theorem LocationName.names {name : String} (h : LocationName name) :
    locationNames name = [name] := by
  have hne : name.toList ≠ [] := fun hnil => h.nonempty (String.toList_eq_nil_iff.mp hnil)
  rw [locationNames, List.splitOn_eq_singleton h.no_comma]
  simp only [List.filterMap_cons, List.filterMap_nil, h.stripped, if_neg hne, String.ofList_toList]

theorem splitCommaSeparated_names {names : List String} (h : ∀ name ∈ names, LocationName name) :
    splitCommaSeparated names = names := by
  induction names with
  | nil => rfl
  | cons name names ih =>
      have htail := ih fun other hother => h other (List.mem_cons_of_mem _ hother)
      rw [splitCommaSeparated] at htail ⊢
      rw [List.flatMap_cons, (h name List.mem_cons_self).names, htail]
      rfl

/-! ### One parameter -/

theorem locationNames_append (item rest : String) :
    locationNames (item ++ "," ++ rest) = locationNames item ++ locationNames rest := by
  have hlist : (item ++ "," ++ rest).toList = item.toList ++ ',' :: rest.toList := by simp
  rw [locationNames, hlist, List.splitOn_append_cons_self, List.filterMap_append]
  rfl

theorem locationNames_intercalate {values : List String} (h : values ≠ []) :
    locationNames (",".intercalate values) = splitCommaSeparated values := by
  induction values with
  | nil => exact absurd rfl h
  | cons value values ih =>
      cases values with
      | nil => rw [String.intercalate_singleton, splitCommaSeparated, List.flatMap_singleton]
      | cons next values =>
          rw [String.intercalate_cons_cons, locationNames_append, ih (List.cons_ne_nil _ _)]
          rfl

variable {Num : Type} [LinearOrder Num] [Zero Num]

/-- A city or address like the name. -/
def LocatedAt (context : QueryContext) (event : Event Num) (name : String) : Prop :=
  holds (ilike context.caseFold event.city (containing name)) = true
    ∨ holds (ilike context.caseFold event.address (containing name)) = true

theorem admits_noLocation (context : QueryContext) (now : Int) (event : Event Num) :
    admits context (onlyLocation []) none now event = true := by
  simp [admits, buildFilters, onlyLocation, textFalsy, holds_conjAll]

/-- The location clause, by the parts of one parameter. -/
theorem admits_locationNames (context : QueryContext) (item : String) (now : Int)
    (event : Event Num) :
    admits context (onlyLocation (locationNames item)) none now event = true
      ↔ (∀ part ∈ item.toList.splitOn ',', strip part = [])
        ∨ ∃ part ∈ item.toList.splitOn ',',
          strip part ≠ [] ∧ LocatedAt context event (String.ofList (strip part)) := by
  by_cases hnames : locationNames item = []
  · rw [hnames]
    refine iff_of_true (admits_noLocation context now event) (.inl fun part hpart => ?_)
    by_contra hne
    have hmem := mem_locationNames.mpr ⟨part, hpart, hne, rfl⟩
    rw [hnames] at hmem
    exact List.not_mem_nil hmem
  · rw [admits_onlyLocation context hnames]
    constructor
    · rintro ⟨name, hname, hlocated⟩
      obtain ⟨part, hpart, hne, rfl⟩ := mem_locationNames.mp hname
      exact .inr ⟨part, hpart, hne, hlocated⟩
    · rintro (hblank | ⟨part, hpart, hne, hlocated⟩)
      · obtain ⟨name, hname⟩ := List.exists_mem_of_ne_nil _ hnames
        obtain ⟨part, hpart, hne, _⟩ := mem_locationNames.mp hname
        exact absurd (hblank part hpart) hne
      · exact ⟨_, mem_locationNames.mpr ⟨part, hpart, hne, rfl⟩, hlocated⟩

/-- **Locations however they are given.** Only the parameters joined by commas matter. The names
found are neither blank nor padded and have no comma; given again, as they are or in one parameter,
they are found again. An event is listed exactly when its city or address is like one of the parts
that are not blank, or when all are blank. -/
theorem locations_however_given (context : QueryContext) {values : List String} (h : values ≠ []) :
    let joined := ",".intercalate values
    let names := splitCommaSeparated values
    splitCommaSeparated [joined] = names
      ∧ (∀ name ∈ names, LocationName name)
      ∧ splitCommaSeparated names = names
      ∧ splitCommaSeparated [",".intercalate names] = names
      ∧ ∀ (now : Int) (event : Event Num),
        admits context (onlyLocation names) none now event = true
          ↔ (∀ part ∈ joined.toList.splitOn ',', strip part = [])
            ∨ ∃ part ∈ joined.toList.splitOn ',',
              strip part ≠ [] ∧ LocatedAt context event (String.ofList (strip part)) := by
  intro joined names
  have hjoined : locationNames joined = names := locationNames_intercalate h
  have hclean : ∀ name ∈ names, LocationName name := by
    rw [← hjoined]
    exact fun name => LocationName.of_mem
  have hagain := splitCommaSeparated_names hclean
  refine ⟨?_, hclean, hagain, ?_, fun now event => ?_⟩
  · rw [splitCommaSeparated, List.flatMap_singleton, hjoined]
  · rw [splitCommaSeparated, List.flatMap_singleton]
    by_cases hnone : names = []
    · rw [hnone]
      rfl
    · rw [locationNames_intercalate hnone, hagain]
  · rw [← hjoined]
    exact admits_locationNames context joined now event

theorem locations_however_given_repeated :
    let joined := ",".intercalate ["Vilnius, Kaunas", " "]
    let names := splitCommaSeparated ["Vilnius, Kaunas", " "]
    splitCommaSeparated [joined] = names
      ∧ (∀ name ∈ names, LocationName name)
      ∧ splitCommaSeparated names = names
      ∧ splitCommaSeparated [",".intercalate names] = names
      ∧ ∀ (now : Int) (event : Event Int),
        admits vilniusContext (onlyLocation names) none now event = true
          ↔ (∀ part ∈ joined.toList.splitOn ',', strip part = [])
            ∨ ∃ part ∈ joined.toList.splitOn ',',
              strip part ≠ [] ∧ LocatedAt vilniusContext event (String.ofList (strip part)) :=
  locations_however_given vilniusContext (List.cons_ne_nil _ _)

end EventsApi
