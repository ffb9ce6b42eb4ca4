import EventsApi.Proof.PastRule

/-!
# Query dates on the Lithuanian clock

`event_time` settles skipped and repeated readings by comparing the two offsets `fold` gives. The
database settles them by a rule of its own, and the two agree on every zone whose changes are further
apart than they move the clock. A date with an offset is read back as its instant unless the clock
is about to repeat the reading, and the conversion itself can leave the range of datetimes.
-/

namespace EventsApi

open ClockZone

variable {offset w : Int} {changes : List Change} {zone : Zone}

/-! ### Skipped and repeated readings -/

/-- A reading before a change by the old offset is before the next change by the new one. -/
theorem lt_next_of_lt {change : Change} (hspaced : SpacedFrom offset (change :: changes))
    (h : w < change.instant + offset) :
    ∀ next ∈ changes.head?, w < next.instant + change.offset := by
  intro next hnext
  cases changes with
  | nil => cases hnext
  | cons _ changes =>
      obtain rfl := Option.some_inj.mp hnext
      have hgap := hspaced.1
      omega

/-- While the reading lies before the next change by the current offset, `fold=1` follows the
database: only backward changes can have taken over, and each hands over to a smaller offset. -/
theorem secondOffset_of_lt (hspaced : SpacedFrom offset changes)
    (hbefore : ∀ change ∈ changes.head?, w < change.instant + offset) :
    w - secondOffsetFrom offset changes w = instantFrom offset changes w
      ∧ secondOffsetFrom offset changes w ≤ offset := by
  induction changes generalizing offset with
  | nil => exact ⟨rfl, le_rfl⟩
  | cons change changes ih =>
      have hhead := hbefore change rfl
      rw [secondOffsetFrom, instantFrom]
      by_cases hfirst : w < change.instant + min offset change.offset
      · rw [if_pos hfirst, if_pos (by omega)]
        exact ⟨rfl, le_rfl⟩
      · obtain ⟨heq, hle⟩ := ih hspaced.tail (lt_next_of_lt hspaced hhead)
        rw [if_neg hfirst, if_neg (by omega)]
        exact ⟨heq, by omega⟩

/-- **The smaller of the two offsets is the database's.** The head change skips or repeats the
readings between the two sums with its instant; below them both folds stay before it, above them both
are past it. -/
theorem chosenOffset_eq (hspaced : SpacedFrom offset changes) :
    w - (if secondOffsetFrom offset changes w < firstOffsetFrom offset changes w
        then secondOffsetFrom offset changes w else firstOffsetFrom offset changes w)
      = instantFrom offset changes w := by
  induction changes generalizing offset with
  | nil => simp [secondOffsetFrom, firstOffsetFrom, instantFrom]
  | cons change changes ih =>
      by_cases hbelow : w < change.instant + min offset change.offset
      · have hfirst : firstOffsetFrom offset (change :: changes) w = offset := by
          rw [firstOffsetFrom, if_pos (by omega)]
        have hsecond : secondOffsetFrom offset (change :: changes) w = offset := by
          rw [secondOffsetFrom, if_pos hbelow]
        rw [hfirst, hsecond, ite_self, instantFrom, if_pos (by omega)]
      have hsecond : secondOffsetFrom offset (change :: changes) w
          = secondOffsetFrom change.offset changes w := by
        rw [secondOffsetFrom, if_neg hbelow]
      by_cases habove : change.instant + max offset change.offset ≤ w
      · have hfirst : firstOffsetFrom offset (change :: changes) w
            = firstOffsetFrom change.offset changes w := by
          rw [firstOffsetFrom, if_neg (by omega)]
        have hread : instantFrom offset (change :: changes) w
            = instantFrom change.offset changes w := by
          rw [instantFrom, if_neg (by omega)]
        rw [hfirst, hsecond, hread]
        exact ih hspaced.tail
      have hfirst : firstOffsetFrom offset (change :: changes) w = offset := by
        rw [firstOffsetFrom, if_pos (by omega)]
      rw [hfirst, hsecond]
      by_cases hbackward : change.offset < offset
      · have hbefore : w < change.instant + offset := by omega
        obtain ⟨heq, hle⟩ := secondOffset_of_lt hspaced.tail (lt_next_of_lt hspaced hbefore)
        rw [if_pos (by omega), instantFrom, if_neg (by omega)]
        exact heq
      · have hlater : secondOffsetFrom change.offset changes w = change.offset := by
          cases changes with
          | nil => rfl
          | cons next changes =>
              obtain ⟨_, hgap, _⟩ := hspaced
              rw [secondOffsetFrom, if_pos (by omega)]
        rw [hlater, if_neg hbackward, instantFrom, if_pos (by omega)]

/-- The instant of an offset-free value is the one the database reads. -/
theorem instant_eventTime (hspaced : zone.Spaced) :
    (eventTime zone ⟨w, none⟩).instant = some (zone.instantOf w) :=
  congrArg some (chosenOffset_eq hspaced)

/-- What the database reads of the reading of an instant: that instant, or in a first pass the last
instant with the same reading, which is the second pass where repeated periods do not meet. -/
structure ReadsBack (zone : Zone) (t w : Int) : Prop where
  shown : zone.toLocal t = w
  exact : ¬ zone.FirstPass t → zone.instantOf w = t
  later : zone.FirstPass t → t < zone.instantOf w ∧ zone.toLocal (zone.instantOf w) = w
  last : zone.FirstPass t → ∀ later, zone.toLocal later = w → later ≤ zone.instantOf w
  second : zone.FirstPass t → zone.Apart →
    ∀ later, t < later → zone.toLocal later = w → later = zone.instantOf w

theorem readsBack_toLocal (hspaced : zone.Spaced) (t : Int) :
    ReadsBack zone t (zone.toLocal t) where
  shown := rfl
  exact := Zone.instantOf_toLocal hspaced
  later hpass :=
    ⟨Zone.lt_instantOf_of_firstPass hspaced hpass, Zone.toLocal_instantOf hspaced t⟩
  last _ _ := Zone.le_instantOf hspaced
  second _ hapart _ := Zone.eq_instantOf_of_apart hspaced hapart

/-- **One reading of a date on both sides.** An offset-free date stays as it is, and the instant the
application gives it is the one the database reads. A date with an offset is accepted as a reading
that the database reads back exactly when its instant is a datetime in UTC and on the clock of the
zone. -/
theorem eventTime_agrees_with_database (hspaced : zone.Spaced) :
    (∀ w, (∃ aware, boundedEventTime zone ⟨w, none⟩ = .ok aware
        ∧ aware.instant = some (zone.instantOf w))
      ∧ validateEventDate zone (some ⟨w, none⟩) = .accepted (some w))
    ∧ ∀ value t, value.instant = some t →
      ((∃ w, validateEventDate zone (some value) = .accepted (some w) ∧ ReadsBack zone t w)
        ↔ Representable t ∧ Representable (zone.toLocal t)) := by
  refine ⟨fun w => ⟨⟨_, rfl, instant_eventTime hspaced⟩, rfl⟩, fun value t ht => ?_⟩
  obtain ⟨wall, utcOffset⟩ := value
  obtain ⟨offset, rfl, rfl⟩ := Option.map_eq_some_iff.mp ht
  constructor
  · rintro ⟨w, haccepted, -⟩
    by_contra hrange
    rw [validateEventDate_of_not_representable hrange] at haccepted
    cases haccepted
  · rintro ⟨hutc, hlocal⟩
    exact ⟨_, validateEventDate_of_representable hutc hlocal, readsBack_toLocal hspaced _⟩

/-- The two changes of one year. -/
theorem eventTime_agrees_in_vilnius :
    (∀ w, (∃ aware, boundedEventTime vilnius2026 ⟨w, none⟩ = .ok aware
        ∧ aware.instant = some (vilnius2026.instantOf w))
      ∧ validateEventDate vilnius2026 (some ⟨w, none⟩) = .accepted (some w))
    ∧ ∀ value t, value.instant = some t →
      ((∃ w, validateEventDate vilnius2026 (some value) = .accepted (some w)
          ∧ ReadsBack vilnius2026 t w)
        ↔ Representable t ∧ Representable (vilnius2026.toLocal t)) :=
  eventTime_agrees_with_database spaced_vilnius2026

/-! ### The ends of the calendar -/

/-- A datetime that a query parameter can carry. -/
structure QueryDate (value : DateTime) : Prop where
  representable : Representable value.wall
  offset_lt : ∀ offset ∈ value.utcOffset, -day < offset ∧ offset < day

/-- What the time-zone database says of Europe/Vilnius: never behind UTC, at most four hours ahead of
it, and two hours ahead on the last evening of the calendar. -/
structure LithuanianTime (zone : Zone) : Prop where
  east : ∀ t, 0 ≤ offsetFrom zone.initial zone.changes t
  ahead : ∀ t, offsetFrom zone.initial zone.changes t ≤ 14400000000
  final : ∀ t, maxDateTime - 14400000000 < t →
    offsetFrom zone.initial zone.changes t = 7200000000

/-- The last instant whose Lithuanian reading is a datetime. -/
def lastInstant : Int := maxDateTime - 7200000000

/-- The date is accepted as its Lithuanian reading, or reported as a validation error. -/
def Handled (zone : Zone) (value : DateTime) : Prop :=
  (∃ w, validateEventDate zone (some value) = .accepted (some w)
    ∧ normalizeEventDate zone (some value) = some w ∧ Representable w)
  ∨ validateEventDate zone (some value) = .validationError

theorem handled_of_naive {value : DateTime} (h : Representable value.wall)
    (hnaive : value.utcOffset = none) : Handled zone value := by
  obtain ⟨wall, _⟩ := value
  cases hnaive
  exact .inl ⟨wall, rfl, rfl, h⟩

/-- A date with an offset is handled exactly when neither sum leaves the range. -/
theorem handled_iff_of_offset :
    Handled zone ⟨w, some offset⟩
      ↔ Representable (w - offset) ∧ Representable (zone.toLocal (w - offset)) := by
  constructor
  · intro h
    by_contra hout
    rw [Handled, validateEventDate_of_not_representable hout] at h
    obtain ⟨_, ⟨⟩, _⟩ | ⟨⟨⟩⟩ := h
  · rintro ⟨hutc, hlocal⟩
    rw [Handled, validateEventDate_of_representable hutc hlocal]
    exact .inl ⟨_, rfl, rfl, hlocal⟩

/-- **The dates that are handled.** A query date is normalised or reported as a validation
error exactly when it has no offset or denotes an instant from the beginning of year 1 in UTC to the
end of year 9999 in Lithuania. -/
theorem handled_iff (hzone : LithuanianTime zone) {value : DateTime} (h : QueryDate value) :
    Handled zone value
      ↔ ∀ t ∈ value.instant, minDateTime ≤ t ∧ t ≤ lastInstant := by
  obtain ⟨wall, _ | offset⟩ := value
  · refine iff_of_true (handled_of_naive h.representable rfl) ?_
    rintro t ⟨⟩
  · have hinstant : (∀ t ∈ DateTime.instant ⟨wall, some offset⟩, minDateTime ≤ t ∧ t ≤ lastInstant)
        ↔ minDateTime ≤ wall - offset ∧ wall - offset ≤ lastInstant := by
      simp [DateTime.instant]
    rw [handled_iff_of_offset, hinstant, Representable, Representable, Zone.toLocal, lastInstant]
    have heast := hzone.east (wall - offset)
    have hahead := hzone.ahead (wall - offset)
    by_cases hlate : maxDateTime - 14400000000 < wall - offset
    · rw [hzone.final _ hlate]
      omega
    · omega

theorem lithuanianTime_vilnius2026 : LithuanianTime vilnius2026 := by
  refine ⟨fun t => ?_, fun t => ?_, fun t ht => ?_⟩
  · simp only [vilnius2026, offsetFrom]
    split_ifs <;> decide
  · simp only [vilnius2026, offsetFrom]
    split_ifs <;> decide
  · have hlast : 1792890000000000 ≤ t := le_trans (by decide) ht.le
    simp only [vilnius2026, offsetFrom]
    rw [if_neg (by omega), if_neg (by omega)]

/-- The last microsecond of year 9999 in UTC. -/
def lastMoment : DateTime := ⟨maxDateTime, some 0⟩

/-- Its reading lies in year 10000, so validation accepts none and the database reads none back. -/
theorem lastMoment_not_readsBack :
    vilnius2026.Spaced ∧ lastMoment.instant = some maxDateTime
      ∧ validateEventDate vilnius2026 (some lastMoment) = .raised .overflowError
      ∧ ¬ ∃ w, validateEventDate vilnius2026 (some lastMoment) = .accepted (some w)
        ∧ ReadsBack vilnius2026 maxDateTime w := by
  have hraised : validateEventDate vilnius2026 (some lastMoment) = .raised .overflowError := rfl
  refine ⟨spaced_vilnius2026, rfl, hraised, ?_⟩
  rintro ⟨w, haccepted, -⟩
  rw [hraised] at haccepted
  cases haccepted

theorem queryDate_lastMoment : QueryDate lastMoment where
  representable := by decide
  offset_lt := by simp [lastMoment, day]

theorem handled_lastMoment :
    Handled vilnius2026 lastMoment
      ↔ ∀ t ∈ lastMoment.instant, minDateTime ≤ t ∧ t ≤ lastInstant :=
  handled_iff lithuanianTime_vilnius2026 queryDate_lastMoment

theorem lastMoment_overflows :
    QueryDate lastMoment
      ∧ validateEventDate vilnius2026 (some lastMoment) = .raised .overflowError
      ∧ ¬ Handled vilnius2026 lastMoment := by
  refine ⟨queryDate_lastMoment, rfl, ?_⟩
  rw [lastMoment, handled_iff_of_offset]
  decide

end EventsApi
