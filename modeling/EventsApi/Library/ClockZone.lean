import Mathlib.Algebra.Order.Group.Int
import Mathlib.Data.List.Pairwise

/-!
# Time zones as lists of clock changes

An instant and a wall-clock reading are both counts of microseconds, the first on the UTC clock, the
second on the local one. A zone starts with one offset and changes it at a list of instants. Reading
the local clock at an instant is a function; going back is a choice, since a forward change skips
readings and a backward change repeats them.
-/

namespace ClockZone

def day : Int := 86400000000

/-- The calendar day a reading lies on. -/
def dayOf (w : Int) : Int := w / day

/-- The first moment of the calendar day a reading lies on. -/
def midnight (w : Int) : Int := dayOf w * day

/-- From `instant` on, the local clock is `offset` ahead of UTC. -/
structure Change where
  instant : Int
  offset : Int

structure Zone where
  initial : Int
  changes : List Change
  ordered : changes.Pairwise fun earlier later => earlier.instant < later.instant

/-- A clock that is never changed. -/
def Zone.fixed (offset : Int) : Zone where
  initial := offset
  changes := []
  ordered := .nil

def offsetFrom (offset : Int) : List Change → Int → Int
  | [], _ => offset
  | change :: changes, t => if t < change.instant then offset else offsetFrom change.offset changes t

/-- The reading taken at a wall-clock value: the offset before a skipped period, the offset after a
repeated one. In both cases the later offset takes over at the reading the change jumps to. -/
def instantFrom (offset : Int) : List Change → Int → Int
  | [], w => w - offset
  | change :: changes, w =>
      if w < change.instant + change.offset then w - offset
      else instantFrom change.offset changes w

def Zone.toLocal (zone : Zone) (t : Int) : Int :=
  t + offsetFrom zone.initial zone.changes t

def Zone.instantOf (zone : Zone) (w : Int) : Int :=
  instantFrom zone.initial zone.changes w

/-- No backward change crosses midnight: the last moment before it and the first moment after it lie
on one calendar day. -/
def BackwardWithinDayFrom (offset : Int) : List Change → Prop
  | [] => True
  | change :: changes =>
      (change.offset < offset →
        dayOf (change.instant - 1 + offset) = dayOf (change.instant + change.offset)) ∧
      BackwardWithinDayFrom change.offset changes

def Zone.BackwardWithinDay (zone : Zone) : Prop :=
  BackwardWithinDayFrom zone.initial zone.changes

/-- Each change is further from the next one than either of them moves the clock. -/
def SpacedFrom (offset : Int) : List Change → Prop
  | [] => True
  | [_] => True
  | change :: next :: changes =>
      (change.offset - offset).natAbs < next.instant - change.instant ∧
      (next.offset - change.offset).natAbs < next.instant - change.instant ∧
      SpacedFrom change.offset (next :: changes)

def Zone.Spaced (zone : Zone) : Prop :=
  SpacedFrom zone.initial zone.changes

/-- Each change is further from the next one than both together move the clock. -/
def ApartFrom (offset : Int) : List Change → Prop
  | [] => True
  | [_] => True
  | change :: next :: changes =>
      (change.offset - offset).natAbs + (next.offset - change.offset).natAbs
        < next.instant - change.instant ∧
      ApartFrom change.offset (next :: changes)

def Zone.Apart (zone : Zone) : Prop :=
  ApartFrom zone.initial zone.changes

/-- The reading shown at the instant will be shown again: a backward change is about to repeat it. -/
def Zone.FirstPass (zone : Zone) (t : Int) : Prop :=
  ∃ later, t < later ∧ zone.toLocal later = zone.toLocal t

/-- A forward change jumps over the reading: the local clock never shows it. -/
def Zone.Skipped (zone : Zone) (w : Int) : Prop :=
  ∀ t, zone.toLocal t ≠ w

theorem dayOf_mono {w w' : Int} (h : w ≤ w') : dayOf w ≤ dayOf w' :=
  Int.ediv_le_ediv (by decide) h

theorem lt_midnight_iff {w now : Int} : w < midnight now ↔ dayOf w < dayOf now := by
  rw [midnight, dayOf, dayOf, Int.ediv_lt_iff_lt_mul (by decide)]

theorem lt_midnight_add_day_iff {w now : Int} : now < midnight w + day ↔ dayOf now ≤ dayOf w := by
  have hnext : midnight w + day = (dayOf w + 1) * day := by rw [midnight, Int.add_mul, Int.one_mul]
  rw [hnext, dayOf, ← Int.ediv_lt_iff_lt_mul (by decide), ← dayOf, Int.lt_add_one_iff]

theorem offsetFrom_of_lt {offset : Int} {changes : List Change} {t : Int}
    (h : ∀ change ∈ changes, t < change.instant) : offsetFrom offset changes t = offset := by
  cases changes with
  | nil => rfl
  | cons change changes => rw [offsetFrom, if_pos (h change List.mem_cons_self)]

/-- **The local date never goes back.** Between clock changes the local clock runs with UTC, a
forward change only adds to it, and a backward change stays on its day. -/
theorem dayOf_localFrom_mono {offset : Int} {changes : List Change}
    (hordered : changes.Pairwise fun earlier later => earlier.instant < later.instant)
    (hback : BackwardWithinDayFrom offset changes) {t t' : Int} (h : t ≤ t') :
    dayOf (t + offsetFrom offset changes t) ≤ dayOf (t' + offsetFrom offset changes t') := by
  induction changes generalizing offset t with
  | nil => exact dayOf_mono (by simp only [offsetFrom]; omega)
  | cons change changes ih =>
      obtain ⟨hlater, hordered⟩ := List.pairwise_cons.mp hordered
      obtain ⟨hcross, hback⟩ := hback
      simp only [offsetFrom]
      by_cases ht' : t' < change.instant
      · rw [if_pos (by omega), if_pos ht']
        exact dayOf_mono (by omega)
      rw [if_neg ht']
      by_cases ht : t < change.instant
      · rw [if_pos ht]
        have hopen : dayOf (change.instant + change.offset)
            ≤ dayOf (t' + offsetFrom change.offset changes t') := by
          have := ih hordered hback (t := change.instant) (by omega)
          rwa [offsetFrom_of_lt hlater] at this
        refine le_trans ?_ hopen
        by_cases hbackward : change.offset < offset
        · rw [← hcross hbackward]
          exact dayOf_mono (by omega)
        · exact dayOf_mono (by omega)
      · rw [if_neg ht]
        exact ih hordered hback h

theorem Zone.dayOf_toLocal_mono {zone : Zone} (hback : zone.BackwardWithinDay) {t t' : Int}
    (h : t ≤ t') : dayOf (zone.toLocal t) ≤ dayOf (zone.toLocal t') :=
  dayOf_localFrom_mono zone.ordered hback h

theorem SpacedFrom.tail {offset : Int} {change : Change} {changes : List Change}
    (h : SpacedFrom offset (change :: changes)) : SpacedFrom change.offset changes := by
  cases changes with
  | nil => trivial
  | cons next changes => exact h.2.2

/-- Within its own shift of a change, the clock has not reached the following one. -/
theorem SpacedFrom.lt_instant {offset : Int} {change : Change} {changes : List Change}
    (hordered : changes.Pairwise fun earlier later => earlier.instant < later.instant)
    (hspaced : SpacedFrom offset (change :: changes)) {t : Int}
    (ht : t < change.instant + (offset - change.offset)) :
    ∀ next ∈ changes, t < next.instant := by
  cases changes with
  | nil => simp
  | cons next changes =>
      have hfirst : t < next.instant := by
        have := hspaced.1
        omega
      intro later hlater
      obtain rfl | hlater := List.mem_cons.mp hlater
      · exact hfirst
      · exact hfirst.trans ((List.pairwise_cons.mp hordered).1 later hlater)

/-- After a change the local clock never goes back behind the reading it jumped to. -/
theorem le_localFrom {offset : Int} {change : Change} {changes : List Change}
    (hspaced : SpacedFrom offset (change :: changes)) {t : Int} (ht : change.instant ≤ t) :
    change.instant + change.offset ≤ t + offsetFrom change.offset changes t := by
  induction changes generalizing offset change with
  | nil => simp only [offsetFrom]; omega
  | cons next changes ih =>
      rw [offsetFrom]
      split
      · omega
      · have hnext := ih hspaced.tail (by omega)
        have hgap := hspaced.2.1
        omega

theorem le_instantFrom {offset : Int} {changes : List Change}
    (hordered : changes.Pairwise fun earlier later => earlier.instant < later.instant)
    {t w : Int} (hbefore : ∀ change ∈ changes, t < change.instant) (h : t + offset ≤ w) :
    t ≤ instantFrom offset changes w := by
  induction changes generalizing offset t with
  | nil => simp only [instantFrom]; omega
  | cons change changes ih =>
      obtain ⟨hlater, hordered⟩ := List.pairwise_cons.mp hordered
      rw [instantFrom]
      split
      · omega
      · exact (hbefore change List.mem_cons_self).le.trans (ih hordered hlater (by omega))

/-- A reading shown at some instant is also shown by a clock that made the first change early. -/
theorem exists_localFrom_tail {offset : Int} {change : Change} {changes : List Change}
    (hordered : changes.Pairwise fun earlier later => earlier.instant < later.instant)
    (hspaced : SpacedFrom offset (change :: changes)) (t : Int) :
    ∃ u, u + offsetFrom change.offset changes u
      = t + offsetFrom offset (change :: changes) t := by
  by_cases ht : t < change.instant
  · have hlocal : offsetFrom offset (change :: changes) t = offset := by
      rw [offsetFrom, if_pos ht]
    rw [hlocal]
    refine ⟨t + offset - change.offset, ?_⟩
    rw [offsetFrom_of_lt (hspaced.lt_instant hordered (by omega))]
    omega
  · exact ⟨t, by rw [offsetFrom, if_neg ht]⟩

/-- **Instants and readings are ordered alike**, for an instant whose reading does not come again
and a reading the clock does show. The induction is on the changes; the head change splits both
lines in two, and only the pieces that cross need the two exclusions. -/
theorem lt_instantFrom_iff {offset : Int} {changes : List Change}
    (hordered : changes.Pairwise fun earlier later => earlier.instant < later.instant)
    (hspaced : SpacedFrom offset changes) {t w : Int}
    (hpass : ∀ later, t < later →
      later + offsetFrom offset changes later ≠ t + offsetFrom offset changes t)
    (hshown : ∃ u, u + offsetFrom offset changes u = w) :
    t < instantFrom offset changes w ↔ t + offsetFrom offset changes t < w := by
  induction changes generalizing offset with
  | nil => simp only [instantFrom, offsetFrom]; omega
  | cons change changes ih =>
      obtain ⟨hlater, hordered⟩ := List.pairwise_cons.mp hordered
      obtain ⟨u, rfl⟩ := hshown
      by_cases hw : u + offsetFrom offset (change :: changes) u < change.instant + change.offset
      · rw [instantFrom, if_pos hw]
        have hu : u < change.instant := by
          by_contra hu
          rw [offsetFrom, if_neg hu] at hw
          have := le_localFrom hspaced (t := u) (by omega)
          omega
        rw [offsetFrom, if_pos hu] at hw ⊢
        by_cases ht : t < change.instant
        · rw [offsetFrom, if_pos ht]
          omega
        · rw [offsetFrom, if_neg ht]
          have := le_localFrom hspaced (t := t) (by omega)
          omega
      · have hopen := le_instantFrom hordered hlater (not_lt.mp hw)
        obtain ⟨v, hv⟩ := exists_localFrom_tail hordered hspaced u
        rw [instantFrom, if_neg hw]
        by_cases ht : t < change.instant
        · refine iff_of_true (by omega) ?_
          -- otherwise the backward change shows the reading of `t` a second time
          by_contra hreached
          have hlocal : t + offsetFrom offset (change :: changes) t = t + offset := by
            rw [offsetFrom, if_pos ht]
          apply hpass (t + offset - change.offset) (by omega)
          rw [hlocal, offsetFrom, if_neg (by omega),
            offsetFrom_of_lt (hspaced.lt_instant hordered (by omega))]
          omega
        · have hlocal : ∀ s, change.instant ≤ s → offsetFrom offset (change :: changes) s
              = offsetFrom change.offset changes s := fun s hs => by
            rw [offsetFrom, if_neg (by omega)]
          rw [hlocal t (by omega)] at hpass ⊢
          apply ih hordered hspaced.tail (fun later hlt => ?_) ⟨v, hv⟩
          rw [← hlocal later (by omega)]
          exact hpass later hlt

theorem Zone.lt_instantOf_iff {zone : Zone} (hspaced : zone.Spaced) {t w : Int}
    (hpass : ¬ zone.FirstPass t) (hshown : ¬ zone.Skipped w) :
    t < zone.instantOf w ↔ zone.toLocal t < w := by
  apply lt_instantFrom_iff zone.ordered hspaced
  · intro later hlater heq
    exact hpass ⟨later, hlater, heq⟩
  · unfold Zone.Skipped at hshown
    push Not at hshown
    exact hshown

/-! ### There and back

A reading that the clock shows is read as the last instant that shows it. -/

theorem localFrom_instantFrom {offset : Int} {changes : List Change}
    (hordered : changes.Pairwise fun earlier later => earlier.instant < later.instant)
    (hspaced : SpacedFrom offset changes) {w : Int}
    (hshown : ∃ u, u + offsetFrom offset changes u = w) :
    instantFrom offset changes w + offsetFrom offset changes (instantFrom offset changes w) = w := by
  induction changes generalizing offset with
  | nil => simp only [instantFrom, offsetFrom]; omega
  | cons change changes ih =>
      obtain ⟨hlater, hordered⟩ := List.pairwise_cons.mp hordered
      obtain ⟨u, hu⟩ := hshown
      by_cases hw : w < change.instant + change.offset
      · have hbefore : u < change.instant := by
          by_contra hafter
          rw [offsetFrom, if_neg hafter] at hu
          have := le_localFrom hspaced (t := u) (by omega)
          omega
        rw [offsetFrom, if_pos hbefore] at hu
        rw [instantFrom, if_pos hw, offsetFrom, if_pos (by omega)]
        omega
      · have hopen := le_instantFrom hordered hlater (not_lt.mp hw)
        obtain ⟨v, hv⟩ := exists_localFrom_tail hordered hspaced u
        rw [instantFrom, if_neg hw, offsetFrom, if_neg (by omega)]
        exact ih hordered hspaced.tail ⟨v, hv.trans hu⟩

theorem le_instantFrom_localFrom {offset : Int} {changes : List Change}
    (hordered : changes.Pairwise fun earlier later => earlier.instant < later.instant)
    (hspaced : SpacedFrom offset changes) (t : Int) :
    t ≤ instantFrom offset changes (t + offsetFrom offset changes t) := by
  induction changes generalizing offset with
  | nil => simp only [instantFrom, offsetFrom]; omega
  | cons change changes ih =>
      obtain ⟨hlater, hordered⟩ := List.pairwise_cons.mp hordered
      by_cases ht : t < change.instant
      · rw [offsetFrom, if_pos ht, instantFrom]
        split
        · omega
        · exact ht.le.trans (le_instantFrom hordered hlater (by omega))
      · have hjumped := le_localFrom hspaced (t := t) (by omega)
        rw [offsetFrom, if_neg ht, instantFrom, if_neg (by omega)]
        exact ih hordered hspaced.tail

/-- No reading comes a third time: by the second change the clock is past what the first one
repeats. -/
theorem localFrom_no_third {offset : Int} {changes : List Change}
    (hspaced : SpacedFrom offset changes) (hapart : ApartFrom offset changes) {t later last : Int}
    (hlater : t < later) (hlast : later < last)
    (hagain : later + offsetFrom offset changes later = t + offsetFrom offset changes t) :
    last + offsetFrom offset changes last ≠ t + offsetFrom offset changes t := by
  induction changes generalizing offset with
  | nil => simp only [offsetFrom]; omega
  | cons change changes ih =>
      have hafter : ∀ s, change.instant ≤ s → offsetFrom offset (change :: changes) s
          = offsetFrom change.offset changes s := fun s hs => by
        rw [offsetFrom, if_neg (by omega)]
      have hbefore : ∀ s, s < change.instant → offsetFrom offset (change :: changes) s = offset :=
        fun s hs => by rw [offsetFrom, if_pos hs]
      by_cases hstart : change.instant ≤ t
      · rw [hafter last (by omega), hafter t hstart]
        rw [hafter later (by omega), hafter t hstart] at hagain
        have hapart : ApartFrom change.offset changes := by
          cases changes with
          | nil => trivial
          | cons next changes => exact hapart.2
        exact ih hspaced.tail hapart hagain
      · have hcrossed : change.instant ≤ later := by
          by_contra hcrossed
          rw [hbefore later (by omega), hbefore t (by omega)] at hagain
          omega
        rw [hbefore t (by omega)] at hagain ⊢
        rw [hafter later hcrossed] at hagain
        rw [hafter last (by omega)]
        cases changes with
        | nil =>
            simp only [offsetFrom] at hagain ⊢
            omega
        | cons next changes =>
            obtain ⟨hgap, _⟩ := hapart
            by_cases hnext : next.instant ≤ last
            · have hjumped := le_localFrom hspaced.tail hnext
              rw [offsetFrom, if_neg (by omega)]
              omega
            · rw [offsetFrom, if_pos (by omega)] at hagain ⊢
              omega

theorem Zone.toLocal_instantOf {zone : Zone} (hspaced : zone.Spaced) (t : Int) :
    zone.toLocal (zone.instantOf (zone.toLocal t)) = zone.toLocal t :=
  localFrom_instantFrom zone.ordered hspaced ⟨t, rfl⟩

/-- No later instant shows the same reading. -/
theorem Zone.le_instantOf {zone : Zone} (hspaced : zone.Spaced) {t later : Int}
    (h : zone.toLocal later = zone.toLocal t) : later ≤ zone.instantOf (zone.toLocal t) := by
  rw [← h]
  exact le_instantFrom_localFrom zone.ordered hspaced later

/-- **A reading that does not come again is read back as its instant.** -/
theorem Zone.instantOf_toLocal {zone : Zone} (hspaced : zone.Spaced) {t : Int}
    (hpass : ¬ zone.FirstPass t) : zone.instantOf (zone.toLocal t) = t := by
  by_contra hne
  have hle : t ≤ zone.instantOf (zone.toLocal t) := Zone.le_instantOf hspaced rfl
  exact hpass ⟨_, by omega, Zone.toLocal_instantOf hspaced t⟩

/-- **A reading that comes again is read back as its last instant.** -/
theorem Zone.lt_instantOf_of_firstPass {zone : Zone} (hspaced : zone.Spaced) {t : Int}
    (hpass : zone.FirstPass t) : t < zone.instantOf (zone.toLocal t) := by
  obtain ⟨later, hlater, heq⟩ := hpass
  exact hlater.trans_le (Zone.le_instantOf hspaced heq)

/-- Where repeated periods do not meet, there is no third pass. -/
theorem Zone.eq_instantOf_of_apart {zone : Zone} (hspaced : zone.Spaced) (hapart : zone.Apart)
    {t later : Int} (hlater : t < later) (h : zone.toLocal later = zone.toLocal t) :
    later = zone.instantOf (zone.toLocal t) := by
  by_contra hne
  have hle := Zone.le_instantOf hspaced h
  exact localFrom_no_third hspaced hapart hlater (by omega) h (Zone.toLocal_instantOf hspaced t)

end ClockZone
