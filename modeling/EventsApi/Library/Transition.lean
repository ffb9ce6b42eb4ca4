import Mathlib.Data.List.Infix

/-!
# Labelled transition systems

A system is a partial step function on states and labels. A run is a list of labels, a state is
reachable when some run leads to it, and a side condition on steps restricts the runs considered.
-/

namespace Transition

variable {σ ℓ : Type*} (step : σ → ℓ → Option σ)

/-- The state a run ends in, if every step of it is possible. -/
def run (start : σ) (labels : List ℓ) : Option σ := labels.foldlM step start

/-- States reachable from an initial one by steps that meet the side condition. -/
inductive Reachable (init : σ → Prop) (allowed : σ → ℓ → Prop) : σ → Prop where
  | start {s : σ} : init s → Reachable init allowed s
  | next {s s' : σ} {l : ℓ} : Reachable init allowed s → allowed s l → step s l = some s' →
      Reachable init allowed s'

/-- The side condition that excludes no step. -/
def anyStep (_ : σ) (_ : ℓ) : Prop := True

variable {step} {init : σ → Prop} {allowed : σ → ℓ → Prop}

/-- **Induction over runs.** What holds initially and survives every step holds in every reachable
state. -/
theorem Reachable.invariant {inv : σ → Prop} (hinit : ∀ s, init s → inv s)
    (hstep : ∀ s l s', inv s → allowed s l → step s l = some s' → inv s') {s : σ}
    (h : Reachable step init allowed s) : inv s := by
  induction h with
  | start hs => exact hinit _ hs
  | next _ hallowed hs ih => exact hstep _ _ _ ih hallowed hs

theorem Reachable.invariant_of (fact : σ → Prop) {inv : σ → Prop}
    (hfact : ∀ {s}, Reachable step init allowed s → fact s) (hinit : ∀ s, init s → inv s)
    (hstep : ∀ s l s', fact s → inv s → allowed s l → step s l = some s' → inv s') {s : σ}
    (h : Reachable step init allowed s) : inv s := by
  induction h with
  | start hs => exact hinit _ hs
  | next hr hallowed hs ih => exact hstep _ _ _ (hfact hr) ih hallowed hs

theorem Reachable.trans {s s' : σ} (h : Reachable step init allowed s)
    (h' : Reachable step (· = s) allowed s') : Reachable step init allowed s' := by
  induction h' with
  | start hs => exact hs ▸ h
  | next _ hallowed hs ih => exact .next ih hallowed hs

theorem Reachable.mono {wider : σ → ℓ → Prop} (hle : ∀ s l, allowed s l → wider s l) {s : σ}
    (h : Reachable step init allowed s) : Reachable step init wider s := by
  induction h with
  | start hs => exact .start hs
  | next _ hallowed hs ih => exact .next ih (hle _ _ hallowed) hs

/-- What every reachable state hands on to the next lasts for the rest of the run. -/
theorem Reachable.lasts {P : σ → Prop} (hstep : ∀ s l s', Reachable step init anyStep s → P s →
    step s l = some s' → P s') {s s' : σ} (h : Reachable step init anyStep s) (hP : P s)
    (labels : List ℓ) (hrun : run step s labels = some s') : P s' := by
  induction labels generalizing s with
  | nil =>
      cases hrun
      exact hP
  | cons l labels ih =>
      obtain ⟨t, ht, hrest⟩ := Option.bind_eq_some_iff.mp hrun
      exact ih (h.next trivial ht) (hstep s l t h hP ht) hrest

theorem run_append (start : σ) (first second : List ℓ) :
    run step start (first ++ second) = (run step start first).bind (run step · second) := by
  simp [run, List.foldlM_append]

theorem run_concat (start : σ) (labels : List ℓ) (l : ℓ) :
    run step start (labels ++ [l]) = (run step start labels).bind (step · l) := by
  rw [run_append]
  congr 1
  funext s
  simp [run]

theorem reachable_of_run {start : σ} (hstart : init start) (labels : List ℓ)
    (hallowed : ∀ before l s s', before ++ [l] <+: labels → run step start before = some s →
      step s l = some s' → allowed s l) {s : σ} (h : run step start labels = some s) :
    Reachable step init allowed s := by
  induction labels using List.reverseRecOn generalizing s with
  | nil =>
      cases h
      exact .start hstart
  | append_singleton labels l ih =>
      rw [run_concat, Option.bind_eq_some_iff] at h
      obtain ⟨t, ht, hs⟩ := h
      refine .next (ih (fun before l' u u' hpre => ?_) ht)
        (hallowed labels l t s List.prefix_rfl ht hs) hs
      exact hallowed before l' u u' (hpre.trans (List.prefix_append _ _))

/-- The steps that meet the side condition, so that a run of them can be computed. -/
def guarded (step : σ → ℓ → Option σ) (allowed : σ → ℓ → Prop) [∀ s l, Decidable (allowed s l)]
    (s : σ) (l : ℓ) : Option σ :=
  if allowed s l then step s l else none

theorem reachable_of_guarded_run [∀ s l, Decidable (allowed s l)] {start : σ} (hstart : init start)
    (labels : List ℓ) {s : σ} (h : run (guarded step allowed) start labels = some s) :
    Reachable step init allowed s := by
  induction labels using List.reverseRecOn generalizing s with
  | nil =>
      cases h
      exact .start hstart
  | append_singleton labels l ih =>
      rw [run_concat, Option.bind_eq_some_iff] at h
      obtain ⟨t, ht, hs⟩ := h
      unfold guarded at hs
      split at hs
      · exact .next (ih ht) ‹_› hs
      · cases hs

/-! ### Histories

A note is what an observer writes down of a step, at most one entry each. A history lists the notes of
a run, most recent first. -/

section History

variable {ε : Type*} {note : σ → ℓ → Option ε}

/-- A run leads to the state and leaves the history. -/
inductive Recorded (step : σ → ℓ → Option σ) (note : σ → ℓ → Option ε) (init : σ → Prop)
    (allowed : σ → ℓ → Prop) : σ → List ε → Prop where
  | start {s : σ} : init s → Recorded step note init allowed s []
  | next {s s' : σ} {history : List ε} {l : ℓ} : Recorded step note init allowed s history →
      allowed s l → step s l = some s' →
      Recorded step note init allowed s' ((note s l).toList ++ history)

theorem Recorded.reachable {s : σ} {history : List ε}
    (h : Recorded step note init allowed s history) : Reachable step init allowed s := by
  induction h with
  | start hs => exact .start hs
  | next _ hallowed hs ih => exact .next ih hallowed hs

theorem Recorded.invariant_of (fact : σ → Prop) {inv : σ → List ε → Prop}
    (hfact : ∀ {s}, Reachable step init allowed s → fact s) (hinit : ∀ s, init s → inv s [])
    (hstep : ∀ s l s' history, fact s → inv s history → allowed s l → step s l = some s' →
      inv s' ((note s l).toList ++ history)) {s : σ} {history : List ε}
    (h : Recorded step note init allowed s history) : inv s history := by
  induction h with
  | start hs => exact hinit _ hs
  | next hr hallowed hs ih => exact hstep _ _ _ _ (hfact hr.reachable) ih hallowed hs

/-- **Every entry was written by a step**, from a state that had the older entries as its
history. -/
theorem Recorded.split {s : σ} {later earlier : List ε} {entry : ε}
    (h : Recorded step note init allowed s (later ++ entry :: earlier)) :
    ∃ before l after, Recorded step note init allowed before earlier ∧ allowed before l
      ∧ step before l = some after ∧ note before l = some entry := by
  generalize hhistory : later ++ entry :: earlier = history at h
  induction h generalizing later with
  | start => simp at hhistory
  | @next before after history l hr hallowed hs ih =>
      cases hnote : note before l with
      | none =>
          rw [hnote] at hhistory
          exact ih hhistory
      | some written =>
          rw [hnote] at hhistory
          cases later with
          | nil =>
              obtain ⟨rfl, rfl⟩ := List.cons.inj hhistory
              exact ⟨before, l, after, hr, hallowed, hs, hnote⟩
          | cons last later => exact ih (List.cons.inj hhistory).2

/-- The state and the history a run ends in. -/
def recordedRun (step : σ → ℓ → Option σ) (note : σ → ℓ → Option ε) (start : σ)
    (labels : List ℓ) : Option (σ × List ε) :=
  labels.foldlM (fun s l => (step s.1 l).map fun next => (next, (note s.1 l).toList ++ s.2))
    (start, [])

theorem recorded_of_recordedRun {start : σ} (hstart : init start) (labels : List ℓ) {s : σ}
    {history : List ε} (h : recordedRun step note start labels = some (s, history)) :
    Recorded step note init anyStep s history := by
  induction labels using List.reverseRecOn generalizing s history with
  | nil =>
      cases h
      exact .start hstart
  | append_singleton labels l ih =>
      rw [recordedRun, List.foldlM_append] at h
      obtain ⟨⟨t, older⟩, ht, hs⟩ := Option.bind_eq_some_iff.mp h
      rw [List.foldlM_cons] at hs
      obtain ⟨u, hu, hlast⟩ := Option.bind_eq_some_iff.mp hs
      obtain ⟨next, hnext, rfl⟩ := Option.map_eq_some_iff.mp hu
      cases hlast
      exact .next (ih ht) trivial hnext

end History

end Transition
