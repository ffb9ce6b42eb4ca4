import EventsApi.Library.ReadCommitted.TableStep

/-!
# Rows that follow the order of commits

A transaction that locks a row and then computes the new version from the newest one adds its effect
to those of the transactions that committed before it, whatever it read earlier. If every request
changes a table in this way only, the content of a row is what the committed requests make of it, one
after the other in the order of their commits.
-/

namespace ReadCommitted

variable {S : Schema} {Req A : Type}

/-- The requests of the transactions that have committed, the newest first. -/
def performed (request : Txn → Option Req) (trace : List (Entry S)) : List Req :=
  trace.filterMap fun e => if e.event = .committed then request e.txn else none

section Performed

variable {request request' : Txn → Option Req} {trace earlier : List (Entry S)}

theorem performed_cons_of_ne {e : Entry S} (h : e.event ≠ .committed) :
    performed request (e :: earlier) = performed request earlier := by
  simp [performed, h]

theorem performed_commit {t : Txn} {r : Req} (h : request t = some r) (clock : Int) :
    performed request (⟨t, clock, .committed⟩ :: earlier) = r :: performed request earlier := by
  simp [performed, h]

theorem performed_append (later : List (Entry S)) :
    performed request (later ++ earlier) = performed request later ++ performed request earlier :=
  List.filterMap_append

/-- Requests of transactions that did nothing do not matter. -/
theorem performed_congr (h : ∀ e ∈ trace, request' e.txn = request e.txn) :
    performed request' trace = performed request trace := by
  apply List.filterMap_congr
  intro e he
  rw [h e he]

theorem mem_performed {t : Txn} {r : Req} (h : request t = some r)
    (hcommitted : ∃ e ∈ trace, e.txn = t ∧ e.event = .committed) : r ∈ performed request trace := by
  obtain ⟨e, he, rfl, hevent⟩ := hcommitted
  exact List.mem_filterMap.mpr ⟨e, he, by rw [if_pos hevent, h]⟩

end Performed

/-- The record of what was done is extended, and what it says stays. -/
structure RecordGrows (w w' : World S Req) : Prop where
  trace : ∃ new, w'.trace = new ++ w.trace
  request : ∀ e ∈ w.trace, w'.request e.txn = w.request e.txn

namespace RecordGrows

variable {t : Txn} {w w₁ w' : World S Req}

theorem refl (w : World S Req) : RecordGrows w w := ⟨⟨[], rfl⟩, fun _ _ => rfl⟩

theorem trans (h : RecordGrows w w₁) (h' : RecordGrows w₁ w') : RecordGrows w w' where
  trace := by
    obtain ⟨new, hnew⟩ := h.trace
    obtain ⟨new', hnew'⟩ := h'.trace
    exact ⟨new' ++ new, by rw [hnew', hnew, List.append_assoc]⟩
  request e he := by
    obtain ⟨new, hnew⟩ := h.trace
    exact (h'.request e (hnew ▸ List.mem_append_right _ he)).trans (h.request e he)

theorem hasCommitted (h : RecordGrows w w') (hcommitted : w.HasCommitted t) :
    w'.HasCommitted t := by
  obtain ⟨e, he, hown, hevent⟩ := hcommitted
  obtain ⟨new, hnew⟩ := h.trace
  exact ⟨e, hnew ▸ List.mem_append_right _ he, hown, hevent⟩

theorem request_of_hasCommitted (h : RecordGrows w w') (hcommitted : w.HasCommitted t) :
    w'.request t = w.request t := by
  obtain ⟨e, he, rfl, _⟩ := hcommitted
  exact h.request e he

theorem quiet (h : Quiet w w') : RecordGrows w w' where
  trace := ⟨[], h.trace⟩
  request e he := by
    by_contra hne
    exact h.newcomer e.txn hne e he rfl

theorem exec {β : Type} {op : Op S β} {choice : Choice} {answer : β} (hsound : w.Sound)
    (hexec : op.exec t choice w = some (answer, w')) : RecordGrows w w' where
  trace := by
    obtain ⟨new, hnew, _⟩ := (Op.exec_others hsound hexec (Nat.succ_ne_self t)).trace
    exact ⟨new, hnew⟩
  request e _ := congrFun (Op.exec_request hexec) e.txn

end RecordGrows

/-- What a table holds, and what each request makes of it. -/
structure Effects (S : Schema) (Req A : Type) where
  table : S.Table
  content : S.Row table → A
  effect : Req → A → A

namespace Effects

/-- The effects of these requests, the newest first. -/
def replay (E : Effects S Req A) (requests : List Req) (start : A) : A :=
  requests.foldr E.effect start

variable {E : Effects S Req A} {start : Nat → Option A} {t u : Txn} {w w' : World S Req}

/-- The committed rows follow the committed requests, and a row under a lock is one request ahead. -/
structure Follow (E : Effects S Req A) (start : Nat → Option A) (w : World S Req) : Prop where
  stored : ∀ id, (w.slot E.table id).committed.map E.content
    = (start id).map (E.replay (performed w.request w.trace))
  pending : ∀ id t version, (w.slot E.table id).held = some (t, version) →
    ∃ old new request, (w.slot E.table id).committed = some old ∧ version = some new
      ∧ w.request t = some request ∧ E.content new = E.effect request (E.content old)

namespace Follow

theorem initial (h : w.Initial) :
    E.Follow (fun id => (w.slot E.table id).committed.map E.content) w where
  stored id := by
    rw [h.untraced]
    exact Option.map_id_apply.symm
  pending id t version hheld := by
    rw [h.unlocked] at hheld
    cases hheld

/-- A row that was there at the start is there, with what has been made of it. -/
theorem row_of_start (h : E.Follow start w) {id : Nat} {a : A} (hstart : start id = some a) :
    ∃ row, (w.slot E.table id).committed = some row
      ∧ E.content row = E.replay (performed w.request w.trace) a := by
  have hstored := h.stored id
  rw [hstart] at hstored
  exact Option.map_eq_some_iff.mp hstored

/-- No row has come in since. -/
theorem start_of_row (h : E.Follow start w) {id : Nat} {row : S.Row E.table}
    (hrow : (w.slot E.table id).committed = some row) :
    ∃ a, start id = some a ∧ E.content row = E.replay (performed w.request w.trace) a := by
  have hstored := h.stored id
  rw [hrow] at hstored
  obtain ⟨a, ha, heq⟩ := Option.map_eq_some_iff.mp hstored.symm
  exact ⟨a, ha, heq.symm⟩

theorem quiet (h : E.Follow start w) (hquiet : Quiet w w') : E.Follow start w' where
  stored id := by
    rw [hquiet.slot, hquiet.trace, performed_congr (RecordGrows.quiet hquiet).request]
    exact h.stored id
  pending id t version hheld := by
    rw [hquiet.slot] at hheld ⊢
    obtain ⟨old, new, request, hold, hnew, hrequest, hcontent⟩ := h.pending id t version hheld
    exact ⟨old, new, request, hold, hnew, hquiet.request t _ hrequest, hcontent⟩

theorem rollback (h : E.Follow start w) (t : Txn) : E.Follow start (w.finish t false) where
  stored id := by
    have hsame : ((w.finish t false).slot E.table id).committed
        = (w.slot E.table id).committed := Slot.release_false_committed
    rw [hsame]
    exact h.stored id
  pending id u version hheld := by
    obtain ⟨_, hsame⟩ := World.held_of_finish hheld
    rw [hsame] at hheld ⊢
    exact h.pending id u version hheld

theorem note (h : E.Follow start w) {event : Event S} (hevent : event ≠ .committed) :
    E.Follow start (w.note t event) where
  stored id := by
    have hsame : performed w.request ((w.note t event).trace) = performed w.request w.trace :=
      performed_cons_of_ne hevent
    change (w.slot E.table id).committed.map E.content = _
    rw [h.stored id, ← hsame]
    rfl
  pending := h.pending

/-- The new version of a row is the effect on the committed one. -/
theorem write (h : E.Follow start w) {id : Nat} {old new : S.Row E.table} {request : Req}
    (hrequest : w.request t = some request) (hold : (w.slot E.table id).committed = some old)
    (hnew : E.content new = E.effect request (E.content old)) :
    E.Follow start (w.write t E.table id (some new)) where
  stored id' := by
    rw [write_committed]
    exact h.stored id'
  pending id' u version hheld := by
    rw [write_committed]
    by_cases hid : id' = id
    · subst hid
      rw [World.write_slot_self] at hheld
      obtain ⟨rfl, rfl⟩ := Prod.mk.inj (Option.some.inj hheld)
      exact ⟨old, new, request, hold, rfl, hrequest, hnew⟩
    · rw [World.write_slot_of_ne _ fun hsame => hid hsame.2] at hheld
      exact h.pending id' u version hheld

/-- An `UPDATE` of one row: it looks at the newest version under the lock. -/
theorem lock (h : E.Follow start w) {id : Nat} {p : S.Row E.table → Bool}
    {f : S.Row E.table → S.Row E.table} {choice : Choice} {found : Option (S.Row E.table)}
    {request : Req} (hrequest : w.request t = some request)
    (hunlocked : ¬ (w.slot E.table id).HeldBy t)
    (heffect : ∀ row, E.content (if p row then f row else row)
      = E.effect request (E.content row))
    (hexec : (Op.lock E.table id p fun row => some (f row)).exec t choice w = some (found, w')) :
    E.Follow start w' := by
  obtain ⟨_, ⟨_, _, rfl⟩ | ⟨row, hview, hcases⟩⟩ := exec_lock hexec
  · exact h
  · have hcommitted := (Slot.view_eq_committed hunlocked).symm.trans hview
    obtain ⟨hp, _, rfl⟩ | ⟨hp, _, rfl⟩ := hcases
    · have hnew : E.content (f row) = E.effect request (E.content row) := by
        rw [← heffect row, if_pos hp]
      exact (h.write hrequest hcommitted hnew).note (by rintro ⟨⟩)
    · have hsame : E.content row = E.effect request (E.content row) := by
        rw [← heffect row, if_neg (Bool.eq_false_iff.mp hp)]
      exact h.write hrequest hcommitted hsame

/-- A commit adds the effect of its request to every row: those that are not locked are not
concerned. -/
theorem commit (h : E.Follow start w) {request : Req} (hrequest : w.request t = some request)
    (hothers : ∀ id row, (w.slot E.table id).committed = some row →
      ¬ (w.slot E.table id).HeldBy t → E.effect request (E.content row) = E.content row) :
    E.Follow start ((w.finish t true).note t .committed) where
  stored id := by
    have hperformed : performed w.request ((w.finish t true).note t .committed).trace
        = request :: performed w.request w.trace := performed_commit hrequest _
    have hview : (((w.finish t true).note t .committed).slot E.table id).committed
        = (w.slot E.table id).view t := Slot.release_true_committed
    have heffect : ((w.slot E.table id).view t).map E.content
        = ((w.slot E.table id).committed.map E.content).map (E.effect request) := by
      by_cases hheld : (w.slot E.table id).HeldBy t
      · obtain ⟨version, hversion⟩ := hheld
        obtain ⟨old, new, request', hold, rfl, hrequest', hcontent⟩ :=
          h.pending id t version hversion
        cases hrequest.symm.trans hrequest'
        rw [Slot.view_of_held hversion, hold]
        exact congrArg some hcontent
      · rw [Slot.view_eq_committed hheld]
        cases hcommitted : (w.slot E.table id).committed with
        | none => rfl
        | some row => exact congrArg some (hothers id row hcommitted hheld).symm
    change _ = (start id).map (E.replay (performed w.request _))
    calc _ = ((w.slot E.table id).committed.map E.content).map (E.effect request) :=
            (congrArg _ hview).trans heffect
      _ = (start id).map (E.replay (request :: performed w.request w.trace)) := by
            rw [h.stored id, Option.map_map]
            rfl
      _ = _ := by rw [hperformed]
  pending id u version hheld := by
    obtain ⟨_, hsame⟩ := World.held_of_finish hheld
    have hslot : ((w.finish t true).note t .committed).slot E.table id = w.slot E.table id := hsame
    rw [hslot] at hheld ⊢
    exact h.pending id u version hheld

end Follow

variable (E start) in
/-- The discipline of requests that each add their effect. What has been performed stays so. -/
def discipline : Discipline S Req where
  inv := E.Follow start
  rely _ := RecordGrows
  allowed _ _ _ := True
  rely_refl _ := .refl
  rely_trans := .trans
  quiet hquiet h := ⟨h.quiet hquiet, fun _ => .quiet hquiet⟩
  rollback t _ _ h := ⟨h.rollback t, fun _ _ => ⟨⟨[], rfl⟩, fun _ _ => rfl⟩⟩

theorem Follow.keeps {β : Type} {op : Op S β} {choice : Choice} {answer : β}
    (h : E.Follow start w') (hsound : w.Sound) (hexec : op.exec t choice w = some (answer, w')) :
    (E.discipline start).Keeps t w w' :=
  ⟨h, fun _ _ => .exec hsound hexec⟩

end Effects

end ReadCommitted
