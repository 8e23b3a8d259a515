import Messq.Property.Stamp
import Messq.Store.Reads

/-! # Paging through the audit trail

A page of the audit trail is a bounded scan in the order of the ids, and the next page begins behind the last row that
was examined. The page ends at its limit, at its scan budget or at the end of the rows; the hard cap of the query never
ends it (`scan_eventQuery`). So the pages lose and repeat nothing (`events_paged`). -/

namespace Messq

open Lib Table

/-! ## Ids -/

/-- The ids begin at 1. -/
def Store.Numbered (st : Store) : Prop := ∀ r ∈ st.events, 0 < r.id

theorem nextEventId_pos (t : Table EventRow.id) : 0 < nextEventId t := Int.lt_add_one_of_le (foldl_max_le _ 0).1

theorem journal_pos {t : Table EventRow.id} (h : ∀ r ∈ t, 0 < r.id) (es : List Event) :
    ∀ r ∈ journal t es, 0 < r.id := by
  induction es using List.reverseRecOn with
  | nil => exact h
  | append_singleton es e ih =>
    intro r hr
    have hrows : (journal t (es ++ [e])).rows = (journal t es).rows ++ [⟨nextEventId (journal t es), e⟩] := by
      rw [journal_append]
      exact rows_insertEvent _ _
    rw [mem_iff, hrows] at hr
    rcases List.mem_append.mp hr with hr | hr
    · exact ih r hr
    · rw [List.mem_singleton.mp hr]
      exact nextEventId_pos _

theorem Runs.numbered {h : List Visit} {b : Broker} (r : Runs h b) : b.store.Numbered := by
  refine r.invariant (C := fun _ _ => True) (I := fun _ b => b.store.Numbered) (fun _ _ _ _ => trivial)
    (fun _ hr => absurd hr List.not_mem_nil) fun h b s ih _ => ?_
  by_cases hk : s.req.kind = .trimming
  · obtain ⟨spec, batch, hreq⟩ := trims_of_kind hk
    exact fun r hr => ih r ((exec_trim hreq).1.subset hr)
  · obtain ⟨es, hes, -⟩ := exec_journal (b := b) hk
    rw [Store.Numbered, hes]
    exact journal_pos ih es

/-! ## The order of the rows -/

/-- The direction of a scan. -/
def EventOrder.Before (o : EventOrder) (a b : EventRow) : Prop :=
  match o with
  | .asc => a.id < b.id
  | .desc => b.id < a.id

instance (o : EventOrder) : DecidableRel o.Before := fun a b =>
  match o with
  | .asc => inferInstanceAs (Decidable (a.id < b.id))
  | .desc => inferInstanceAs (Decidable (b.id < a.id))

section Trail

variable {st : Store} {f : EventFilter} {o : ReadLimits} {l : List EventRow} {a b : EventRow}

theorem EventOrder.Before.asymm {o : EventOrder} (h : o.Before a b) : ¬ o.Before b a := by
  cases o with
  | asc => exact lt_asymm h
  | desc => exact lt_asymm h

theorem EventOrder.sort_filter (o : EventOrder) (hinj : ∀ a ∈ l, ∀ b ∈ l, a.id = b.id → a = b) (p : EventRow → Bool) :
    o.sort (l.filter p) = (o.sort l).filter p := by
  cases o with
  | asc => exact orderBy_filter EventRow.id hinj p
  | desc => exact orderBy_filter (fun r : EventRow => OrderDual.toDual r.id) hinj p

theorem EventOrder.pairwise_sort (o : EventOrder) (hnodup : l.Nodup) (hinj : ∀ a ∈ l, ∀ b ∈ l, a.id = b.id → a = b) :
    (o.sort l).Pairwise o.Before := by
  cases o with
  | asc => exact strict_orderBy EventRow.id hnodup hinj
  | desc => exact strict_orderBy (fun r : EventRow => OrderDual.toDual r.id) hnodup hinj

theorem EventOrder.mem_sort {o : EventOrder} : a ∈ o.sort l ↔ a ∈ l := by
  cases o with
  | asc => exact List.mem_insertionSort _
  | desc => exact List.mem_insertionSort _

/-- A row is behind the cursor that another one hands out if it comes after it. -/
theorem beyond_id (ha : 0 < a.id) : { f with afterId := a.id }.beyond b = decide (f.order.Before a b) := by
  have hneg : decide (a.id ≤ 0) = false := decide_eq_false (not_le.mpr ha)
  unfold EventFilter.beyond EventOrder.Before
  cases ho : f.order with
  | asc => simp only [hneg, Bool.false_or]; rfl
  | desc => simp only [hneg, Bool.false_or]; rfl

/-- What comes after a row behind the cursor is behind the cursor. -/
theorem beyond_of_before (ha : f.beyond a = true) (h : f.order.Before a b) : f.beyond b = true := by
  unfold EventFilter.beyond EventOrder.Before at *
  rw [Bool.or_eq_true, decide_eq_true_iff] at ha ⊢
  refine ha.imp_right fun ha => ?_
  cases ho : f.order with
  | asc =>
    simp only [ho, decide_eq_true_iff] at ha h ⊢
    omega
  | desc =>
    simp only [ho, decide_eq_true_iff] at ha h ⊢
    omega

/-! ## One page -/

/-- The rows that the anchors of the filter select behind its cursor, in the order of the scan. -/
def Store.anchored (st : Store) (f : EventFilter) : List EventRow :=
  f.order.sort (st.events.select fun r => f.anchors r && f.beyond r)

/-- The events that match the filter, in the order of the scan. -/
def Store.trail (st : Store) (f : EventFilter) : List EventRow :=
  f.order.sort (st.events.select fun r => f.anchors r && f.beyond r && f.matches r.event)

theorem id_inj_select {p : EventRow → Bool} : ∀ a ∈ st.events.select p, ∀ b ∈ st.events.select p, a.id = b.id → a = b :=
  fun _ ha _ hb he => eq_of_key (mem_select.mp ha).1 (mem_select.mp hb).1 he

theorem trail_eq (st : Store) (f : EventFilter) : st.trail f = (st.anchored f).filter fun r => f.matches r.event := by
  rw [Store.anchored, ← EventOrder.sort_filter _ id_inj_select, Table.select, List.filter_filter,
    Store.trail, Table.select]
  refine congrArg _ (List.filter_congr fun r _ => ?_)
  rw [Bool.and_comm]

theorem pairwise_anchored (st : Store) (f : EventFilter) : (st.anchored f).Pairwise f.order.Before :=
  EventOrder.pairwise_sort _ st.events.nodup_select id_inj_select

/-- The cursor that a row hands out leaves the rows after it. -/
theorem anchored_behind (hn : st.Numbered) {seen rest : List EventRow} {r : EventRow}
    (h : st.anchored f = seen ++ r :: rest) : st.anchored { f with afterId := r.id } = rest := by
  have hr : r ∈ st.anchored f := by rw [h]; exact List.mem_append_right _ List.mem_cons_self
  obtain ⟨hmem, hsel⟩ := mem_select.mp (EventOrder.mem_sort.mp hr)
  rw [Bool.and_eq_true] at hsel
  have hrest := filter_behind (R := f.order.Before) (fun _ _ hab => hab.asymm) (h ▸ pairwise_anchored st f)
  rw [← h, Store.anchored, ← EventOrder.sort_filter _ id_inj_select, Table.select, List.filter_filter] at hrest
  rw [← hrest]
  refine congrArg _ (List.filter_congr fun x _ => ?_)
  rw [beyond_id (hn r hmem)]
  show (f.anchors x && decide (f.order.Before r x)) = (decide (f.order.Before r x) && (f.anchors x && f.beyond x))
  by_cases hx : f.order.Before r x
  · rw [decide_eq_true hx, beyond_of_before hsel.2 hx, Bool.and_true, Bool.true_and]
  · rw [decide_eq_false hx, Bool.and_false, Bool.false_and]

/-- A bound after clamping. -/
theorem clampLimit_between (requested : ℤ) {ceiling : ℤ} (h : 0 < ceiling) :
    0 < clampLimit requested ceiling ∧ clampLimit requested ceiling ≤ ceiling := by
  unfold clampLimit
  split <;> omega

/-- The ceilings of a store are positive integers of the machine. -/
theorem applyDefaults_between (hq : IsInt64 o.eventQueryMaxLimit) (hb : IsInt64 o.eventScanBudget) :
    (0 < o.applyDefaults.eventQueryMaxLimit ∧ o.applyDefaults.eventQueryMaxLimit < 2 ^ 63) ∧
      0 < o.applyDefaults.eventScanBudget ∧ o.applyDefaults.eventScanBudget < 2 ^ 63 := by
  unfold IsInt64 at hq hb
  unfold ReadLimits.applyDefaults
  constructor
  · dsimp only
    split <;> omega
  · dsimp only
    split <;> omega

variable (st f) in
/-- The hard cap of the query is more than the budget, or wraps around and is none. -/
theorem scan_eventQuery (keep : EventRow → Bool) {limit budget : ℤ} (hl : 0 < limit ∧ limit < 2 ^ 63)
    (hb : 0 < budget ∧ budget < 2 ^ 63) :
    (scan keep limit.toNat budget.toNat (st.eventQuery f (toInt64 (limit + budget)))).Same
      (scan keep limit.toNat budget.toNat (st.anchored f)) := by
  have hcap : toInt64 (limit + budget) < 0 ∨ toInt64 (limit + budget) = limit + budget := by
    unfold toInt64
    rw [Int.bmod_def]
    omega
  rw [Store.eventQuery, sqlLimit]
  rcases hcap with hcap | hcap
  · rw [if_pos hcap]
    exact .refl _
  · rw [hcap, if_neg (by omega)]
    exact scan_take (by omega) _

/-- The cursor that a page hands out. -/
def EventPage.resume (p : EventPage) : Option ℤ := if p.complete then none else some p.nextAfterId

/-- One page is a scan of what the anchors select. -/
theorem eventPage_scan {c : ReadLimits} (hq : 0 < c.eventQueryMaxLimit ∧ c.eventQueryMaxLimit < 2 ^ 63)
    (hb : 0 < c.eventScanBudget ∧ c.eventScanBudget < 2 ^ 63) (f : EventFilter) {s : Scan EventRow}
    (hs : s = scan (fun r => f.matches r.event) (clampLimit f.limit c.eventQueryMaxLimit).toNat
      (clampLimit f.scanBudget c.eventScanBudget).toNat (st.anchored f)) :
    (st.eventPage c f).events = s.taken.map EventRow.event ∧ (st.eventPage c f).resume = s.cursor EventRow.id := by
  have hlimit := clampLimit_between f.limit hq.1
  have hbudget := clampLimit_between f.scanBudget hb.1
  have hsame := scan_eventQuery st f (fun r => f.matches r.event)
    ⟨hlimit.1, hlimit.2.trans_lt hq.2⟩ ⟨hbudget.1, hbudget.2.trans_lt hb.2⟩
  obtain ⟨seen, hd⟩ := scan_done (fun r => f.matches r.event) (clampLimit f.limit c.eventQueryMaxLimit).toNat
    (clampLimit f.scanBudget c.eventScanBudget).toNat (st.anchored f)
  rw [← hs] at hsame hd
  refine ⟨congrArg (List.map EventRow.event) hsame.taken, ?_⟩
  have hcomplete : (st.eventPage c f).complete = !(s.filled || s.bounded) := by
    rw [← hsame.filled, ← hsame.bounded]
    rfl
  have hnext : (st.eventPage c f).nextAfterId =
      if s.filled || s.bounded then (s.last.map EventRow.id).getD 0 else 0 := by
    rw [← hsame.filled, ← hsame.bounded, ← hsame.last]
    rfl
  rw [EventPage.resume, hcomplete, hnext, Scan.cursor]
  cases hstop : s.filled || s.bounded with
  | false => rfl
  | true =>
    -- a scan that stopped has examined a row
    have hne := hd.seen_ne_nil (by omega) (by omega) (Bool.or_eq_true _ _ ▸ hstop)
    rw [hd.last, List.getLast?_eq_some_getLast hne]
    rfl

/-- The pages are scans, and each goes on behind the one before it. -/
theorem scans_events (hn : st.Numbered) (hq : IsInt64 o.eventQueryMaxLimit) (hb : IsInt64 o.eventScanBudget)
    (f : EventFilter) :
    Scans (fun a => some (st.eventPage o.applyDefaults { f with afterId := a })) EventPage.resume EventPage.events
      EventRow.event (fun r => f.matches r.event) (clampLimit f.limit o.applyDefaults.eventQueryMaxLimit).toNat
      (clampLimit f.scanBudget o.applyDefaults.eventScanBudget).toNat (fun a => st.anchored { f with afterId := a })
      EventRow.id fun _ => True := by
  obtain ⟨hq, hb⟩ := applyDefaults_between hq hb
  have hlimit := clampLimit_between f.limit hq.1
  have hbudget := clampLimit_between f.scanBudget hb.1
  refine ⟨by omega, by omega, fun a _ => ⟨_, rfl, ?_⟩, fun a _ seen r rest h _ => ⟨trivial, ?_⟩⟩
  · exact eventPage_scan hq hb { f with afterId := a } rfl
  · exact anchored_behind (f := { f with afterId := a }) hn h

/-- **Events.** From any cursor, following the cursors of the pages comes to a page that is complete. The pages show the
events that match the filter, each once, in the order of the ids; and a page that is complete shows all that is left. -/
theorem events_paged (hn : st.Numbered) (hq : IsInt64 o.eventQueryMaxLimit) (hb : IsInt64 o.eventScanBudget)
    (f : EventFilter) :
    (∃ ps, Walk (fun a => some (st.eventPage o.applyDefaults { f with afterId := a })) EventPage.resume f.afterId ps ∧
      ps.flatMap EventPage.events = (st.trail f).map EventRow.event) ∧
    (st.trail f).Pairwise f.order.Before ∧
    ((st.eventPage o.applyDefaults f).complete = true →
      (st.eventPage o.applyDefaults f).events = (st.trail f).map EventRow.event) := by
  have hscans := scans_events hn hq hb f
  rw [trail_eq]
  refine ⟨?_, (pairwise_anchored st f).filter _, fun hc => ?_⟩
  · refine exists_walk_scan hscans trivial fun _ r hr => ⟨trivial, ?_⟩
    obtain ⟨seen, hseen⟩ := List.getLast?_eq_some_iff.mp hr
    exact anchored_behind hn hseen
  · obtain ⟨p, hp, ⟨-, hitems, -⟩ | ⟨_, _, _, -, hnext, -⟩⟩ := hscans.cases (k := f.afterId) trivial
    · obtain rfl := Option.some.inj hp
      exact hitems
    · obtain rfl := Option.some.inj hp
      have hnone : EventPage.resume (st.eventPage o.applyDefaults f) = none := by rw [EventPage.resume, hc]; rfl
      exact absurd (hnone.symm.trans hnext) nofun

/-- The two publishes of a short life, newest first, a page each. -/
theorem events_paged_two :
    let b := playState (aSetup 2)
    let f : EventFilter := { events := [str "msg.*"], limit := 1, order := .desc }
    ∃ ps, Walk (fun a => some (b.store.eventPage ({} : ReadLimits).applyDefaults { f with afterId := a }))
      EventPage.resume
      0 ps ∧ (ps.flatMap EventPage.events).map (fun e => (e.name, e.seq)) = [(.msgPublish, some 2),
          (.msgPublish, some 1)] := by
  intro b f
  have htrail : (b.store.trail f).map (fun r => (r.event.name, r.event.seq)) =
      [(.msgPublish, some 2), (.msgPublish, some 1)] := by decide +kernel
  have hn : b.store.Numbered := (runs_play _).numbered
  generalize b = b at *
  obtain ⟨⟨ps, hw, hps⟩, -⟩ := events_paged (o := {}) hn (by decide) (by decide) f
  refine ⟨ps, hw, ?_⟩
  rw [hps, ← htrail, List.map_map]
  rfl

end Trail

end Messq
