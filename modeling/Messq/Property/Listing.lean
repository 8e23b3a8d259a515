import Messq.Property.Chronicle
import Messq.Store.Reads

/-! # Paging through the messages of a stream

A page of a listing is a bounded scan in the order of the numbers. A reader goes on behind the last message of a full
page, or behind the last row examined when the page says that it is not complete. Two things end that badly:

- The start 0 means the natural start, so a reader who is told to go on below the number 1 starts anew, for ever.
- The limit for pages with bodies is a tenth of the configured one, which can be 0. Such a page holds whatever the scan
  finds, and says that it is complete.

In all other cases the pages show every message that matches once (`listing_paged_iff`). -/

namespace Messq

open Lib Table

/-! ## The order of the rows -/

/-- The direction of a listing. -/
def ListQuery.Before (q : ListQuery) (a b : MessageRow) : Prop := if q.desc then b.seq < a.seq else a.seq < b.seq

instance (q : ListQuery) : DecidableRel q.Before := fun a b =>
  inferInstanceAs (Decidable (if q.desc then b.seq < a.seq else a.seq < b.seq))

/-- The start of the next page, behind a row. -/
def ListQuery.after (q : ListQuery) (r : MessageRow) : ℤ := if q.desc then r.seq - 1 else r.seq + 1

/-- The rows that a listing examines: those from its start on that a literal subject does not rule out. -/
def Store.examined (st : Store) (q : ListQuery) : List MessageRow :=
  q.orderBy ((st.messagesOf q.stream).filter fun m => q.fromClause m && q.literalClause m)

section Listing

variable {st : Store} {q : ListQuery} {o : ReadLimits} {keep : MessageRow → Bool} {l : List MessageRow}
  {a b : MessageRow}

theorem ListQuery.Before.asymm (h : q.Before a b) : ¬ q.Before b a := by
  unfold ListQuery.Before at *
  split at h
  · rename_i hd
    rw [if_pos hd]
    exact lt_asymm h
  · rename_i hd
    rw [if_neg hd]
    exact lt_asymm h

theorem ListQuery.orderBy_filter (hinj : ∀ a ∈ l, ∀ b ∈ l, a.seq = b.seq → a = b) (p : MessageRow → Bool) :
    q.orderBy (l.filter p) = (q.orderBy l).filter p := by
  unfold ListQuery.orderBy
  split
  · exact Table.orderBy_filter (fun m : MessageRow => OrderDual.toDual m.seq) hinj p
  · exact Table.orderBy_filter MessageRow.seq hinj p

theorem ListQuery.pairwise_orderBy (hnodup : l.Nodup) (hinj : ∀ a ∈ l, ∀ b ∈ l, a.seq = b.seq → a = b) :
    (q.orderBy l).Pairwise q.Before := by
  unfold ListQuery.orderBy ListQuery.Before
  split
  · exact strict_orderBy (fun m : MessageRow => OrderDual.toDual m.seq) hnodup hinj
  · exact strict_orderBy MessageRow.seq hnodup hinj

theorem ListQuery.perm_orderBy (q : ListQuery) (l : List MessageRow) : (q.orderBy l).Perm l := by
  unfold ListQuery.orderBy
  split
  · exact List.perm_insertionSort _ _
  · exact List.perm_insertionSort _ _

theorem seq_inj_filter {s : Bytes} {p : MessageRow → Bool} : ∀ a ∈ (st.messagesOf s).filter p,
    ∀ b ∈ (st.messagesOf s).filter p, a.seq = b.seq → a = b :=
  fun _ ha _ hb he => seq_inj_messagesOf (List.mem_of_mem_filter ha) (List.mem_of_mem_filter hb) he

theorem pairwise_examined (st : Store) (q : ListQuery) : (st.examined q).Pairwise q.Before :=
  ListQuery.pairwise_orderBy (st.messages.nodup_select.filter _) seq_inj_filter

theorem mem_examined : a ∈ st.examined q ↔ a ∈ st.messagesOf q.stream ∧ q.fromClause a = true ∧
    q.literalClause a = true := by
  rw [Store.examined, (q.perm_orderBy _).mem_iff, List.mem_filter, Bool.and_eq_true]

/-- A row is behind the start that another one gives if it comes after it. -/
theorem fromClause_after (ha : 0 < q.after a) :
    { q with fromSeq := q.after a }.fromClause b = decide (q.Before a b) := by
  have hneg : decide (q.after a ≤ 0) = false := decide_eq_false (not_le.mpr ha)
  simp only [ListQuery.fromClause, hneg, Bool.false_or]
  show (if q.desc = true then decide (b.seq ≤ q.after a) else decide (q.after a ≤ b.seq)) = decide (q.Before a b)
  unfold ListQuery.after ListQuery.Before
  split
  · exact decide_eq_decide.mpr Int.le_sub_one_iff
  · exact decide_eq_decide.mpr Int.add_one_le_iff

/-- What comes after a row from the start on is from the start on. -/
theorem fromClause_of_before (ha : q.fromClause a = true) (h : q.Before a b) : q.fromClause b = true := by
  unfold ListQuery.fromClause ListQuery.Before at *
  rw [Bool.or_eq_true, decide_eq_true_iff] at ha ⊢
  refine ha.imp_right fun ha => ?_
  split at h
  · rename_i hd
    rw [if_pos hd, decide_eq_true_iff] at ha ⊢
    omega
  · rename_i hd
    rw [if_neg hd, decide_eq_true_iff] at ha ⊢
    omega

/-- The start that a row gives leaves the rows after it. -/
theorem examined_after {seen rest : List MessageRow} {r : MessageRow} (h : st.examined q = seen ++ r :: rest)
    (hr : 0 < q.after r) : st.examined { q with fromSeq := q.after r } = rest := by
  have hmem : r ∈ st.examined q := by rw [h]; exact List.mem_append_right _ List.mem_cons_self
  obtain ⟨-, hfrom, -⟩ := mem_examined.mp hmem
  have hrest := filter_behind (R := q.Before) (fun _ _ hab => hab.asymm) (h ▸ pairwise_examined st q)
  rw [← h, Store.examined, ← ListQuery.orderBy_filter seq_inj_filter, List.filter_filter] at hrest
  rw [← hrest]
  show q.orderBy _ = q.orderBy _
  refine congrArg _ (List.filter_congr fun x _ => ?_)
  rw [fromClause_after hr]
  show (decide (q.Before r x) && q.literalClause x) = (decide (q.Before r x) && (q.fromClause x && q.literalClause x))
  by_cases hx : q.Before r x
  · rw [fromClause_of_before hfrom hx, Bool.true_and]
  · rw [decide_eq_false hx, Bool.false_and, Bool.false_and]

/-! ## One page -/

/-- The start that a page gives to its reader: behind the last message of a full page, or behind the last row
examined. -/
def Page.resume (desc : Bool) (p : Page) : Option ℤ :=
  if (p.messages.length : ℤ) ≥ p.limit then p.messages.getLast?.map fun m => if desc then m.seq - 1 else m.seq + 1
  else if p.complete then none
  else some (if desc then p.scannedToSeq - 1 else p.scannedToSeq + 1)

/-- Following the pages from the natural start on comes to an end and shows the messages that match, each once; and no
page holds more than its limit. -/
def Store.ListingPaged (st : Store) (o : ReadLimits) (q : ListQuery) (keep : MessageRow → Bool) : Prop :=
  ∃ ps, Walk (fun a => (st.listMessages o { q with fromSeq := a }).toOption) (Page.resume q.desc) 0 ps ∧
    (ps.flatMap Page.messages).Perm (((st.messagesOf q.stream).filter keep).map fun m => m.read q.includeBody) ∧
    ∀ p ∈ ps, (p.messages.length : ℤ) ≤ p.limit

/-- What a scan of the rows comes to, as a page. -/
def ListQuery.page (q : ListQuery) (limit : ℤ) (s : Scan MessageRow) : Page :=
  let complete : Bool := (s.taken.length : ℤ) ≥ limit ∨ !s.bounded
  { messages := s.taken.map fun m => m.read q.includeBody, complete := complete, limit := limit,
    scannedToSeq := if complete then 0 else (s.last.map MessageRow.seq).getD 0 }

theorem listMessages_eq (hn : validateExistingStreamName q.stream = .ok ()) (hk : q.matcher = .ok keep) :
    st.listMessages o q =
      .ok (q.page (q.effective o) (scan keep (q.effective o).toNat o.peekScanLimit.toNat (st.examined q))) := by
  simp only [Store.listMessages, hn, hk, ok_bind]
  rfl

variable (st o) in
/-- The page at a start. -/
theorem listMessages_at (hn : validateExistingStreamName q.stream = .ok ()) (hk : q.matcher = .ok keep) (a : ℤ) :
    ∃ s seen, s = scan keep (q.effective o).toNat o.peekScanLimit.toNat (st.examined { q with fromSeq := a }) ∧
      s.Done keep (q.effective o).toNat o.peekScanLimit.toNat (st.examined { q with fromSeq := a }) seen ∧
      (st.listMessages o { q with fromSeq := a }).toOption = some (q.page (q.effective o) s) := by
  obtain ⟨seen, hd⟩ := scan_done keep (q.effective o).toNat o.peekScanLimit.toNat (st.examined { q with fromSeq := a })
  exact ⟨_, seen, rfl, hd, congrArg Except.toOption (listMessages_eq (q := { q with fromSeq := a }) hn hk)⟩

theorem page_resume {limit : ℤ} {budget : ℕ} {rows seen : List MessageRow} {s : Scan MessageRow} (hl : 0 < limit)
    (hb : 0 < budget) (hd : s.Done keep limit.toNat budget rows seen) :
    (q.page limit s).resume q.desc = s.cursor q.after := by
  have hlen : (q.page limit s).messages.length = s.taken.length := List.length_map _
  have hlimit : (q.page limit s).limit = limit := rfl
  unfold Page.resume Scan.cursor
  rw [hlen, hlimit]
  cases hf : s.filled with
  | true =>
    obtain ⟨hfull, hlast⟩ := hd.full hf
    rw [if_pos (by omega), Bool.true_or, if_pos rfl, ← hlast]
    show ((s.taken.map _).getLast?).map _ = _
    rw [List.getLast?_map, Option.map_map]
    rfl
  | false =>
    have hlt := (hd.unfilled hf).resolve_left (by omega)
    have hless : ¬ (s.taken.length : ℤ) ≥ limit := by omega
    have hcomplete : (q.page limit s).complete = !s.bounded := by simp [ListQuery.page, not_le.mp hless]
    have hscanned : (q.page limit s).scannedToSeq = if (!s.bounded) = true then 0
        else (s.last.map MessageRow.seq).getD 0 := by
      rw [← hcomplete]
      rfl
    rw [if_neg hless, hcomplete, hscanned]
    cases hs : s.bounded with
    | false => rfl
    | true =>
      have hne := hd.seen_ne_nil hb (by omega) (.inr hs)
      rw [hd.last, List.getLast?_eq_some_getLast hne]
      rfl

/-- A literal subject rules out only what does not match. -/
theorem literalClause_of_match (hk : q.matcher = .ok keep) (h : keep a = true) : q.literalClause a = true := by
  unfold ListQuery.matcher at hk
  unfold ListQuery.literalClause
  cases hp : Subject.parsePattern q.subject with
  | error e => rfl
  | ok p =>
    obtain ⟨ts, hts, hp⟩ := bind_eq_ok.mp hp
    obtain rfl := pure_eq_ok.mp hp
    split at hk
    · rename_i he
      rw [he] at hts
      cases hts
    cases hset : Subject.parseSet [q.subject] with
    | error e => rw [hset] at hk; cases hk
    | ok set =>
      rw [hset] at hk
      obtain rfl := Except.ok.inj hk
      obtain ⟨p, hp, hm⟩ := List.any_eq_true.mp h
      obtain ⟨hraw, hparse⟩ := (Subject.mem_parseSetFrom (Subject.parseSet_eq_ok.mp hset).2).1 p hp
      rw [List.mem_singleton] at hraw
      rw [hraw, hts] at hparse
      obtain rfl := Except.ok.inj hparse
      dsimp only
      cases hl : Subject.Pattern.isLiteral ⟨q.subject, p.tokens⟩ with
      | false => rfl
      | true =>
        have hsub := (Subject.literal_match_iff (by rw [hraw]; exact hts) (by rw [← hl, ← hraw]) a.subject).mp hm
        rw [hsub, hraw]
        simp

/-- The rows that match are those among the examined ones. -/
theorem perm_examined (hk : q.matcher = .ok keep) : ((st.examined { q with fromSeq := 0 }).filter keep).Perm
    ((st.messagesOf q.stream).filter keep) := by
  refine ((ListQuery.perm_orderBy _ _).filter keep).trans ?_
  rw [List.filter_filter]
  refine List.Perm.of_eq (List.filter_congr fun m _ => ?_)
  cases hm : keep m with
  | false => rfl
  | true =>
    have hlit : ListQuery.literalClause { q with fromSeq := 0 } m = true := literalClause_of_match hk hm
    rw [hlit]
    rfl

/-! ## The walk -/

/-- In descending order, the last row is that of the number 1 and completes a page. -/
def Store.EndsFullAtOne (st : Store) (o : ReadLimits) (q : ListQuery) (keep : MessageRow → Bool) : Prop :=
  q.desc = true ∧ (∃ r, (st.examined { q with fromSeq := 0 }).getLast? = some r ∧ r.seq = 1) ∧
    fills keep (q.effective o).toNat o.peekScanLimit.toNat 0 0 (st.examined { q with fromSeq := 0 }) = true

theorem effective_nonneg (hl : 0 < o.peekMaxLimit) : 0 ≤ q.effective o := by
  unfold ListQuery.effective clampLimit
  split <;> split <;> omega

theorem after_pos (ha : 1 ≤ a.seq) (h : q.desc = true → a.seq ≠ 1) : 0 < q.after a := by
  unfold ListQuery.after
  split
  · rename_i hd
    have := h hd
    omega
  · omega

theorem examined_pos (hpos : st.Positive) {r : MessageRow} (h : r ∈ st.examined q) : 1 ≤ r.seq :=
  hpos r (mem_messagesOf.mp (mem_examined.mp h).1).1

theorem scans_listing (hpos : st.Positive) (hn : validateExistingStreamName q.stream = .ok ())
    (hk : q.matcher = .ok keep)
    (hl : 0 < q.effective o) (hb : 0 < o.peekScanLimit) :
    Scans (fun a => (st.listMessages o { q with fromSeq := a }).toOption) (Page.resume q.desc) Page.messages
      (fun m => m.read q.includeBody) keep (q.effective o).toNat o.peekScanLimit.toNat
      (fun a => st.examined { q with fromSeq := a }) q.after fun _ => True := by
  refine ⟨by omega, by omega, fun a _ => ?_, fun a _ seen r rest h hne => ⟨trivial, ?_⟩⟩
  · obtain ⟨s, seen, rfl, hd, hpage⟩ := listMessages_at st o hn hk a
    exact ⟨_, hpage, rfl, page_resume hl (by omega) hd⟩
  · obtain ⟨x, hx⟩ := List.exists_mem_of_ne_nil rest hne
    have hrows : ∀ z ∈ seen ++ r :: rest, 1 ≤ z.seq := fun z hz => examined_pos hpos (h ▸ hz)
    have hbefore : q.Before r x := by
      have hsorted := pairwise_examined st { q with fromSeq := a }
      rw [h] at hsorted
      exact List.rel_of_pairwise_cons (List.pairwise_append.mp hsorted).2.1 hx
    refine examined_after (q := { q with fromSeq := a }) h (after_pos (hrows r (by simp)) fun hd he => ?_)
    have hlt : x.seq < r.seq := by
      unfold ListQuery.Before at hbefore
      rwa [if_pos (show q.desc = true from hd)] at hbefore
    have := hrows x (by simp [hx])
    omega

theorem listMessages_name {p : Page} (h : (st.listMessages o q).toOption = some p) :
    validateExistingStreamName q.stream = .ok () := by
  unfold Store.listMessages at h
  cases hn : validateExistingStreamName q.stream with
  | error r => rw [hn] at h; cases h
  | ok u => rfl

theorem resume_of_empty {desc : Bool} {p : Page} (hl : p.limit = 0) (hm : p.messages = []) : p.resume desc = none := by
  rw [Page.resume, hl, hm]
  rfl

/-- Without room the first page is the last, and has to be empty. -/
theorem paged_iff_of_zero (hn : validateExistingStreamName q.stream = .ok ()) (hk : q.matcher = .ok keep)
    (hz : q.effective o = 0) : st.ListingPaged o q keep ↔ ∀ m ∈ st.messagesOf q.stream, keep m = false := by
  obtain ⟨s, seen, -, hd, hpage⟩ := listMessages_at st o hn hk 0
  have hlimit : (q.page (q.effective o) s).limit = 0 := hz
  have hmessages : (q.page (q.effective o) s).messages = s.taken.map fun m => m.read q.includeBody := rfl
  constructor
  · rintro ⟨ps, hw, hperm, hfits⟩
    have hmem : q.page (q.effective o) s ∈ ps := by
      obtain ⟨-, rfl⟩ | ⟨_, _, -, rfl, -⟩ := hw.eq_cons hpage
      · exact List.mem_singleton_self _
      · exact List.mem_cons_self
    have hempty : (q.page (q.effective o) s).messages = [] := by
      have hfit := hfits _ hmem
      rw [hlimit] at hfit
      exact List.length_eq_zero_iff.mp (by omega)
    obtain ⟨-, rfl⟩ | ⟨_, _, hnext, -⟩ := hw.eq_cons hpage
    · rw [List.flatMap_singleton, hempty] at hperm
      intro m hm
      have hnil := List.map_eq_nil_iff.mp (List.nil_perm.mp hperm)
      exact Bool.eq_false_iff.mpr (List.filter_eq_nil_iff.mp hnil m hm)
    · rw [resume_of_empty hlimit hempty] at hnext
      cases hnext
  · intro hnone
    have htaken : s.taken = [] := by
      rw [hd.taken]
      refine List.filter_eq_nil_iff.mpr fun m hm => Bool.eq_false_iff.mp (hnone m ?_)
      have hrow : m ∈ st.examined { q with fromSeq := 0 } := by rw [hd.split]; exact List.mem_append_left _ hm
      exact (mem_examined.mp hrow).1
    have hempty : (q.page (q.effective o) s).messages = [] := by rw [hmessages, htaken]; rfl
    refine ⟨_, .last hpage (resume_of_empty hlimit hempty), ?_, fun p hp => ?_⟩
    · rw [List.flatMap_singleton, hempty, List.filter_eq_nil_iff.mpr fun m hm => Bool.eq_false_iff.mp (hnone m hm)]
      exact List.Perm.nil
    · rw [List.mem_singleton.mp hp, hempty, hlimit]
      exact le_rfl

theorem not_endsFullAtOne (hz : q.effective o = 0) : ¬ st.EndsFullAtOne o q keep := by
  rintro ⟨-, -, hf⟩
  rw [hz, Int.toNat_zero, fills_zero] at hf
  exact Bool.false_ne_true hf

/-- **Listing.** A walk through the messages of a stream ends and shows every message that matches once, in pages that
keep their limit, exactly if nothing matches where the limit is 0, and the walk does not come down to the number 1 with
a full page. -/
theorem listing_paged_iff (hpos : st.Positive) (hk : q.matcher = .ok keep) (hl : 0 < o.peekMaxLimit)
    (hb : 0 < o.peekScanLimit) : st.ListingPaged o q keep ↔ validateExistingStreamName q.stream = .ok () ∧
      (q.effective o = 0 → ∀ m ∈ st.messagesOf q.stream, keep m = false) ∧ ¬ st.EndsFullAtOne o q keep := by
  by_cases hn : validateExistingStreamName q.stream = .ok ()
  case neg =>
    refine iff_of_false ?_ fun h => hn h.1
    rintro ⟨ps, hw, -⟩
    cases hw with
    | last hp _ => exact hn (listMessages_name (q := { q with fromSeq := 0 }) hp)
    | more hp _ _ => exact hn (listMessages_name (q := { q with fromSeq := 0 }) hp)
  rcases (effective_nonneg (q := q) hl).eq_or_lt with hz | hroom
  · rw [paged_iff_of_zero hn hk hz.symm]
    exact ⟨fun h => ⟨hn, fun _ => h, not_endsFullAtOne hz.symm⟩, fun h => h.2.1 hz.symm⟩
  have hscans := scans_listing hpos hn hk hroom hb
  constructor
  · rintro ⟨ps, hw, -⟩
    refine ⟨hn, fun hz => absurd hz hroom.ne', ?_⟩
    rintro ⟨hd, ⟨r, hr, hone⟩, hf⟩
    obtain ⟨qs, r', hr', hchain⟩ := chain_scan hscans trivial hf
    obtain rfl := Option.some.inj (hr.symm.trans hr')
    -- the walk comes back to where it began
    have hback : q.after r = 0 := by rw [ListQuery.after, if_pos hd, hone]; rfl
    rw [hback] at hchain
    exact not_walk_of_cycle hchain hw
  · rintro ⟨-, -, hends⟩
    obtain ⟨ps, hw, hitems⟩ := exists_walk_scan hscans (k := 0) trivial fun hf r hr => by
      obtain ⟨seen, hseen⟩ := List.getLast?_eq_some_iff.mp hr
      have hmem : r ∈ st.examined { q with fromSeq := 0 } := List.mem_of_getLast? hr
      refine ⟨trivial, examined_after (q := { q with fromSeq := 0 }) hseen (after_pos (examined_pos hpos hmem) ?_)⟩
      exact fun hd hone => hends ⟨hd, ⟨r, hr, hone⟩, hf⟩
    refine ⟨ps, hw, ?_, fun p hp => ?_⟩
    · rw [hitems]
      exact (perm_examined hk).map _
    · obtain ⟨a, hp⟩ := hw.exists_cursor hp
      obtain ⟨s, seen, -, hd, hpage⟩ := listMessages_at st o hn hk a
      obtain rfl := Option.some.inj (hpage.symm.trans hp)
      have hfits := hd.fits.resolve_left (by omega)
      show ((List.map _ _).length : ℤ) ≤ q.effective o
      rw [List.length_map]
      omega

/-- Two messages, oldest first, a page each. -/
theorem listing_paged_two : ((playState (aSetup 2)).store.messagesOf aStream).length = 2 ∧
    (playState (aSetup 2)).store.ListingPaged ({} : ReadLimits).applyDefaults { stream := aStream, limit := 1 }
      fun _ => true := by
  have hlen : ((playState (aSetup 2)).store.messagesOf aStream).length = 2 := by decide +kernel
  have hpos := (runs_play (aSetup 2)).positive
  generalize playState (aSetup 2) = b at *
  refine ⟨hlen, (listing_paged_iff hpos rfl (by decide) (by decide)).mpr ⟨by decide, fun hz => ?_, ?_⟩⟩
  · exact absurd hz (by decide)
  · rintro ⟨hd, -⟩
    exact absurd hd (by decide)

/-- One message. Newest first, the page with it leads below the number 1, to the start 0, which is where the listing
began. With bodies and a ceiling of 5, the page holds it over its limit of 0. -/
theorem listing_restarts :
    Runs (play (aSetup 1)) (playState (aSetup 1)) ∧
    ((playState (aSetup 1)).store.listMessages ({} : ReadLimits).applyDefaults
        { stream := aStream, limit := 1, order := str "desc" }).toOption.map
      (fun p => (p.messages.map Message.seq, p.limit, p.resume true)) = some ([1], 1, some 0) ∧
    ((playState (aSetup 1)).store.listMessages ({ peekMaxLimit := 5 } : ReadLimits).applyDefaults
        { stream := aStream, includeBody := true }).toOption.map
      (fun p => (p.messages.map Message.seq, p.limit, p.complete)) = some ([1], 0, true) :=
  ⟨runs_play _, by decide +kernel⟩

end Listing

end Messq
