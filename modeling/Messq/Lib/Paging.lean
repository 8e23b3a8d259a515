import Mathlib

/-! # Paging

Reading a long list a page at a time.

- A reader follows the cursors that the pages hand out, until a page hands out none (`Walk`). A walk that deals out what
  is left at each cursor comes to an end and reads everything once (`exists_walk`); one that comes back to a cursor
  never ends (`not_walk_of_cycle`).
- A page can be a bounded scan (`scan`): rows are examined up to a budget, those that match are taken up to a limit, and
  the next page begins behind the last row examined. Such a walk reads all rows that match (`exists_walk_scan`), unless
  the very last row completes a page (`fills`) and the cursor behind it leads somewhere else (`chain_scan`). -/

namespace Messq.Lib

variable {front rest : List ℤ} {n budget limit : ℕ} {b : ℤ}

universe u v w

/-! ## Walks -/

section Walk

variable {κ : Type u} {π : Type v} {ρ : Type w} {page : κ → Option π} {next : π → Option κ} {k k' : κ} {ps ps' : List π}

/-- The pages read from the cursor `k` on; the last one hands out no cursor. -/
inductive Walk (page : κ → Option π) (next : π → Option κ) : κ → List π → Prop
  | last {k : κ} {p : π} : page k = some p → next p = none → Walk page next k [p]
  | more {k k' : κ} {p : π} {ps : List π} : page k = some p → next p = some k' → Walk page next k' ps →
      Walk page next k (p :: ps)

/-- The pages read from the cursor `k` until one hands out the cursor `k'`. -/
inductive Chain (page : κ → Option π) (next : π → Option κ) : κ → List π → κ → Prop
  | single {k k' : κ} {p : π} : page k = some p → next p = some k' → Chain page next k [p] k'
  | more {k k₁ k' : κ} {p : π} {ps : List π} : page k = some p → next p = some k₁ → Chain page next k₁ ps k' →
      Chain page next k (p :: ps) k'

/-- A walk starts with the page at its cursor, and goes on where that page says. -/
theorem Walk.eq_cons (h : Walk page next k ps) {p : π} (hp : page k = some p) :
    (next p = none ∧ ps = [p]) ∨ ∃ k' qs, next p = some k' ∧ ps = p :: qs ∧ Walk page next k' qs := by
  cases h with
  | last hp' hn =>
    obtain rfl := Option.some.inj (hp.symm.trans hp')
    exact .inl ⟨hn, rfl⟩
  | more hp' hn hw =>
    obtain rfl := Option.some.inj (hp.symm.trans hp')
    exact .inr ⟨_, _, hn, rfl, hw⟩

theorem Walk.of_next (h : Walk page next k ps) {p : π} (hp : page k = some p) (hn : next p = some k') :
    ∃ qs, ps = p :: qs ∧ Walk page next k' qs := by
  obtain ⟨hnone, -⟩ | ⟨k₁, qs, hn', rfl, hw⟩ := h.eq_cons hp
  · rw [hn] at hnone
    cases hnone
  · obtain rfl := Option.some.inj (hn.symm.trans hn')
    exact ⟨qs, rfl, hw⟩

/-- Every page of a walk is the page at some cursor. -/
theorem Walk.exists_cursor (h : Walk page next k ps) {p : π} (hp : p ∈ ps) : ∃ k', page k' = some p := by
  induction h with
  | last hp' _ => exact ⟨_, List.mem_singleton.mp hp ▸ hp'⟩
  | more hp' _ _ ih =>
    rcases List.mem_cons.mp hp with rfl | hp
    · exact ⟨_, hp'⟩
    · exact ih hp

theorem Walk.functional (h : Walk page next k ps) (h' : Walk page next k ps') : ps = ps' := by
  induction h generalizing ps' with
  | last hp hn =>
    obtain ⟨-, rfl⟩ | ⟨k', qs, hn', -⟩ := h'.eq_cons hp
    · rfl
    · rw [hn] at hn'
      cases hn'
  | more hp hn _ ih =>
    obtain ⟨qs, rfl, hw⟩ := h'.of_next hp hn
    rw [ih hw]

/-- A walk goes through the pages of a chain. -/
theorem Chain.walk (hc : Chain page next k ps k') {qs : List π} (hw : Walk page next k qs) :
    ∃ qs', qs = ps ++ qs' ∧ Walk page next k' qs' := by
  induction hc generalizing qs with
  | single hp hn => exact hw.of_next hp hn
  | more hp hn _ ih =>
    obtain ⟨qs₁, rfl, hw₁⟩ := hw.of_next hp hn
    obtain ⟨qs', rfl, hw'⟩ := ih hw₁
    exact ⟨qs', rfl, hw'⟩

theorem Chain.ne_nil (h : Chain page next k ps k') : ps ≠ [] := by
  cases h <;> exact List.cons_ne_nil _ _

/-- A reader that comes back to a cursor does not come to an end. -/
theorem not_walk_of_cycle (hc : Chain page next k ps k) {qs : List π} : ¬ Walk page next k qs := by
  intro hw
  obtain ⟨qs', he, hw'⟩ := hc.walk hw
  rw [hw.functional hw'] at he
  exact hc.ne_nil (List.append_left_eq_self.mp he.symm)

/-- **Rule.** When every page deals out the front of what is left at its cursor, and less is left at the next one, the
walk ends and has read what was left, in order. -/
theorem exists_walk {items : π → List ρ} (left : κ → List ρ) (size : κ → ℕ) {I : κ → Prop}
    (hpage : ∀ k, I k → ∃ p, page k = some p ∧ (next p = none ∧ items p = left k ∨
      ∃ k', next p = some k' ∧ I k' ∧ size k' < size k ∧ left k = items p ++ left k')) (hk : I k) :
    ∃ ps, Walk page next k ps ∧ ps.flatMap items = left k := by
  induction hn : size k using Nat.strong_induction_on generalizing k with
  | _ n ih =>
    subst hn
    obtain ⟨p, hp, ⟨hnone, hitems⟩ | ⟨k', hnext, hk', hlt, hleft⟩⟩ := hpage k hk
    · exact ⟨[p], .last hp hnone, by simp [hitems]⟩
    · obtain ⟨ps, hw, hitems⟩ := ih _ hlt hk' rfl
      exact ⟨p :: ps, .more hp hnext hw, by simp [hitems, hleft]⟩

end Walk

/-! ## Bounded scans -/

section Scan

variable {ρ : Type w} {keep : ρ → Bool} {rows : List ρ}

/-- What a scan brings back: the rows it took, how many it examined and the last of these, why it stopped, and the rows
it did not examine. -/
structure Scan (ρ : Type w) where
  taken : List ρ := []
  scanned : ℕ := 0
  last : Option ρ := none
  filled : Bool := false
  bounded : Bool := false
  rest : List ρ := []

def scanFrom (keep : ρ → Bool) (limit budget : ℕ) : Scan ρ → List ρ → Scan ρ
  | s, [] => s
  | s, r :: rs =>
    -- the budget is on the rows examined, so it is checked before one is
    if s.scanned = budget then { s with bounded := true, rest := r :: rs }
    else if !keep r then scanFrom keep limit budget { s with scanned := s.scanned + 1, last := some r } rs
    else if s.taken.length + 1 = limit then
      { s with scanned := s.scanned + 1, last := some r, taken := s.taken ++ [r], filled := true, rest := rs }
    else
      scanFrom keep limit budget { s with scanned := s.scanned + 1, last := some r, taken := s.taken ++ [r] } rs

/-- Rows are examined in turn, at most `budget` of them, and taken if they match, until `limit` are taken. -/
def scan (keep : ρ → Bool) (limit budget : ℕ) (rows : List ρ) : Scan ρ := scanFrom keep limit budget {} rows

/-- A scan that has examined `seen` and goes on. -/
structure Scan.Open (keep : ρ → Bool) (limit budget : ℕ) (seen : List ρ) (s : Scan ρ) : Prop where
  taken : s.taken = seen.filter keep
  scanned : s.scanned = seen.length
  last : s.last = seen.getLast?
  unfilled : s.filled = false
  unbounded : s.bounded = false
  rest : s.rest = []
  fits : limit = 0 ∨ s.taken.length < limit
  within : s.scanned ≤ budget

/-- A scan that has examined `seen` of the rows and stopped. -/
structure Scan.Done (keep : ρ → Bool) (limit budget : ℕ) (rows seen : List ρ) (s : Scan ρ) : Prop where
  split : rows = seen ++ s.rest
  taken : s.taken = seen.filter keep
  last : s.last = seen.getLast?
  fits : limit = 0 ∨ s.taken.length ≤ limit
  /-- A full scan ends with the row that filled it. -/
  full : s.filled = true → s.taken.length = limit ∧ s.taken.getLast? = s.last
  unfilled : s.filled = false → limit = 0 ∨ s.taken.length < limit
  spent : s.bounded = true → s.rest ≠ [] ∧ seen.length = budget ∧ s.filled = false
  ended : s.filled = false → s.bounded = false → s.rest = []

theorem Scan.Open.done {seen : List ρ} {s : Scan ρ} (h : s.Open keep limit budget seen) (rows : List ρ) :
    ∃ seen', seen <+: seen' ∧ (scanFrom keep limit budget s rows).Done keep limit budget (seen ++ rows) seen' := by
  induction rows generalizing s seen with
  | nil =>
    refine ⟨seen, List.prefix_refl _, ?_⟩
    exact {
      split := by rw [scanFrom, h.rest]
      taken := h.taken
      last := h.last
      fits := h.fits.imp_right le_of_lt
      full := fun hf => absurd (h.unfilled.symm.trans hf) Bool.false_ne_true
      unfilled := fun _ => h.fits
      spent := fun hb => absurd (h.unbounded.symm.trans hb) Bool.false_ne_true
      ended := fun _ _ => h.rest }
  | cons r rs ih =>
    have hgo : seen ++ r :: rs = (seen ++ [r]) ++ rs := by simp
    unfold scanFrom
    split
    · rename_i hspent
      refine ⟨seen, List.prefix_refl _, ?_⟩
      exact {
        split := rfl
        taken := h.taken
        last := h.last
        fits := h.fits.imp_right le_of_lt
        full := fun hf => absurd (h.unfilled.symm.trans hf) Bool.false_ne_true
        unfilled := fun _ => h.fits
        spent := fun _ => ⟨List.cons_ne_nil _ _, h.scanned.symm.trans hspent, h.unfilled⟩
        ended := fun _ hb => absurd hb.symm Bool.false_ne_true }
    rename_i hleft
    have hwithin : s.scanned + 1 ≤ budget := lt_of_le_of_ne h.within hleft
    split
    · rename_i hkeep
      have hkeep : keep r = false := by simpa using hkeep
      have hopen : Scan.Open keep limit budget (seen ++ [r]) { s with scanned := s.scanned + 1, last := some r } := {
        taken := by rw [List.filter_append, List.filter_singleton, hkeep]; simpa using h.taken
        scanned := by simp [h.scanned]
        last := by simp
        unfilled := h.unfilled
        unbounded := h.unbounded
        rest := h.rest
        fits := h.fits
        within := hwithin }
      obtain ⟨seen', hpre, hd⟩ := ih hopen
      rw [hgo]
      exact ⟨seen', (List.prefix_append _ _).trans hpre, hd⟩
    rename_i hkeep
    have hkeep : keep r = true := by simpa using hkeep
    have htaken : s.taken ++ [r] = (seen ++ [r]).filter keep := by
      rw [List.filter_append, List.filter_singleton, hkeep, ← h.taken]
      rfl
    split
    · rename_i hfull
      refine ⟨seen ++ [r], List.prefix_append _ _, ?_⟩
      exact {
        split := hgo
        taken := htaken
        last := by simp
        fits := .inr (by rw [List.length_append]; exact hfull.le)
        full := fun _ => ⟨by rw [List.length_append]; exact hfull, by simp⟩
        unfilled := fun hf => absurd hf.symm Bool.false_ne_true
        spent := fun hb => absurd (h.unbounded.symm.trans hb) Bool.false_ne_true
        ended := fun hf _ => absurd hf.symm Bool.false_ne_true }
    · rename_i hroom
      have hopen : Scan.Open keep limit budget (seen ++ [r])
          { s with scanned := s.scanned + 1, last := some r, taken := s.taken ++ [r] } := {
        taken := htaken
        scanned := by simp [h.scanned]
        last := by simp
        unfilled := h.unfilled
        unbounded := h.unbounded
        rest := h.rest
        fits := h.fits.imp_right fun hlt => by
          rw [List.length_append]
          exact lt_of_le_of_ne hlt hroom
        within := hwithin }
      obtain ⟨seen', hpre, hd⟩ := ih hopen
      rw [hgo]
      exact ⟨seen', (List.prefix_append _ _).trans hpre, hd⟩

theorem scan_done (keep : ρ → Bool) (limit budget : ℕ) (rows : List ρ) :
    ∃ seen, (scan keep limit budget rows).Done keep limit budget rows seen := by
  have hopen : Scan.Open keep limit budget [] ({} : Scan ρ) := {
    taken := rfl
    scanned := rfl
    last := rfl
    unfilled := rfl
    unbounded := rfl
    rest := rfl
    fits := limit.eq_zero_or_pos
    within := budget.zero_le }
  obtain ⟨seen, -, hd⟩ := hopen.done rows
  exact ⟨seen, hd⟩

/-- The scans bring back the same, but for the rows they did not examine. -/
structure Scan.Same (s t : Scan ρ) : Prop where
  taken : s.taken = t.taken
  last : s.last = t.last
  filled : s.filled = t.filled
  bounded : s.bounded = t.bounded

theorem Scan.Same.refl (s : Scan ρ) : s.Same s := ⟨rfl, rfl, rfl, rfl⟩

/-- A scan does not see beyond its budget. -/
theorem scanFrom_take {s : Scan ρ} (hs : s.scanned ≤ budget) (hn : budget < s.scanned + n) (rows : List ρ) :
    (scanFrom keep limit budget s (rows.take n)).Same (scanFrom keep limit budget s rows) := by
  induction rows generalizing s n with
  | nil =>
    rw [List.take_nil]
    exact .refl _
  | cons r rs ih =>
    obtain ⟨n, rfl⟩ : ∃ n', n = n' + 1 := ⟨n - 1, by omega⟩
    rw [List.take_succ_cons]
    unfold scanFrom
    split
    · exact ⟨rfl, rfl, rfl, rfl⟩
    rename_i hleft
    split
    · exact ih (by dsimp only; omega) (by dsimp only; omega)
    split
    · exact ⟨rfl, rfl, rfl, rfl⟩
    · exact ih (by dsimp only; omega) (by dsimp only; omega)

theorem scan_take (hn : budget < n) (rows : List ρ) :
    (scan keep limit budget (rows.take n)).Same (scan keep limit budget rows) :=
  scanFrom_take (Nat.zero_le _) (by simpa using hn) rows

/-- A scan that stops before the end has examined something, if it may. -/
theorem Scan.Done.seen_ne_nil {seen : List ρ} {s : Scan ρ} (h : s.Done keep limit budget rows seen) (hb : 0 < budget)
    (hl : 0 < limit) (hstop : s.filled = true ∨ s.bounded = true) : seen ≠ [] := by
  rintro rfl
  rcases hstop with hf | hs
  · have := (h.full hf).1
    rw [h.taken] at this
    exact absurd this.symm hl.ne'
  · exact absurd (h.spent hs).2.1.symm hb.ne'

/-- Whether the last row completes a page, when the rows are dealt out into pages of at most `limit` rows that match,
out of at most `budget` rows each; the current page has `taken` of the ones and `scanned` of the others. -/
def fills (keep : ρ → Bool) (limit budget : ℕ) : ℕ → ℕ → List ρ → Bool
  | _, _, [] => false
  | taken, scanned, r :: rs =>
    -- a page with `budget` rows is over, and this row begins the next one
    let page := if scanned = budget then (0, 0) else (taken, scanned)
    if !keep r then fills keep limit budget page.1 (page.2 + 1) rs
    else if page.1 + 1 = limit then rs.isEmpty || fills keep limit budget 0 0 rs
    else fills keep limit budget (page.1 + 1) (page.2 + 1) rs

theorem fills_budget (taken : ℕ) (rows : List ρ) :
    fills keep limit budget taken budget rows = fills keep limit budget 0 0 rows := by
  cases rows with
  | nil => rfl
  | cons r rs => simp only [fills, if_true, ite_self]

/-- The rows that a scan leaves are dealt out anew. -/
theorem fills_scanFrom {s : Scan ρ} (hf : s.filled = false) (hr : s.rest = []) (rows : List ρ) :
    fills keep limit budget s.taken.length s.scanned rows =
      if (scanFrom keep limit budget s rows).rest = [] then (scanFrom keep limit budget s rows).filled
      else fills keep limit budget 0 0 (scanFrom keep limit budget s rows).rest := by
  induction rows generalizing s with
  | nil => simp [scanFrom, fills, hf, hr]
  | cons r rs ih =>
    unfold scanFrom
    split
    · rename_i hspent
      rw [hspent, fills_budget, if_neg (List.cons_ne_nil r rs)]
    rename_i hleft
    simp only [fills, if_neg hleft]
    split
    · exact ih (s := { s with scanned := s.scanned + 1, last := some r }) hf hr
    split
    · cases rs with
      | nil => simp
      | cons x rs => simp
    · have := ih (s := { s with scanned := s.scanned + 1, last := some r, taken := s.taken ++ [r] }) hf hr
      rwa [List.length_append] at this

theorem fills_scan (keep : ρ → Bool) (limit budget : ℕ) (rows : List ρ) : fills keep limit budget 0 0 rows =
    if (scan keep limit budget rows).rest = [] then (scan keep limit budget rows).filled
    else fills keep limit budget 0 0 (scan keep limit budget rows).rest :=
  fills_scanFrom (s := {}) rfl rfl rows

/-- Pages without a limit are never completed. -/
theorem fills_zero (taken scanned : ℕ) (rows : List ρ) : fills keep 0 budget taken scanned rows = false := by
  induction rows generalizing taken scanned with
  | nil => rfl
  | cons r rs ih =>
    simp only [fills, if_neg (Nat.succ_ne_zero _), ih, ite_self]

end Scan

/-! ## Walks over scans -/

/-- In a list in strict order, what comes after a row is what stands behind it. -/
theorem filter_behind {ρ : Type w} {R : ρ → ρ → Prop} [DecidableRel R] (hR : ∀ a b, R a b → ¬ R b a)
    {seen rest : List ρ}
    {r : ρ} (h : (seen ++ r :: rest).Pairwise R) : (seen ++ r :: rest).filter (fun x => decide (R r x)) = rest := by
  obtain ⟨-, hafter, hbefore⟩ := List.pairwise_append.mp h
  have hseen : seen.filter (fun x => decide (R r x)) = [] :=
    List.filter_eq_nil_iff.mpr fun x hx => by simpa using hR _ _ (hbefore x hx r List.mem_cons_self)
  have hself : ¬ R r r := fun hr => hR r r hr hr
  have hrest : rest.filter (fun x => decide (R r x)) = rest :=
    List.filter_eq_self.mpr fun x hx => by simpa using List.rel_of_pairwise_cons hafter hx
  rw [List.filter_append, hseen, List.nil_append, List.filter_cons_of_neg (by simpa using hself), hrest]

section Pages

variable {κ : Type u} {π : Type v} {ρ : Type w} {σ : Type*} {page : κ → Option π} {next : π → Option κ}
  {items : π → List σ} {view : ρ → σ} {keep : ρ → Bool} {rowsAt : κ → List ρ} {resume : ρ → κ} {I : κ → Prop} {k : κ}

/-- The cursor that a scan hands out: behind the last row examined, unless all rows were. -/
def Scan.cursor (resume : ρ → κ) (s : Scan ρ) : Option κ := if s.filled || s.bounded then s.last.map resume else none

/-- The pages show scans of the rows behind their cursors, and a cursor that a page hands out leads behind the last row
it examined, as long as there are rows behind it. -/
structure Scans (page : κ → Option π) (next : π → Option κ) (items : π → List σ) (view : ρ → σ) (keep : ρ → Bool)
    (limit budget : ℕ) (rowsAt : κ → List ρ) (resume : ρ → κ) (I : κ → Prop) : Prop where
  limit_pos : 0 < limit
  budget_pos : 0 < budget
  page : ∀ k, I k → ∃ p, page k = some p ∧ items p = (scan keep limit budget (rowsAt k)).taken.map view ∧
    next p = (scan keep limit budget (rowsAt k)).cursor resume
  resume : ∀ k, I k → ∀ seen r rest, rowsAt k = seen ++ r :: rest → rest ≠ [] → I (resume r) ∧ rowsAt (resume r) = rest

/-- One page: it is the last, or it hands out the cursor behind the row `r` it examined last. -/
theorem Scans.cases (h : Scans page next items view keep limit budget rowsAt resume I) (hk : I k) :
    ∃ p, page k = some p ∧
      (next p = none ∧ items p = ((rowsAt k).filter keep).map view ∧ fills keep limit budget 0 0 (rowsAt k) = false ∨
      ∃ seen r rest, rowsAt k = seen ++ r :: rest ∧ next p = some (resume r) ∧
        items p = ((seen ++ [r]).filter keep).map view ∧
        fills keep limit budget 0 0 (rowsAt k) = (rest.isEmpty || fills keep limit budget 0 0 rest)) := by
  obtain ⟨p, hp, hitems, hnext⟩ := h.page k hk
  obtain ⟨seen, hd⟩ := scan_done keep limit budget (rowsAt k)
  have hfills := fills_scan keep limit budget (rowsAt k)
  refine ⟨p, hp, ?_⟩
  generalize scan keep limit budget (rowsAt k) = s at *
  by_cases hstop : s.filled = true ∨ s.bounded = true
  · right
    obtain ⟨seen, r, rfl⟩ := List.eq_nil_or_concat seen |>.resolve_left (hd.seen_ne_nil h.budget_pos h.limit_pos hstop)
    refine ⟨seen, r, s.rest, by rw [hd.split]; simp, ?_, ?_, ?_⟩
    · rw [hnext, Scan.cursor, hd.last]
      simp [hstop]
    · rw [hitems, hd.taken, List.concat_eq_append]
    · rw [hfills]
      cases hrest : s.rest with
      | nil =>
        -- the budget is not what stopped it
        have hfilled : s.filled = true := hstop.resolve_right fun hb => (hd.spent hb).1 hrest
        simp [hfilled]
      | cons x rest => simp
  · left
    rw [not_or, Bool.not_eq_true, Bool.not_eq_true] at hstop
    have hrest := hd.ended hstop.1 hstop.2
    refine ⟨?_, ?_, ?_⟩
    · rw [hnext, Scan.cursor, hstop.1, hstop.2]
      rfl
    · rw [hitems, hd.taken, hd.split, hrest, List.append_nil]
    · rw [hfills, if_pos hrest, hstop.1]

/-- **Scans.** The pages hold the rows that match, in order, unless the last row completes a page; then the cursor
behind it has to lead to the end. -/
theorem exists_walk_scan (h : Scans page next items view keep limit budget rowsAt resume I) (hk : I k)
    (hlast : fills keep limit budget 0 0 (rowsAt k) = true → ∀ r, (rowsAt k).getLast? = some r →
      I (resume r) ∧ rowsAt (resume r) = []) :
    ∃ ps, Walk page next k ps ∧ ps.flatMap items = ((rowsAt k).filter keep).map view := by
  refine exists_walk (fun k => ((rowsAt k).filter keep).map view) (fun k => (rowsAt k).length)
    (I := fun k => I k ∧ (fills keep limit budget 0 0 (rowsAt k) = true → ∀ r, (rowsAt k).getLast? = some r →
      I (resume r) ∧ rowsAt (resume r) = [])) (fun k hk => ?_) ⟨hk, hlast⟩
  obtain ⟨hk, hlast⟩ := hk
  obtain ⟨p, hp, ⟨hnone, hitems, -⟩ | ⟨seen, r, rest, hrows, hnext, hitems, hfills⟩⟩ := h.cases hk
  · exact ⟨p, hp, .inl ⟨hnone, hitems⟩⟩
  refine ⟨p, hp, .inr ⟨resume r, hnext, ?_⟩⟩
  cases rest with
  | nil =>
    obtain ⟨hr, hnil⟩ := hlast (by rw [hfills]; rfl) r (by rw [hrows]; simp)
    refine ⟨⟨hr, fun hf => ?_⟩, by rw [hnil, hrows]; simp, by rw [hitems, hnil, hrows]; simp⟩
    rw [hnil] at hf
    cases hf
  | cons x rest =>
    obtain ⟨hr, hrest⟩ := h.resume k hk seen r (x :: rest) hrows (List.cons_ne_nil _ _)
    rw [hrest]
    have hfilter : ((rowsAt k).filter keep).map view = items p ++ ((x :: rest).filter keep).map view := by
      rw [hitems, hrows, ← List.map_append, ← List.filter_append, List.append_assoc]
      rfl
    refine ⟨⟨hr, fun hf z hz => ?_⟩, by rw [hrows]; simp; omega, hfilter⟩
    refine hlast (by rw [hfills, hf]; simp) z ?_
    rw [hrows, List.getLast?_append, List.getLast?_cons_cons, hz]
    rfl

/-- When the last row completes a page, the cursor behind it is handed out. -/
theorem chain_scan (h : Scans page next items view keep limit budget rowsAt resume I) (hk : I k)
    (hf : fills keep limit budget 0 0 (rowsAt k) = true) :
    ∃ ps r, (rowsAt k).getLast? = some r ∧ Chain page next k ps (resume r) := by
  induction hn : (rowsAt k).length using Nat.strong_induction_on generalizing k with
  | _ n ih =>
    subst hn
    obtain ⟨p, hp, ⟨-, -, hfills⟩ | ⟨seen, r, rest, hrows, hnext, -, hfills⟩⟩ := h.cases hk
    · rw [hf] at hfills
      cases hfills
    cases rest with
    | nil => exact ⟨[p], r, by rw [hrows]; simp, .single hp hnext⟩
    | cons x rest =>
      obtain ⟨hr, hrest⟩ := h.resume k hk seen r (x :: rest) hrows (List.cons_ne_nil _ _)
      have hf' : fills keep limit budget 0 0 (rowsAt (resume r)) = true := by
        rw [hrest]
        rw [hf] at hfills
        simpa using hfills.symm
      obtain ⟨ps, z, hz, hc⟩ := ih _ (by rw [hrest, hrows]; simp; omega) hr hf' rfl
      refine ⟨p :: ps, z, ?_, .more hp hnext hc⟩
      rw [hrest] at hz
      rw [hrows, List.getLast?_append, List.getLast?_cons_cons, hz]
      rfl

end Pages

/-! ## Cursors on another key

Numbers are listed in some order that is not theirs, in pages of `k`, and the cursor of the next page is the number that
ended this one: what it shows is the list without the numbers up to the cursor. -/

section Keyset

variable {π : Type v} {page : ℤ → Option π} {next : π → Option ℤ} {items : π → List ℤ} {ok : ℤ → Prop} {k : ℕ}
  {l back : List ℤ} {a : ℤ} {ps : List π}

/-- The part of the list that a cursor leaves; 0 is no cursor. -/
def behind (a : ℤ) (l : List ℤ) : List ℤ := l.filter fun x => a ≤ 0 || a < x

/-- The pages show the front of what the cursor leaves, if it can be read, and a full one hands out its last number. -/
structure Keyset (page : ℤ → Option π) (next : π → Option ℤ) (items : π → List ℤ) (ok : ℤ → Prop) (k : ℕ) (l : List ℤ) :
    Prop where
  pos : 0 < k
  nodup : l.Nodup
  reads : ∀ a, (∀ x ∈ (behind a l).take k, ok x) → ∃ p, page a = some p ∧ items p = (behind a l).take k ∧
    next p = if k ≤ (behind a l).length then ((behind a l).take k).getLast? else none
  fails : ∀ a, (∃ x ∈ (behind a l).take k, ¬ ok x) → page a = none

/-- A number that ends a page is above everything before it and below everything after it. -/
def Boundaries (k : ℕ) (l : List ℤ) : Prop :=
  ∀ front b back, l = front ++ b :: back → k ∣ front.length + 1 → 0 < b ∧ (∀ x ∈ front, x < b) ∧ ∀ x ∈ back, b < x

theorem boundaries_of_sorted (hpos : ∀ x ∈ l, 0 < x) (h : l.Pairwise (· < ·)) : Boundaries k l := by
  rintro front b back rfl -
  obtain ⟨-, hafter, hbefore⟩ := List.pairwise_append.mp h
  refine ⟨hpos b (by simp), fun x hx => hbefore x hx b List.mem_cons_self, fun x hx => ?_⟩
  exact List.rel_of_pairwise_cons hafter hx

theorem behind_zero (l : List ℤ) : behind 0 l = l := List.filter_eq_self.mpr fun _ _ => rfl

theorem mem_behind {x : ℤ} (ha : 0 < a) : x ∈ behind a l ↔ x ∈ l ∧ a < x := by
  rw [behind, List.mem_filter, Bool.or_eq_true, decide_eq_true_iff, decide_eq_true_iff]
  refine and_congr_right fun _ => ⟨fun h => h.resolve_left (not_le.mpr ha), .inr⟩

/-- A later cursor leaves part of what an earlier one does. -/
theorem behind_behind (hb : 0 < b) (h : a ≤ 0 ∨ a < b) : behind b l = (behind a l).filter fun x => b < x := by
  rw [behind, behind, List.filter_filter]
  refine List.filter_congr fun x _ => ?_
  rw [Bool.eq_iff_iff]
  simp only [Bool.or_eq_true, Bool.and_eq_true, decide_eq_true_iff]
  omega

theorem getLast?_take (b : ℤ) (back : List ℤ) (h : front.length + 1 = k) :
    (front ++ b :: back).take k = front ++ [b] ∧ ((front ++ b :: back).take k).getLast? = some b ∧
      k ≤ (front ++ b :: back).length := by
  have htake : (front ++ b :: back).take k = front ++ [b] := by
    rw [← h, List.take_length_add_append, List.take_succ_cons, List.take_zero]
  refine ⟨htake, by rw [htake]; simp, ?_⟩
  rw [List.length_append, List.length_cons]
  omega

/-- A list that fills a page, cut at the end of the page. -/
theorem exists_cut (hk : 0 < k) (h : k ≤ l.length) : ∃ front b back, l = front ++ b :: back ∧ front.length + 1 = k := by
  have hlt : k - 1 < l.length := by omega
  refine ⟨l.take (k - 1), l[k - 1], l.drop k, ?_, by rw [List.length_take]; omega⟩
  have hdrop : l.drop (k - 1) = l[k - 1] :: l.drop k := by
    rw [List.drop_eq_getElem_cons hlt, Nat.sub_add_cancel hk]
  rw [← hdrop, List.take_append_drop]

/-- One page, from the list that its cursor leaves. -/
theorem Keyset.cases (h : Keyset page next items ok k l) {p : π} (hp : page a = some p) :
    items p = (behind a l).take k ∧
      ((behind a l).length < k ∧ next p = none ∨ ∃ front b back, behind a l = front ++ b :: back ∧
        front.length + 1 = k ∧ next p = some b ∧ items p = front ++ [b]) := by
  have hok : ∀ x ∈ (behind a l).take k, ok x := by
    by_contra hno
    push Not at hno
    rw [h.fails a hno] at hp
    cases hp
  obtain ⟨p', hp', hitems, hnext⟩ := h.reads a hok
  rw [hp] at hp'
  obtain rfl := Option.some.inj hp'
  refine ⟨hitems, ?_⟩
  by_cases hlen : k ≤ (behind a l).length
  · obtain ⟨front, b, back, hcut, hfront⟩ := exists_cut h.pos hlen
    rw [hcut] at hitems hnext
    obtain ⟨htake, hlast, hle⟩ := getLast?_take b back hfront
    rw [if_pos hle, hlast] at hnext
    exact .inr ⟨front, b, back, hcut, hfront, hnext, hitems.trans htake⟩
  · rw [if_neg hlen] at hnext
    exact .inl ⟨not_le.mp hlen, hnext⟩

/-- Only readable numbers are shown. -/
theorem Keyset.readable (h : Keyset page next items ok k l) (hw : Walk page next a ps) :
    ∀ x ∈ ps.flatMap items, ok x := by
  have hone : ∀ {a p}, page a = some p → ∀ x ∈ items p, ok x := fun {a p} hp x hx => by
    rw [(h.cases hp).1] at hx
    by_contra hno
    rw [h.fails a ⟨x, hx, hno⟩] at hp
    cases hp
  induction hw with
  | last hp _ => simpa using hone hp
  | more hp _ _ ih =>
    intro x hx
    rw [List.flatMap_cons, List.mem_append] at hx
    exact hx.elim (hone hp x) (ih x)

/-- What is shown behind a cursor is above it. -/
theorem Keyset.above (h : Keyset page next items ok k l) (hw : Walk page next a ps) (ha : 0 < a) :
    ∀ x ∈ ps.flatMap items, a < x := by
  have hone : ∀ {a p}, 0 < a → page a = some p → ∀ x ∈ items p, a < x := fun {a p} ha hp x hx => by
    rw [(h.cases hp).1] at hx
    exact ((mem_behind ha).mp (List.mem_of_mem_take hx)).2
  induction hw with
  | last hp _ => simpa using hone ha hp
  | @more a b p ps hp hn _ ih =>
    have hb : a < b := by
      obtain ⟨-, ⟨-, hnone⟩ | ⟨front, c, back, -, -, hsome, hitems⟩⟩ := h.cases hp
      · rw [hn] at hnone
        cases hnone
      · rw [hn] at hsome
        obtain rfl := Option.some.inj hsome
        exact hone ha hp b (by rw [hitems]; simp)
    intro x hx
    rw [List.flatMap_cons, List.mem_append] at hx
    exact hx.elim (hone ha hp x) fun hx => hb.trans (ih (ha.trans hb) x hx)

/-- A page shows the first number that its cursor leaves. -/
theorem Keyset.shows_head (h : Keyset page next items ok k l) (hw : Walk page next a ps) {y : ℤ}
    (hy : (behind a l).head? = some y) : y ∈ ps.flatMap items := by
  have hone : ∀ {p}, page a = some p → y ∈ items p := fun {p} hp => by
    obtain ⟨t, ht⟩ := List.head?_eq_some_iff.mp hy
    obtain ⟨k, rfl⟩ := Nat.exists_eq_succ_of_ne_zero h.pos.ne'
    rw [(h.cases hp).1, ht, List.take_succ_cons]
    exact List.mem_cons_self
  cases hw with
  | last hp _ => simpa using hone hp
  | more hp _ _ =>
    rw [List.flatMap_cons]
    exact List.mem_append_left _ (hone hp)

/-- A page that hands out a cursor ends with it, and the cursor moves forward. -/
theorem Keyset.step (h : Keyset page next items ok k l) {p : π} (hp : page a = some p) (hn : next p = some b) :
    ∃ front rest, behind a l = front ++ b :: rest ∧ front.length + 1 = k ∧ items p = front ++ [b] ∧
    (a ≤ 0 ∨ a < b) := by
  obtain ⟨-, ⟨-, hnone⟩ | ⟨front, c, rest, hcut, hfront, hsome, hitems⟩⟩ := h.cases hp
  · rw [hn] at hnone
    cases hnone
  rw [hn] at hsome
  obtain rfl := Option.some.inj hsome
  refine ⟨front, rest, hcut, hfront, hitems, (le_or_gt a 0).imp_right fun ha => ?_⟩
  have hb : b ∈ behind a l := by
    rw [hcut]
    simp
  exact ((mem_behind ha).mp hb).2

/-- One page more at the front. -/
theorem Boundaries.cons (hfront : front.length + 1 = k) (hpos : 0 < b) (hbelow : ∀ x ∈ front, x < b)
    (habove : ∀ x ∈ rest, b < x) (h : Boundaries k rest) : Boundaries k (front ++ b :: rest) := by
  intro front' c back hcut hdvd
  rcases Nat.lt_or_ge front.length front'.length with hlt | hge
  · -- a later page: the boundary is one of the rest
    have hpre : front ++ [b] <+: front' :=
      List.prefix_of_prefix_length_le ⟨rest, by simp⟩ (hcut ▸ List.prefix_append front' (c :: back))
        (by simpa using hlt)
    obtain ⟨mid, rfl⟩ := hpre
    have hrest : rest = mid ++ c :: back := by simpa using hcut
    have hdvd : k ∣ mid.length + 1 := by
      have hsum : (front ++ [b] ++ mid).length + 1 = mid.length + 1 + k := by
        simp only [List.length_append, List.length_singleton]
        omega
      rw [hsum] at hdvd
      exact (Nat.dvd_add_left dvd_rfl).mp hdvd
    obtain ⟨hc, hmid, hafter⟩ := h mid c back hrest hdvd
    have hbc : b < c := habove c (by rw [hrest]; simp)
    refine ⟨hc, fun x hx => ?_, hafter⟩
    simp only [List.mem_append, List.mem_singleton] at hx
    rcases hx with (hx | rfl) | hx
    · exact (hbelow x hx).trans hbc
    · exact hbc
    · exact hmid x hx
  · have hlen : front.length = front'.length := by
      have := Nat.le_of_dvd (Nat.succ_pos _) hdvd
      omega
    obtain ⟨rfl, htail⟩ := List.append_inj hcut hlen
    obtain ⟨rfl, rfl⟩ := List.cons.inj htail
    exact ⟨hpos, hbelow, habove⟩

/-- A cursor that lets the walk go on as it should is a positive number. -/
theorem Keyset.cursor_pos (h : Keyset page next items ok k l) (hcut : behind a l = front ++ b :: rest)
    (hab : a ≤ 0 ∨ a < b) (hw : Walk page next b ps) (hperm : (ps.flatMap items).Perm rest) : 0 < b := by
  by_contra hle
  -- otherwise neither cursor leaves anything out, and the first number is shown again
  have hnone : ∀ {c : ℤ}, c ≤ 0 → behind c l = l := fun {c} hc => List.filter_eq_self.mpr fun x _ => by simp [hc]
  rw [hnone (by omega)] at hcut
  obtain ⟨y, hy⟩ : ∃ y, l.head? = some y := by
    rw [← Option.isSome_iff_exists, List.isSome_head?, hcut]
    simp
  have hin : y ∈ rest := hperm.mem_iff.mp (h.shows_head hw (by rw [hnone (not_lt.mp hle)]; exact hy))
  have hnodup := h.nodup
  rw [hcut] at hy hnodup
  cases front with
  | nil =>
    obtain rfl : b = y := by simpa using hy
    exact (List.nodup_cons.mp hnodup).1 hin
  | cons z front =>
    obtain rfl : z = y := by simpa using hy
    exact (List.nodup_cons.mp hnodup).1 (List.mem_append_right _ (List.mem_cons_of_mem _ hin))

/-- A walk that shows what its cursor leaves, each number once, has its pages at the right places. -/
theorem Keyset.boundaries (h : Keyset page next items ok k l) (hback : behind a l = back) (hw : Walk page next a ps)
    (hperm : (ps.flatMap items).Perm back) : Boundaries k back := by
  induction hw generalizing back with
  | last hp hn =>
    obtain ⟨-, ⟨hshort, -⟩ | ⟨_, _, _, _, _, hsome, _⟩⟩ := h.cases hp
    · rintro front b rest rfl hdvd
      rw [hback, List.length_append, List.length_cons] at hshort
      exact absurd (Nat.le_of_dvd (Nat.succ_pos _) hdvd) (by omega)
    · rw [hn] at hsome
      cases hsome
  | @more a b p ps hp hn hw ih =>
    obtain ⟨front, rest, hcut, hfront, hitems, hab⟩ := h.step hp hn
    obtain rfl := hback.symm.trans hcut
    rw [List.flatMap_cons, hitems, List.append_assoc, List.perm_append_left_iff, List.singleton_append,
      List.perm_cons] at hperm
    have hnodup : (front ++ b :: rest).Nodup := hback ▸ h.nodup.filter _
    obtain ⟨-, -, hdisj⟩ := List.nodup_append.mp hnodup
    have hpos := h.cursor_pos hback hab hw hperm
    have habove : ∀ x ∈ rest, b < x := fun x hx => h.above hw hpos x (hperm.mem_iff.mpr hx)
    have hkept : rest.filter (fun x => b < x) = rest := List.filter_eq_self.mpr fun x hx => by simpa using habove x hx
    have hnext : behind b l = front.filter (fun x => b < x) ++ rest := by
      rw [behind_behind hpos hab, hback, List.filter_append, List.filter_cons_of_neg (by simp), hkept]
    -- a number of this page above the cursor would be shown again
    have hnil : front.filter (fun x => b < x) = [] := by
      cases hf : front.filter (fun x => b < x) with
      | nil => rfl
      | cons y ys =>
        have hy : y ∈ front := List.mem_of_mem_filter (hf ▸ List.mem_cons_self)
        have hin := hperm.mem_iff.mp (h.shows_head hw (by rw [hnext, hf]; rfl))
        exact absurd rfl (hdisj y hy y (List.mem_cons_of_mem _ hin))
    have hbelow : ∀ x ∈ front, x < b := fun x hx => by
      have hle : x ≤ b := by simpa using List.filter_eq_nil_iff.mp hnil x hx
      exact lt_of_le_of_ne hle (hdisj x hx b List.mem_cons_self)
    rw [hnil, List.nil_append] at hnext
    exact .cons hfront hpos hbelow habove (ih hnext hperm)

/-- **Keyset.** Following the cursors shows every number once exactly if all can be read and every page ends with a
number that parts what is before it from what is after it. -/
theorem Keyset.complete_iff (h : Keyset page next items ok k l) :
    (∃ ps, Walk page next 0 ps ∧ (ps.flatMap items).Perm l) ↔ (∀ x ∈ l, ok x) ∧ Boundaries k l := by
  constructor
  · rintro ⟨ps, hw, hperm⟩
    exact ⟨fun x hx => h.readable hw x (hperm.mem_iff.mpr hx), h.boundaries (behind_zero l) hw hperm⟩
  · rintro ⟨hok, hb⟩
    have hread : ∀ {a}, ∀ x ∈ (behind a l).take k, ok x := fun x hx =>
      hok x (List.mem_of_mem_filter (List.mem_of_mem_take hx))
    -- at each cursor a suffix is left, cut off at the end of a page
    have hstep : ∀ a, (∃ front, l = front ++ behind a l ∧ k ∣ front.length) → ∃ p, page a = some p ∧
        (next p = none ∧ items p = behind a l ∨ ∃ b, next p = some b ∧
          (∃ front, l = front ++ behind b l ∧ k ∣ front.length) ∧ (behind b l).length < (behind a l).length ∧
          behind a l = items p ++ behind b l) := by
      rintro a ⟨front, hl, hdvd⟩
      obtain ⟨p, hp, -, -⟩ := h.reads a hread
      refine ⟨p, hp, ?_⟩
      obtain ⟨hitems, ⟨hshort, hnone⟩ | ⟨mid, b, back, hcut, hmid, hnext, hitems'⟩⟩ := h.cases hp
      · exact .inl ⟨hnone, by rw [hitems, List.take_of_length_le hshort.le]⟩
      right
      have hl' : l = (front ++ mid) ++ b :: back := by rw [List.append_assoc, ← hcut, ← hl]
      have hdvd' : k ∣ (front ++ mid).length + 1 := by
        rw [List.length_append, add_assoc, hmid]
        exact dvd_add hdvd dvd_rfl
      obtain ⟨hpos, hbefore, hafter⟩ := hb _ _ _ hl' hdvd'
      have hleft : behind b l = back := by
        rw [hl', behind, List.filter_append, List.filter_cons_of_neg (by simp [hpos])]
        rw [List.filter_eq_nil_iff.mpr fun x hx => by simp [hpos, (hbefore x hx).le], List.nil_append]
        exact List.filter_eq_self.mpr fun x hx => by simp [hafter x hx]
      refine ⟨b, hnext, ⟨front ++ mid ++ [b], by rw [hleft, hl']; simp, ?_⟩, ?_, ?_⟩
      · rw [List.length_append]
        exact hdvd'
      · rw [hleft, hcut, List.length_append, List.length_cons]
        omega
      · rw [hleft, hcut, hitems']
        simp
    obtain ⟨ps, hw, hitems⟩ := exists_walk _ (fun a => (behind a l).length) hstep ⟨[], (behind_zero l).symm, dvd_zero k⟩
    exact ⟨ps, hw, by rw [hitems, behind_zero]⟩

end Keyset

end Messq.Lib
