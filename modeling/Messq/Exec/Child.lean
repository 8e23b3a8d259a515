import Messq.Exec.Reason

/-! # Capturing a child's standard error

`captured` is the writer a child's standard error is copied to. Whatever the writes are, it holds the first or the last
bytes of them all and knows whether some are missing (`Captured.Holds`). A write is to report its whole length, since
the copy loop stops at a short one and the child then blocks on a full pipe; in tail mode a write that is longer than
the capacity reports the capacity (`capture_iff`). -/

namespace Messq.Exec

structure Captured where
  cap : ℕ
  mode : StderrMode
  /-- Head mode: the first bytes; tail mode: a sliding window. -/
  buf : Bytes := []
  /-- Bytes seen past the capacity, in head mode. -/
  droppedOff : ℕ := 0
  totalIn : ℕ := 0
  deriving DecidableEq

/-- What a write reports; `err` is nil. -/
structure Wrote where
  n : ℕ
  err : Option Bytes := none
  deriving DecidableEq

def newCaptured (capBytes : ℤ) (mode : StderrMode) : Captured := { cap := clampReasonCap capBytes, mode := mode }

/-- `writeLocked`. -/
def Captured.write (c : Captured) (p : Bytes) : Wrote × Captured :=
  let c := { c with totalIn := c.totalIn + p.length }
  if c.cap = 0 ∨ p.length = 0 then (⟨p.length, none⟩, c)
  else match c.mode with
    | .headStderr =>
      let free := c.cap - c.buf.length
      if free > 0 then
        let take := if free > p.length then p.length else free
        (⟨p.length, none⟩, { c with buf := c.buf ++ p.take take })
      else (⟨p.length, none⟩, { c with droppedOff := c.droppedOff + p.length })
    | .tailStderr =>
      let take := if p.length > c.cap then c.cap else p.length
      let p := p.drop (p.length - take)
      let buf := c.buf ++ p
      let extra := buf.length - c.cap
      (⟨take, none⟩, { c with buf := if extra > 0 then buf.drop extra else buf })

def Captured.truncated (c : Captured) : Bool :=
  match c.mode with
  | .headStderr => c.droppedOff > 0 || c.totalIn > c.buf.length
  | .tailStderr => c.totalIn > c.cap

def Captured.raw (c : Captured) : Bytes := c.buf

/-- The writes one after the other. -/
def Captured.writeAll : Captured → List Bytes → List Wrote × Captured
  | c, [] => ([], c)
  | c, p :: ps =>
    let (w, c) := c.write p
    let (ws, c) := c.writeAll ps
    (w :: ws, c)

/-- The end of a text that is to be kept. -/
def StderrMode.kept : StderrMode → ℕ → Bytes → Bytes
  | .headStderr, cap, s => s.take cap
  | .tailStderr, cap, s => s.rtake cap

/-- After `s` was written in all. -/
structure Captured.Holds (c : Captured) (s : Bytes) : Prop where
  total : c.totalIn = s.length
  buf : c.buf = c.mode.kept c.cap s
  dropped : c.droppedOff + c.buf.length ≤ c.totalIn

variable {c : Captured} {s : Bytes}

/-- The last bytes of a text are the last of the last bytes of its halves. -/
theorem rtake_append_rtake (n : ℕ) (s p : Bytes) : (s.rtake n ++ p.rtake n).rtake n = (s ++ p).rtake n := by
  simp only [List.rtake_eq_reverse_take_reverse, List.reverse_append, List.reverse_reverse, List.take_append,
    List.take_take,
    List.length_take, List.length_reverse]
  congr 3
  · omega
  · omega

theorem drop_extra (n : ℕ) (s : Bytes) : (if s.length - n > 0 then s.drop (s.length - n) else s) = s.rtake n := by
  split
  · rfl
  · rw [List.rtake, show s.length - n = 0 by omega, List.drop_zero]

/-- **Write.** The buffer goes on to hold the end that is to be kept. -/
theorem Captured.Holds.write (h : c.Holds s) (p : Bytes) :
    (c.write p).2.Holds (s ++ p) ∧ (c.write p).2.cap = c.cap ∧ (c.write p).2.mode = c.mode := by
  obtain ⟨htotal, hbuf, hdropped⟩ := h
  have hsum : c.totalIn + p.length = (s ++ p).length := by rw [htotal, List.length_append]
  unfold Captured.write
  dsimp only
  split
  case isTrue hnone =>
    refine ⟨⟨hsum, ?_, by dsimp only; omega⟩, rfl, rfl⟩
    rcases hnone with hcap | hp
    · rw [hbuf, hcap]
      cases c.mode <;> simp [StderrMode.kept]
    · rw [List.length_eq_zero_iff.mp hp, List.append_nil, hbuf]
  case isFalse hsome =>
    cases hmode : c.mode with
    | headStderr =>
      rw [hmode, StderrMode.kept] at hbuf
      have hlen : c.buf.length = min c.cap s.length := by rw [hbuf, List.length_take]
      dsimp only
      split
      case isTrue hfree =>
        have htake : (if c.cap - c.buf.length > p.length then p.length else c.cap - c.buf.length) =
            min (c.cap - s.length) p.length := by split <;> omega
        rw [htake]
        refine ⟨⟨hsum, ?_, ?_⟩, rfl, rfl⟩
        · show c.buf ++ _ = (s ++ p).take c.cap
          rw [hbuf, List.take_append, ← List.take_take, List.take_length]
        · simp only [List.length_append, List.length_take]
          omega
      case isFalse hfull =>
        refine ⟨⟨hsum, ?_, by dsimp only; omega⟩, rfl, rfl⟩
        show c.buf = (s ++ p).take c.cap
        rw [hbuf, List.take_append, show c.cap - s.length = 0 by omega, List.take_zero, List.append_nil]
    | tailStderr =>
      rw [hmode, StderrMode.kept] at hbuf
      have hcut : p.drop (p.length - if p.length > c.cap then c.cap else p.length) = p.rtake c.cap := by
        rw [List.rtake]
        congr 1
        split <;> omega
      dsimp only
      rw [hcut, drop_extra, hbuf, rtake_append_rtake]
      refine ⟨⟨hsum, rfl, ?_⟩, rfl, rfl⟩
      rw [hbuf] at hdropped
      simp only [List.rtake, List.length_drop, List.length_append] at hdropped ⊢
      omega

/-- **Run.** -/
theorem Captured.Holds.writeAll (h : c.Holds s) (ps : List Bytes) :
    (c.writeAll ps).2.Holds (s ++ ps.flatten) ∧ (c.writeAll ps).2.cap = c.cap ∧ (c.writeAll ps).2.mode = c.mode := by
  induction ps generalizing c s with
  | nil => exact ⟨by rwa [List.flatten_nil, List.append_nil], rfl, rfl⟩
  | cons p ps ih =>
    obtain ⟨hone, hcap, hmode⟩ := h.write p
    obtain ⟨hall, hcap', hmode'⟩ := ih hone
    rw [List.flatten_cons, ← List.append_assoc]
    exact ⟨hall, hcap'.trans hcap, hmode'.trans hmode⟩

/-- A text is cut exactly when it is longer than the capacity. -/
theorem Captured.Holds.truncated_iff (h : c.Holds s) : c.truncated = true ↔ c.cap < s.length := by
  obtain ⟨htotal, hbuf, hdropped⟩ := h
  cases hmode : c.mode with
  | headStderr =>
    have hlen : c.buf.length = min c.cap s.length := by rw [hbuf, hmode, StderrMode.kept, List.length_take]
    simp only [Captured.truncated, hmode, Bool.or_eq_true, decide_eq_true_eq]
    omega
  | tailStderr =>
    simp only [Captured.truncated, hmode, decide_eq_true_eq]
    omega

/-- The copy loop goes on after this write. -/
def Captured.Drains (c : Captured) (p : Bytes) : Prop := c.mode = .tailStderr → c.cap = 0 ∨ p.length ≤ c.cap

theorem write_reports_iff (c : Captured) (p : Bytes) : (c.write p).1 = ⟨p.length, none⟩ ↔ c.Drains p := by
  unfold Captured.write Captured.Drains
  dsimp only
  split
  case isTrue hnone => exact ⟨fun _ _ => by omega, fun _ => rfl⟩
  case isFalse hsome =>
    cases hmode : c.mode with
    | headStderr =>
      dsimp only
      split <;> simp
    | tailStderr =>
      simp only [Wrote.mk.injEq, and_true, forall_const]
      split <;> omega

theorem writeAll_reports_iff (h : c.Holds s) (ps : List Bytes) :
    (c.writeAll ps).1 = ps.map (fun p => ⟨p.length, none⟩) ↔ ∀ p ∈ ps, c.Drains p := by
  induction ps generalizing c s with
  | nil => simp [Captured.writeAll]
  | cons p ps ih =>
    obtain ⟨hone, hcap, hmode⟩ := h.write p
    rw [Captured.writeAll, List.map_cons, List.cons.injEq, write_reports_iff, ih hone, List.forall_mem_cons]
    simp only [Captured.Drains, hcap, hmode]

/-- What a capture of capacity `cap` is to do with the writes `ps`: each is reported whole, the end that is to be kept
is there, and it is known whether bytes are missing. -/
structure Captures (cap : ℕ) (mode : StderrMode) (ps : List Bytes) (r : List Wrote × Captured) : Prop where
  reports : r.1 = ps.map fun p => ⟨p.length, none⟩
  retained : r.2.raw = mode.kept cap ps.flatten
  truncated : r.2.truncated = true ↔ cap < ps.flatten.length

/-- **Capture.** It does so unless, in tail mode, a write is longer than the capacity. -/
theorem capture_iff (capBytes : ℤ) (mode : StderrMode) (ps : List Bytes) :
    Captures (clampReasonCap capBytes) mode ps ((newCaptured capBytes mode).writeAll ps) ↔
      (mode = .tailStderr → clampReasonCap capBytes = 0 ∨ ∀ p ∈ ps, p.length ≤ clampReasonCap capBytes) := by
  have hnew : (newCaptured capBytes mode).Holds [] :=
    ⟨rfl, by cases mode <;> simp [newCaptured, StderrMode.kept], le_rfl⟩
  obtain ⟨hholds, hcap, hmode⟩ := hnew.writeAll ps
  have hbuf := hholds.buf
  have htrunc := hholds.truncated_iff
  rw [hcap, hmode] at hbuf
  rw [hcap] at htrunc
  have hreports := writeAll_reports_iff hnew ps
  have hdrains : (∀ p ∈ ps, (newCaptured capBytes mode).Drains p) ↔
      (mode = .tailStderr → clampReasonCap capBytes = 0 ∨ ∀ p ∈ ps, p.length ≤ clampReasonCap capBytes) := by
    simp only [Captured.Drains, newCaptured]
    by_cases hzero : clampReasonCap capBytes = 0
    · simp [hzero]
    · exact ⟨fun h ht => .inr fun p hp => (h p hp ht).resolve_left hzero,
        fun h p hp ht => .inr ((h ht).resolve_left hzero p hp)⟩
  rw [← hdrains]
  exact ⟨fun h => hreports.mp h.reports, fun h => ⟨hreports.mpr h, hbuf, htrunc⟩⟩

/-- Three bytes into a tail of two are reported as two. -/
theorem long_write_reported_short :
    ((newCaptured 2 .tailStderr).writeAll [str "abc"]).1 = [⟨2, none⟩] ∧
      ¬ Captures (clampReasonCap 2) .tailStderr [str "abc"] ((newCaptured 2 .tailStderr).writeAll [str "abc"]) := by
  have hone : ((newCaptured 2 .tailStderr).writeAll [str "abc"]).1 = [⟨2, none⟩] := by decide
  refine ⟨hone, fun h => ?_⟩
  rw [h.reports] at hone
  exact absurd hone (by decide)

end Messq.Exec
