import Messq.Text

/-! # Housekeeping

The janitor's tick and the jobs that touch rows. A job gets a budget when its turn comes and is run again while it
reports more work and has time left. What the store answers, when a job's time is up and when the janitor is stopped is
given from outside: an answer says what a command returned and how the clock and the context stand from then until the
next command. A command beyond the given answers fails, so that the finite lists show a tick at every moment. -/

namespace Messq.Janitor

/-- What one store command returned, and whether the slice has expired and the context is cancelled after it. -/
structure Answer where
  rows : ℕ := 0
  more : Bool := false
  failed : Bool := false
  expired : Bool := false
  cancelled : Bool := false

/-- The rows a command touched; a failed one is rolled back. -/
def Answer.touched (a : Answer) : ℕ := if a.failed then 0 else a.rows

/-- A command that got no answer. -/
def lost : Answer := { failed := true }

/-! ## Budgets -/

/-- `Budget`; its deadline is in the answers. -/
structure Budget where
  rowsLeft : ℤ
  unlimited : Bool

/-- `Budget.Take`. -/
def Budget.take (b : Budget) (rows : ℤ) : Bool × Budget :=
  if rows ≤ 0 then (true, b)
  else if b.unlimited then (true, b)
  else if rows > b.rowsLeft then (false, b)
  else (true, { b with rowsLeft := b.rowsLeft - rows })

/-! ## Jobs -/

structure Result where
  rows : ℕ := 0
  more : Bool := false

/-- A call of `Run`: the answers it used, its result, or `none` for an error, and the answers left. -/
structure Ran where
  used : List Answer := []
  res : Option Result
  budget : Budget
  rest : List Answer

/-- The janitor runs the job again. -/
def Ran.goesOn (r : Ran) : Bool :=
  r.res.any Result.more && !r.used.getLast?.any Answer.expired && !r.used.getLast?.any Answer.cancelled

/-- `RetentionJob.Run`: the verdict of `Take` is dropped. -/
def runRetention (b : Budget) : List Answer → Ran
  | [] => { used := [lost], res := none, budget := b, rest := [] }
  | a :: rest =>
    if a.failed then { used := [a], res := none, budget := b, rest := rest }
    else { used := [a], res := some ⟨a.rows, a.more⟩, budget := (b.take a.rows).2, rest := rest }

/-- The loop of `ReaperJob.Run` and `EventsJob.Run`, which differ in what they report when they are cancelled. -/
def drain (moreOnCancel : Bool) : List Answer → ℕ → Budget → Bool → Ran
  | rest, rows, b, true => { res := some ⟨rows, moreOnCancel⟩, budget := b, rest := rest }
  | [], _, b, false => { used := [lost], res := none, budget := b, rest := [] }
  | a :: rest, rows, b, false =>
    if a.failed then { used := [a], res := none, budget := b, rest := rest }
    else if a.more && !a.expired && (b.take a.rows).1 then
      let r := drain moreOnCancel rest (rows + a.rows) (b.take a.rows).2 a.cancelled
      { r with used := a :: r.used }
    else { used := [a], res := some ⟨rows + a.rows, a.more && !a.expired⟩, budget := b, rest := rest }

/-- `ReaperJob.Run`. -/
def runReaper (b : Budget) (as : List Answer) : Ran := drain true as 0 b false

/-- `EventsJob.Run`. -/
def runEvents (b : Budget) (as : List Answer) : Ran := drain false as 0 b false

/-- `DedupJob`: how many streams a run may sweep, and where the next one starts. -/
structure DedupJob where
  limit : ℕ
  cursor : ℕ
  limit_pos : 0 < limit

def defaultDedupLimit : ℕ := 32

/-- `NewDedupJob`. -/
def newDedupJob (start : ℕ) (limit : ℤ) : DedupJob where
  limit := if limit ≤ 0 then defaultDedupLimit else limit.toNat
  cursor := start
  limit_pos := by
    unfold defaultDedupLimit
    split <;> omega

/-- The most streams the next run sweeps: a window ends with the list. -/
def DedupJob.bound (j : DedupJob) (n : ℕ) : ℕ := min j.limit (n - j.cursor)

/-- The streams of the current rotation window. -/
def DedupJob.window (j : DedupJob) (streams : List Bytes) : List Bytes :=
  (streams.drop j.cursor).take (j.bound streams.length)

/-- The loop of `DedupJob.Run` over its window, with the answers used and left. It ends with the window, after the first
sweep that fails and when the slice has expired. -/
def sweepWindow : List Bytes → List Answer → List Answer × List Answer
  | [], as => ([], as)
  | _ :: _, [] => ([lost], [])
  | _ :: names, a :: as =>
    if a.failed || a.expired then ([a], as) else (a :: (sweepWindow names as).1, (sweepWindow names as).2)

/-- A call of `DedupJob.Run`: the streams it swept, the job with its cursor moved, and what `Ran` says of it. -/
structure DedupRan where
  swept : List Bytes
  job : DedupJob
  used : List Answer
  res : Option Result
  rest : List Answer

/-- `DedupJob.Run`; `none` is a failed `ListStreams`. Its budget's rows are never asked for. -/
def DedupJob.run (j : DedupJob) (as : List Answer) : Option (List Bytes) → DedupRan
  | none => ⟨[], j, [], none, as⟩
  | some [] => ⟨[], j, [], some {}, as⟩
  | some (name :: names) =>
    let streams := name :: names
    let used := (sweepWindow (j.window streams) as).1
    let rest := (sweepWindow (j.window streams) as).2
    if used.getLast?.any Answer.failed then
      -- the next run resumes from the stream that failed
      let i := used.length - 1
      ⟨(j.window streams).take i, { j with cursor := j.cursor + i }, used, none, rest⟩
    else
      let swept := used.length
      ⟨(j.window streams).take swept, { j with cursor := (j.cursor + swept) % streams.length }, used,
        some ⟨(used.map Answer.rows).sum,
          swept == j.bound streams.length && decide (j.cursor + swept < streams.length)⟩, rest⟩

/-- The jobs of the janitor. The dedup job lists the streams in every run; the last three touch no rows and never report
more work. -/
inductive Job
  | retention | reaper | events
  | dedup (listings : List (Option (List Bytes))) (job : DedupJob)
  | checkpoint | vacuum | stats

/-- `Job.Run`, with the job as the call leaves it. -/
def Job.run (b : Budget) (as : List Answer) : Job → Job × Ran
  | .retention => (.retention, runRetention b as)
  | .reaper => (.reaper, runReaper b as)
  | .events => (.events, runEvents b as)
  | .dedup [] j => (.dedup [] j, { res := none, budget := b, rest := as })
  | .dedup (listing :: listings) j =>
    let r := j.run as listing
    (.dedup listings r.job, { used := r.used, res := r.res, budget := b, rest := r.rest })
  | job => (job, { res := some {}, budget := b, rest := as })

/-! ## The tick -/

/-- The inner loop of the tick: a job is run again while it reports more work, its time lasts and nothing is
cancelled. -/
def takeTurn : ℕ → Job → Budget → List Answer → List Answer
  | 0, _, _, _ => []
  | fuel + 1, job, b, as =>
    let (job', r) := job.run b as
    r.used ++ if r.goesOn then takeTurn fuel job' r.budget r.rest else []

/-- The commands of a tick over the due jobs, each with what the store would answer it. Every run that is followed by
another has used an answer. -/
def tick (maxRowsPerTick : ℤ) : List (Job × List Answer) → List Answer
  | [] => []
  | (job, as) :: due =>
    let turn := takeTurn (as.length + 1) job ⟨maxRowsPerTick, maxRowsPerTick ≤ 0⟩ as
    turn ++ if turn.getLast?.any Answer.cancelled then [] else tick maxRowsPerTick due

end Messq.Janitor
