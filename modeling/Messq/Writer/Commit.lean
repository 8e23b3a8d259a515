import Mathlib

/-! # The group commit

`commitBatch` applies a batch of requests in one transaction, each command behind a savepoint of its own, and answers
the callers. The database, the results, the events and the errors are arbitrary types; how the SQL statements, the hook
and the clock behave is the environment of the batch. -/

namespace Messq.Writer

/-- What the writer was doing when storage failed it. -/
inductive Op
  | begin | savepoint | apply | release | rollbackTo | commit
deriving DecidableEq, Repr

/-- The families of storage faults. -/
inductive FaultClass
  | eio | enospc | corrupt | unknown
deriving DecidableEq, Repr

/-- How the body of a command ends: with its result and events, with an error marked by `CmdErr`, with any other error,
or in a panic, here with the error `applyCommand` makes of it. -/
inductive Applied (ρ η ε : Type)
  | ok (res : ρ) (evs : List η)
  | rejected (err : ε)
  | failed (err : ε)
  | panicked (err : ε)
deriving DecidableEq, Repr

structure FatalError (ε : Type) where
  op : Op
  err : ε
  cls : FaultClass
  time : ℤ
  batch : ℕ
deriving DecidableEq, Repr

/-- The errors a caller is answered with. -/
inductive ReplyErr (ε : Type)
  | rejected (err : ε)
  | commitUnknown (op : Op) (cause : ε)
  | latched (fe : FatalError ε)
deriving DecidableEq, Repr

/-- A command, as the engine sees it. What a body that does not succeed has written is still in the transaction. -/
structure Cmd (δ ρ η ε : Type) where
  apply : ℤ → δ → δ × Applied ρ η ε

/-- A command on its way to the writer and back. `closes` counts the calls of `close(done)`. -/
structure Request (δ ρ η ε : Type) where
  cmd : Cmd δ ρ η ε
  res : Option ρ := none
  err : Option (ReplyErr ε) := none
  closes : ℕ := 0

/-- What `commitBatch` reads and writes of the writer. `db` is what is committed, `evCh` what the pump has not yet
handed to the sink. -/
structure State (δ η ε : Type) where
  db : δ
  lastNow : ℤ := 0
  latched : Option (FatalError ε) := none
  rwOpen : Bool := true
  fatalC : List (FatalError ε) := []
  evCh : List (List η) := []

/-- How the steps of one batch turn out; `none` is the nil error. A COMMIT that fails may have landed all the same. -/
structure Env (ε : Type) where
  clock : ℤ
  failedAt : ℤ
  classify : ε → FaultClass
  beginTx : Option ε := none
  savepoint : ℕ → Option ε := fun _ => none
  release : ℕ → Option ε := fun _ => none
  rollbackTo : ℕ → Option ε := fun _ => none
  beforeCommit : Option ε := none
  commit : Option ε := none
  landed : Bool := false

/-- A batch after `commitBatch`. A panic stops it where it was, and the process with it. -/
structure Answered (δ ρ η ε : Type) where
  writer : State δ η ε
  batch : List (Request δ ρ η ε)
  panicked : Bool

def eventBufferBatches : ℕ := 64

section Commit

variable {δ ρ η ε : Type}

/-- The request `Do` makes of a command. -/
def Request.new (cmd : Cmd δ ρ η ε) : Request δ ρ η ε := { cmd }

@[simp] theorem Request.new_cmd (cmd : Cmd δ ρ η ε) : (Request.new cmd).cmd = cmd := rfl

@[simp] theorem Request.new_err (cmd : Cmd δ ρ η ε) : (Request.new cmd).err = none := rfl

@[simp] theorem Request.new_closes (cmd : Cmd δ ρ η ε) : (Request.new cmd).closes = 0 := rfl

def Request.close (r : Request δ ρ η ε) : Request δ ρ η ε := { r with closes := r.closes + 1 }

/-- Closes `done` of the requests that `f` picks, each as `f` leaves it, in order. Closing a closed channel panics. -/
def closeAll (f : Request δ ρ η ε → Option (Request δ ρ η ε)) :
    List (Request δ ρ η ε) → List (Request δ ρ η ε) × Bool
  | [] => ([], false)
  | r :: rs => match f r with
    | none => (r :: (closeAll f rs).1, (closeAll f rs).2)
    | some r' => if r.closes = 0 then (r'.close :: (closeAll f rs).1, (closeAll f rs).2) else (r'.close :: rs, true)

def failAll (batch : List (Request δ ρ η ε)) (err : ReplyErr ε) : List (Request δ ρ η ε) × Bool :=
  closeAll (fun r => some { r with err := some err }) batch

/-- The replies after COMMIT; the rejected callers have left already. -/
def replyAll (batch : List (Request δ ρ η ε)) : List (Request δ ρ η ε) × Bool :=
  closeAll (fun r => if r.err.isNone then some r else none) batch

/-- The first fault wins. -/
def State.latch (w : State δ η ε) (fe : FatalError ε) : State δ η ε :=
  if w.latched.isSome then w else { w with latched := some fe, fatalC := w.fatalC ++ [fe] }

/-- The teardown of a batch: latch, close the pool, answer everybody. `doomedCommit` is this with the operation
`commit`. -/
def doomed (env : Env ε) (w : State δ η ε) (batch : List (Request δ ρ η ε)) (op : Op) (cause : ε) : Answered δ ρ η ε :=
  let w := w.latch ⟨op, cause, env.classify cause, env.failedAt, batch.length⟩
  let (batch, panicked) := failAll batch (.commitUnknown op cause)
  ⟨{ w with rwOpen := false }, batch, panicked⟩

def doomedCommit (env : Env ε) (w : State δ η ε) (batch : List (Request δ ρ η ε)) (cause : ε) : Answered δ ρ η ε :=
  doomed env w batch .commit cause

/-- The batch's clock does not run backwards. -/
def batchNow (env : Env ε) (w : State δ η ε) : ℤ := max env.clock w.lastNow

/-- A panic of the body is an error that is not marked. -/
def applyCommand (c : Cmd δ ρ η ε) (now : ℤ) (db : δ) : δ × Applied ρ η ε :=
  match c.apply now db with
  | (db', .panicked err) => (db', .failed err)
  | out => out

/-- What becomes of one command of the batch. -/
inductive Turn (ρ η ε : Type)
  | kept (res : ρ) (evs : List η)
  | rejected (err : ε)
  | broken (op : Op) (cause : ε)
deriving DecidableEq, Repr

/-- The statements around the `i`-th command. -/
def turn (env : Env ε) (i : ℕ) (out : Applied ρ η ε) : Turn ρ η ε :=
  match env.savepoint i with
  | some e => .broken .savepoint e
  | none => match out with
    | .ok res evs => match env.release i with
      | some e => .broken .release e
      | none => .kept res evs
    | .failed e => .broken .apply e
    | .panicked e => .broken .apply e
    | .rejected err => match env.rollbackTo i with
      | some e => .broken .rollbackTo e
      | none => match env.release i with
        | some e => .broken .release e
        | none => .rejected err

/-- How the loop over the batch ends. -/
inductive Ended (δ η ε : Type)
  | through (db : δ) (events : List η)
  | doomed (op : Op) (cause : ε)
  | panicked

/-- The loop of `commitBatch`, from the `i`-th request on. ROLLBACK TO restores the database of the savepoint. -/
def commitLoop (env : Env ε) (now : ℤ) :
    ℕ → δ → List η → List (Request δ ρ η ε) → List (Request δ ρ η ε) × Ended δ η ε
  | _, db, events, [] => ([], .through db events)
  | i, db, events, r :: rs =>
    let (db', out) := applyCommand r.cmd now db
    match turn env i out with
    | .broken op cause => (r :: rs, .doomed op cause)
    | .kept res evs =>
      let (rs', o) := commitLoop env now (i + 1) db' (events ++ evs) rs
      ({ r with res := some res } :: rs', o)
    | .rejected err =>
      let r' := { r with err := some (.rejected err) }.close
      if r.closes = 0 then
        let (rs', o) := commitLoop env now (i + 1) db events rs
        (r' :: rs', o)
      else (r' :: rs, .panicked)

/-- The hand-off to the pump never blocks: events that do not fit are dropped. -/
def State.fanOut (w : State δ η ε) (events : List η) : State δ η ε :=
  if events ≠ [] ∧ w.evCh.length < eventBufferBatches then { w with evCh := w.evCh ++ [events] } else w

def commitBatch (env : Env ε) (w : State δ η ε) (batch : List (Request δ ρ η ε)) : Answered δ ρ η ε :=
  match w.latched with
  | some fe =>
    let (batch, panicked) := failAll batch (.latched fe)
    ⟨w, batch, panicked⟩
  | none =>
    let now := batchNow env w
    let w := { w with lastNow := now }
    match env.beginTx with
    | some e => doomed env w batch .begin e
    | none => match commitLoop env now 0 w.db [] batch with
      | (batch, .panicked) => ⟨w, batch, true⟩
      | (batch, .doomed op cause) => doomed env w batch op cause
      | (batch, .through db events) => match env.beforeCommit with
        | some e => doomedCommit env w batch e
        | none => match env.commit with
          | some e => doomedCommit env (if env.landed then { w with db := db } else w) batch e
          | none =>
            let w := { w with db := db }
            match replyAll batch with
            | (batch, true) => ⟨w, batch, true⟩
            | (batch, false) => ⟨w.fanOut events, batch, false⟩

end Commit

end Messq.Writer
