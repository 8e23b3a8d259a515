import Messq.Property.Answer
import Messq.Run

/-! # The group commit is invisible

`oneByOne` applies commands one after another, with a rejected one leaving nothing behind; it knows nothing of
transactions, savepoints or replies. A batch that commits leaves the database of `oneByOne` and answers the callers with
its results (`group_commit_invisible`). The broker carries out each request in a transaction of its own, which is
`oneByOne` too; so a batch of the writer leaves the store of the broker's run and gives the same answers
(`commitBatch_runs`). -/

namespace Messq.Writer

variable {δ ρ η ε : Type}

/-- A command on its own: a rejected one has no effect, and an error that is not marked has no outcome here. -/
def Cmd.alone (c : Cmd δ ρ η ε) (now : ℤ) (db : δ) : Option (δ × Except ε ρ) :=
  match c.apply now db with
  | (db', .ok res _) => some (db', .ok res)
  | (_, .rejected err) => some (db, .error err)
  | (_, .failed _) => none
  | (_, .panicked _) => none

/-- The commands one after another at one time. -/
def oneByOne (now : ℤ) : δ → List (Cmd δ ρ η ε) → Option (δ × List (Except ε ρ))
  | db, [] => some (db, [])
  | db, c :: cs => do
    let (db, a) ← c.alone now db
    let (db, as) ← oneByOne now db cs
    return (db, a :: as)

/-- Every statement of the batch returns nil. -/
structure Env.Obliges (env : Env ε) : Prop where
  beginTx : env.beginTx = none
  savepoint : ∀ i, env.savepoint i = none
  release : ∀ i, env.release i = none
  rollbackTo : ∀ i, env.rollbackTo i = none
  beforeCommit : env.beforeCommit = none
  commit : env.commit = none

/-- What `Do` returns of an answered request. -/
def Request.returns (r : Request δ ρ η ε) : Option ρ × Option (ReplyErr ε) := (r.res, r.err)

/-- A result or a rejection, as `Do` returns it. -/
def returned : Except ε ρ → Option ρ × Option (ReplyErr ε)
  | .ok res => (some res, none)
  | .error err => (none, some (.rejected err))

section Loop

variable {env : Env ε} {now : ℤ}

theorem oneByOne_cons {db db' : δ} {c : Cmd δ ρ η ε} {cs : List (Cmd δ ρ η ε)} {as : List (Except ε ρ)} :
    oneByOne now db (c :: cs) = some (db', as) ↔
      ∃ db₁ a as', c.alone now db = some (db₁, a) ∧ oneByOne now db₁ cs = some (db', as') ∧ as = a :: as' := by
  simp only [oneByOne, Option.bind_eq_bind, Option.bind_eq_some_iff, Option.pure_def, Option.some.injEq, Prod.exists,
    Prod.mk.injEq]
  constructor
  · rintro ⟨db₁, a, ha, _, as', has, rfl, rfl⟩
    exact ⟨db₁, a, as', ha, has, rfl⟩
  · rintro ⟨db₁, a, as', ha, has, rfl⟩
    exact ⟨db₁, a, ha, db', as', has, rfl, rfl⟩

/-- A request the loop has gone past: closed exactly if it was rejected. -/
def Request.Passed (r : Request δ ρ η ε) (a : Except ε ρ) : Prop :=
  r.returns = returned a ∧ r.closes = if r.err.isSome then 1 else 0

/-- **Loop.** The loop over a batch does what the commands do one by one. -/
theorem commitLoop_oneByOne (ho : env.Obliges) {cmds : List (Cmd δ ρ η ε)} {as : List (Except ε ρ)} (i : ℕ) {db db' : δ}
    (events : List η) (h : oneByOne now db cmds = some (db', as)) :
    ∃ rs evs, commitLoop env now i db events (cmds.map Request.new) = (rs, .through db' evs) ∧
      List.Forall₂ Request.Passed rs as := by
  induction cmds generalizing i db events as with
  | nil =>
    cases h
    exact ⟨[], events, rfl, .nil⟩
  | cons c cs ih =>
    obtain ⟨db₁, a, as', ha, has, rfl⟩ := oneByOne_cons.mp h
    cases hout : c.apply now db with
    | mk db₂ out =>
      cases out with
      | ok res evs =>
        simp only [Cmd.alone, hout, Option.some.injEq, Prod.mk.injEq] at ha
        obtain ⟨rfl, rfl⟩ := ha
        obtain ⟨rs, es, hrs, hall⟩ := ih (i + 1) (events ++ evs) has
        refine ⟨{ Request.new c with res := some res } :: rs, es, ?_, .cons ⟨rfl, rfl⟩ hall⟩
        simp only [List.map_cons, commitLoop, Request.new_cmd, applyCommand, hout, turn, ho.savepoint, ho.release, hrs]
      | rejected err =>
        simp only [Cmd.alone, hout, Option.some.injEq, Prod.mk.injEq] at ha
        obtain ⟨rfl, rfl⟩ := ha
        obtain ⟨rs, es, hrs, hall⟩ := ih (i + 1) events has
        refine ⟨{ Request.new c with err := some (.rejected err) }.close :: rs, es, ?_, .cons ⟨rfl, rfl⟩ hall⟩
        simp only [List.map_cons, commitLoop, Request.new_cmd, Request.new_closes, applyCommand, hout,
          turn, ho.savepoint,
          ho.release, ho.rollbackTo, hrs, if_true]
      | failed err => simp [Cmd.alone, hout] at ha
      | panicked err => simp [Cmd.alone, hout] at ha

end Loop

/-- The replies after COMMIT close every request that is still open. -/
theorem replyAll_passed {rs : List (Request δ ρ η ε)} {as : List (Except ε ρ)} (h : List.Forall₂ Request.Passed rs as) :
    (replyAll rs).2 = false ∧ (replyAll rs).1.map Request.returns = as.map returned ∧
    ∀ r ∈ (replyAll rs).1, r.closes = 1 := by
  induction h with
  | nil => simp [replyAll, closeAll]
  | @cons r a rs as hr hall ih =>
    obtain ⟨hret, hcl⟩ := hr
    obtain ⟨hcalm, hmap, hones⟩ := ih
    unfold replyAll at hcalm hmap hones ⊢
    cases herr : r.err with
    | some e =>
      simp only [herr, Option.isSome_some, if_true] at hcl
      simp only [closeAll, herr, Option.isNone_some, Bool.false_eq_true, if_false, List.map_cons, hmap, hret,
        List.forall_mem_cons]
      exact ⟨hcalm, trivial, hcl, hones⟩
    | none =>
      simp only [herr, Option.isSome_none, Bool.false_eq_true, if_false] at hcl
      simp only [closeAll, herr, Option.isNone_none, if_true, hcl, List.map_cons, hmap, List.forall_mem_cons]
      refine ⟨hcalm, ?_, by simp [Request.close, hcl], hones⟩
      rw [show (Request.close r).returns = r.returns from rfl, hret]

/-- The batch has left `db` and returned `rets`, to each caller once. -/
structure Answered.Carries (out : Answered δ ρ η ε) (db : δ) (rets : List (Option ρ × Option (ReplyErr ε))) : Prop where
  db : out.writer.db = db
  returns : out.batch.map Request.returns = rets
  closes : ∀ r ∈ out.batch, r.closes = 1
  calm : out.panicked = false

/-- **Batch.** Where the statements succeed, a batch that has an outcome one by one has it together. -/
theorem commitBatch_oneByOne {env : Env ε} {w : State δ η ε} {cmds : List (Cmd δ ρ η ε)} {db : δ}
    {answers : List (Except ε ρ)} (hw : w.latched = none) (ho : env.Obliges)
    (h : oneByOne (batchNow env w) w.db cmds = some (db, answers)) :
    (commitBatch env w (cmds.map Request.new)).Carries db (answers.map returned) := by
  obtain ⟨rs, evs, hloop, hall⟩ := commitLoop_oneByOne ho 0 [] h
  obtain ⟨hcalm, hmap, hones⟩ := replyAll_passed hall
  have hreply : replyAll rs = ((replyAll rs).1, false) := by rw [← hcalm]
  unfold commitBatch
  simp only [hw, ho.beginTx, hloop, ho.beforeCommit, ho.commit]
  rw [hreply]
  refine ⟨?_, hmap, hones, rfl⟩
  simp only [State.fanOut]
  split <;> rfl

/-- **Main theorem.** If no command returns an unmarked error and the statements succeed, a batch leaves the database
and returns the results and errors of its commands applied one after another at the batch's time. -/
theorem group_commit_invisible (env : Env ε) (w : State δ η ε) (cmds : List (Cmd δ ρ η ε)) {db : δ}
    {answers : List (Except ε ρ)} (hw : w.latched = none) (ho : env.Obliges)
    (h : oneByOne (batchNow env w) w.db cmds = some (db, answers)) :
    (commitBatch env w (cmds.map Request.new)).writer.db = db ∧
    (commitBatch env w (cmds.map Request.new)).batch.map Request.returns = answers.map returned ∧
    (∀ r ∈ (commitBatch env w (cmds.map Request.new)).batch, r.closes = 1) ∧
    (commitBatch env w (cmds.map Request.new)).panicked = false := by
  have hc := commitBatch_oneByOne hw ho h
  exact ⟨hc.db, hc.returns, hc.closes, hc.calm⟩

/-- A command that is rejected after it has written. -/
def meddlingCmd : Cmd ℕ ℕ ℕ ℕ := ⟨fun _ db => (db + 100, .rejected 7)⟩

theorem group_commit_invisible_meddled :
    (commitBatch calmEnv { db := 0 } ([storedCmd, meddlingCmd, storedCmd].map Request.new)).writer.db = 2 ∧
    (commitBatch calmEnv { db := 0 } ([storedCmd, meddlingCmd, storedCmd].map Request.new)).batch.map Request.returns =
      [(some 0, none), (none, some (.rejected 7)), (some 1, none)] :=
  have h := group_commit_invisible calmEnv { db := 0 } [storedCmd, meddlingCmd, storedCmd] rfl
    ⟨rfl, fun _ => rfl, fun _ => rfl, fun _ => rfl, rfl, rfl⟩ (show _ = some (2, [.ok 0, .error 7, .ok 1]) from rfl)
  ⟨h.1, h.2.1⟩

end Messq.Writer

namespace Messq

open Lib

/-! ## The broker's requests -/

/-- A step of the broker as a command of the writer, which brings the time of its batch. -/
def Step.cmd (s : Step) : Writer.Cmd Store Reply Event Err where
  apply now st :=
    match command { s.env with now := now } s.req { st with carriers := [] } with
    | .ok (reply, st') => ({ st' with carriers := [] }, .ok reply st'.carriers)
    | .error (.refused r) => (st, .rejected (.refused r))
    | .error (.fault f) => (st, .failed (.fault f))

/-- The step at that time. -/
def Step.during (now : ℤ) (s : Step) : Step := ⟨{ s.env with now := now }, s.req⟩

/-- What a step of the broker answers, as the engine puts it. -/
def Outcome.answer : Outcome → Option (Except Err Reply)
  | .ok reply _ => some (.ok reply)
  | .refused r => some (.error (.refused r))
  | _ => none

/-- What `Do` returns of it. -/
def Outcome.returns (o : Outcome) : Option Reply × Option (Writer.ReplyErr Err) :=
  (o.answer.map Writer.returned).getD (none, none)

/-- A request outside the chunk loops is admitted by a writer that is not latched. -/
theorem admits_of_unlatched {b : Broker} {req : Request} (hl : b.latched = false) (hr : ∀ name, req ≠ .reapChunk name) :
    b.admits req = true := by
  cases req with
  | reapChunk name => exact absurd rfl (hr name)
  | _ => simp [Broker.admits, hl]

/-- **Step.** What the broker answers is the outcome of the command. -/
theorem exec_alone {now : ℤ} {s : Step} {b : Broker} {a : Except Err Reply} (hl : b.latched = false)
    (hr : ∀ name, s.req ≠ .reapChunk name) (h : (b.exec (s.during now)).2.answer = some a) :
    s.cmd.alone now b.store = some ((b.exec (s.during now)).1.store, a) ∧
    (b.exec (s.during now)).1.latched = false := by
  have ha : b.admits (s.during now).req = true := admits_of_unlatched hl hr
  cases hcmd : command { s.env with now := now } s.req { b.store with carriers := [] } with
  | ok p =>
    have hexec : command (s.during now).env (s.during now).req { b.store with carriers := [] } = _ := hcmd
    simp only [Broker.exec, ha, hexec, Bool.not_true, Bool.false_eq_true, if_false, Outcome.answer] at h
    cases h
    simp [Writer.Cmd.alone, Step.cmd, hcmd, Broker.exec, ha, hexec]
  | error e =>
    have hexec : command (s.during now).env (s.during now).req { b.store with carriers := [] } = _ := hcmd
    cases e with
    | refused r =>
      simp only [Broker.exec, ha, hexec, Bool.not_true, Bool.false_eq_true, if_false, Outcome.answer] at h
      cases h
      simp [Writer.Cmd.alone, Step.cmd, hcmd, Broker.exec, ha, hexec, hl]
    | fault f => simp [Broker.exec, ha, hexec, Outcome.answer] at h

/-- **Run.** A run of the broker that answers every request is its commands one by one. -/
theorem run_oneByOne {now : ℤ} {steps : List Step} {b : Broker} (hl : b.latched = false)
    (hr : ∀ s ∈ steps, ∀ name, s.req ≠ .reapChunk name)
    (h : ∀ v ∈ trace Broker.exec b (steps.map (Step.during now)), v.out.answer.isSome = true) :
    ∃ answers, Writer.oneByOne now b.store (steps.map Step.cmd) =
        some ((run Broker.exec b (steps.map (Step.during now))).store, answers) ∧
      answers.map Writer.returned = (trace Broker.exec b (steps.map (Step.during now))).map fun v => v.out.returns := by
  induction steps generalizing b with
  | nil => exact ⟨[], rfl, rfl⟩
  | cons s steps ih =>
    obtain ⟨a, ha⟩ := Option.isSome_iff_exists.mp (h _ List.mem_cons_self)
    have ha : (b.exec (s.during now)).2.answer = some a := ha
    obtain ⟨halone, hl₁⟩ := exec_alone hl (hr s List.mem_cons_self) ha
    obtain ⟨as, hrest, hret⟩ := ih hl₁ (fun x hx => hr x (List.mem_cons_of_mem _ hx)) fun v hv =>
      h v (List.mem_cons_of_mem _ hv)
    refine ⟨a :: as, Writer.oneByOne_cons.mpr ⟨_, a, as, halone, hrest, rfl⟩, ?_⟩
    rw [List.map_cons, hret]
    show _ = Outcome.returns (b.exec (s.during now)).2 :: _
    rw [Outcome.returns, ha]
    rfl

/-- **The writer carries out the broker's run.** Where the broker answers each of the requests, at the time of the batch
and each in a transaction of its own, the batch of the writer leaves the same store and gives the same answers. -/
theorem commitBatch_runs (env : Writer.Env Err) (w : Writer.State Store Event Err) (b : Broker) (steps : List Step)
    (hw : w.latched = none) (ho : env.Obliges) (hl : b.latched = false) (hdb : w.db = b.store)
    (hr : ∀ s ∈ steps, ∀ name, s.req ≠ .reapChunk name)
    (h : ∀ v ∈ trace Broker.exec b (steps.map (Step.during (Writer.batchNow env w))), v.out.answer.isSome = true) :
    (Writer.commitBatch env w ((steps.map Step.cmd).map Writer.Request.new)).Carries
      (run Broker.exec b (steps.map (Step.during (Writer.batchNow env w)))).store
      ((trace Broker.exec b (steps.map (Step.during (Writer.batchNow env w)))).map fun v => v.out.returns) := by
  obtain ⟨answers, hone, hret⟩ := run_oneByOne hl hr h
  rw [← hdb] at hone
  rw [← hret]
  exact Writer.commitBatch_oneByOne hw ho hone

/-- A stream is created and published to, and a publish to another one is refused. -/
def halfRefused : List Step :=
  [⟨.atMs 1, aCreate⟩, ⟨.atMs 2, aPublish⟩,
    ⟨.atMs 3, .publish (str "t") { subject := str "a", body := [] }⟩]

def calmWriter : Writer.Env Err where
  clock := 5000000
  failedAt := 6000000
  classify _ := .unknown

theorem commitBatch_runs_halfRefused :
    (Writer.commitBatch calmWriter { db := {} } ((halfRefused.map Step.cmd).map Writer.Request.new)).Carries
      (run Broker.exec {} (halfRefused.map (Step.during 5000000))).store
      ((trace Broker.exec {} (halfRefused.map (Step.during 5000000))).map fun v => v.out.returns) ∧
    (trace Broker.exec {} (halfRefused.map (Step.during 5000000))).map (fun v => v.out.returns.1.isSome) =
      [true, true, false] :=
  ⟨commitBatch_runs calmWriter { db := {} } {} halfRefused rfl ⟨rfl, fun _ => rfl, fun _ => rfl, fun _ => rfl, rfl, rfl⟩
    rfl rfl (by simp [halfRefused, aPublish, aCreate]) (by decide +kernel), by decide +kernel⟩

end Messq
