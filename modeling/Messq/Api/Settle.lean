import Messq.Broker

/-! # The settle endpoints

`/v1/ack`, `/v1/nak`, `/v1/term` and `/v1/extend` are one handler. A request names its tokens in one of three
spellings; a batch spelling answers 200 with a result for each token, and a request spelled with the single
`token` projects its one result onto the HTTP status. -/

namespace Messq

/-! ## Requests -/

/-- One item of the batch form. -/
structure SettleItemReq where
  token : Bytes := []
  delayMs : Option ℤ := none
  reason : Bytes := []
  deriving DecidableEq

/-- A decoded settle request; an absent field has its zero value. -/
structure SettleReq where
  token : Bytes := []
  delayMs : Option ℤ := none
  tokens : List Bytes := []
  items : List SettleItemReq := []
  deriving DecidableEq

/-- The wire's word for an outcome. -/
inductive WireResult
  | ok | stale | unknown
  deriving DecidableEq

inductive WireReason
  | none | malformedToken | attemptFence | generationFence | noLiveDelivery
  | planner (r : Refusal)
  deriving DecidableEq

structure SettleItemResult where
  token : Bytes
  result : WireResult
  reason : WireReason := .none
  tokenAttempt : ℤ := 0
  currentAttempt : ℤ := 0
  deriving DecidableEq

structure SettleResponse where
  results : List SettleItemResult
  ok : ℕ
  stale : ℕ
  unknown : ℕ
  deriving DecidableEq

/-! ## Errors -/

/-- The codes a settle request can be answered with. -/
inductive Code
  | badRequest | badSubject | invalidToken | notFound | conflict | staleAck | tooLarge | streamFull | readOnly
  | commitUnknown | internal
  deriving DecidableEq

/-- `codeStatus`. -/
def Code.status : Code → ℕ
  | .badRequest | .badSubject | .invalidToken => 400
  | .notFound => 404
  | .conflict | .staleAck => 409
  | .tooLarge => 413
  | .internal => 500
  | .readOnly | .commitUnknown => 503
  | .streamFull => 507

/-- `sentinelDefaults`. -/
def Sentinel.code : Sentinel → Code
  | .notFound => .notFound
  | .conflict => .conflict
  | .badRequest => .badRequest
  | .badSubject => .badSubject
  | .tooLarge => .tooLarge
  | .streamFull => .streamFull

/-- The failing returns of the handler. -/
inductive SettleError
  | noToken
  | ambiguous
  | negativeDelay (ms : ℤ)
  | delayNotNak
  | tokensNotAck (verb : Verb)
  | malformed (e : TokenErr)
  | batchTooLarge (n max : ℕ)
  /-- The one outcome of a single-token request. -/
  | stale (item : SettleItemResult)
  | missing (item : SettleItemResult)
  /-- The store refused the command, its outcome is unknown, the writer is latched, or the answer is of another
  command. -/
  | refused (r : Refusal)
  | failed
  | latched
  | unexpected
  deriving DecidableEq

def SettleError.code : SettleError → Code
  | .noToken | .ambiguous | .negativeDelay _ | .delayNotNak | .tokensNotAck _ => .badRequest
  | .malformed _ => .invalidToken
  | .batchTooLarge _ _ => .tooLarge
  | .stale _ => .staleAck
  | .missing _ => .notFound
  | .refused r => r.sentinel.code
  | .failed => .commitUnknown
  | .latched => .readOnly
  | .unexpected => .internal

inductive Response
  | json (out : SettleResponse)
  | error (e : SettleError)
  deriving DecidableEq

def Response.status : Response → ℕ
  | .json _ => 200
  | .error e => e.code.status

/-! ## Parsing -/

/-- One slot in request order: the text of the token and why it does not parse. -/
structure SettleSlot where
  raw : Bytes
  parseErr : Option TokenErr := none

/-- How many of the three spellings a request uses. -/
def SettleReq.given (req : SettleReq) : ℕ :=
  (if req.token ≠ [] then 1 else 0) + (if req.tokens ≠ [] then 1 else 0) + (if req.items ≠ [] then 1 else 0)

/-- The spelling with the single token. -/
def SettleReq.single (req : SettleReq) : Bool := req.token ≠ []

/-- The items a request spells; the single spelling has no reason. -/
def SettleReq.spelled (req : SettleReq) : List SettleItemReq :=
  if req.single then [{ token := req.token, delayMs := req.delayMs }]
  else if req.tokens ≠ [] then req.tokens.map fun tok => { token := tok }
  else req.items

/-- The checks of the shape against the verb. -/
def checkShape (verb : Verb) (req : SettleReq) : Except SettleError Unit :=
  if req.given = 0 then .error .noToken
  else if req.given > 1 then .error .ambiguous
  else match req.delayMs with
    | some ms => if ms < 0 then .error (.negativeDelay ms) else if verb ≠ .nak then .error .delayNotNak else .ok ()
    | none => .ok ()

/-- The checks of a batch spelling. -/
def checkBatch (verb : Verb) (req : SettleReq) : Except SettleError Unit :=
  if req.single then .ok ()
  else if req.tokens ≠ [] then if verb ≠ .ack then .error (.tokensNotAck verb) else .ok ()
  else if verb ≠ .nak ∧ req.items.any (fun it => it.delayMs.isSome) then .error .delayNotNak
  else .ok ()

/-- The item for the store: only a nak carries a delay. -/
def SettleItemReq.item (verb : Verb) (it : SettleItemReq) (token : Token) : SettleItem where
  token := token
  verb := verb
  delay := if verb = .nak then it.delayMs.map msDuration else none
  reason := it.reason

/-- `ParseToken`, with what it promises of the token. -/
def parseClientToken (raw : Bytes) : Except TokenErr { t : Token // t.Valid } :=
  match h : parseToken raw with
  | .ok t => .ok ⟨t, parseToken_valid h⟩
  | .error e => .error e

/-- The loop over the tokens: in a batch a malformed one keeps its slot and is not submitted. -/
def parseSlots (verb : Verb) (single : Bool) :
    List SettleItemReq → Except SettleError (List SettleSlot × List ClientItem)
  | [] => .ok ([], [])
  | it :: its =>
    match parseClientToken it.token with
    | .error e =>
      if single then .error (.malformed e)
      else do
        let (slots, items) ← parseSlots verb single its
        return (⟨it.token, some e⟩ :: slots, items)
    | .ok t => do
      let (slots, items) ← parseSlots verb single its
      return (⟨it.token, none⟩ :: slots, ⟨it.item verb t.1, t.2⟩ :: items)

/-- `parseSettleReq`. -/
def parseSettleReq (verb : Verb) (req : SettleReq) : Except SettleError (List SettleSlot × List ClientItem × Bool) := do
  checkShape verb req
  checkBatch verb req
  let (slots, items) ← parseSlots verb req.single req.spelled
  return (slots, items, req.single)

/-! ## Rendering -/

def ItemStatus.wire : ItemStatus → WireResult
  | .ok => .ok
  | .stale | .staleAck | .wrongGeneration => .stale
  | .unknown => .unknown

/-- `renderItem`. -/
def renderItem (ir : ItemResult) : SettleItemResult where
  token := ir.token.string
  result := ir.status.wire
  reason := match ir.status with
    | .staleAck => .attemptFence
    | .wrongGeneration => .generationFence
    | .unknown => (ir.err.map WireReason.planner).getD .noLiveDelivery
    | _ => .none
  tokenAttempt := ir.attempt
  currentAttempt := if ir.status = .staleAck then ir.currentAttempt else 0

/-- The slots in request order, each with the next result of the writer. -/
def renderSlots : List SettleSlot → List ItemResult → List SettleItemResult
  | [], _ => []
  | ⟨raw, some _⟩ :: slots, irs =>
    { token := raw, result := .unknown, reason := .malformedToken } :: renderSlots slots irs
  | ⟨_, none⟩ :: slots, ir :: irs => renderItem ir :: renderSlots slots irs
  | ⟨_, none⟩ :: _, [] => []

/-- `renderSettle`. -/
def renderSettle (slots : List SettleSlot) (irs : List ItemResult) : SettleResponse :=
  let results := renderSlots slots irs
  { results := results
    ok := results.countP fun r => r.result == .ok
    stale := results.countP fun r => r.result == .stale
    unknown := results.countP fun r => r.result == .unknown }

/-- The projection of a single outcome onto the status. -/
def projectSingle (out : SettleResponse) : Response :=
  match out.results with
  | [] => .json out
  | item :: _ => match item.result with
    | .ok => .json out
    | .stale => .error (.stale item)
    | .unknown => .error (.missing item)

/-- The answer to a submitted request. -/
def settleAnswer (slots : List SettleSlot) (single : Bool) : Outcome → Response
  | .ok (.settled res) _ =>
    let out := renderSettle slots res.results
    if single then projectSingle out else .json out
  | .ok _ _ => .error .unexpected
  | .refused r => .error (.refused r)
  -- the writer wraps an unmarked error in `ErrCommitUnknown`
  | .failed _ => .error .failed
  | .unavailable => .error .latched

/-- `handleSettle`, from the decoded request on. -/
def handleSettle (env : Env) (verb : Verb) (req : SettleReq) (b : Broker) : Broker × Response :=
  match parseSettleReq verb req with
  | .error e => (b, .error e)
  | .ok (slots, items, single) =>
    if items.length > env.opts.maxSettleBatch then (b, .error (.batchTooLarge items.length env.opts.maxSettleBatch))
    else
      let (b, out) := b.exec ⟨env, .settle items⟩
      (b, settleAnswer slots single out)

end Messq
