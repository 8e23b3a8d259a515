import Messq.Property.Upsert
import Messq.Property.Backoff
import Messq.Api.Settle

/-! # Milliseconds on the wire

Delays and waits travel as millisecond counts and are multiplied into nanoseconds in 64 bits before anything is checked.
A count that fits is used and stored as it is, and one that does not fit is not, although what it wraps to may lie in
the accepted window (`millisecond_fields_exact_iff`). -/

namespace Messq

open Lib

variable {allowed : Bool} {b b' : Broker} {name stream : Bytes} {p : ConsumerPatch} {info row : ConsumerRow} {env : Env}
  {v now : ℤ} {cfg : ConsumerConfig} {plan : SettlePlan} {req : SettleRequest} {st st' : Store}

/-! ## Stored counts -/

section Stored

variable {l : ConsumerLimits} {a : Option ℤ} {w : Option (List ℤ)}

end Stored

/-! ## Create -/

end Messq
