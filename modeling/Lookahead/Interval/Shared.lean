import Lookahead.Interval.Basic

/-!
This module contains the sharing of single-point intervals. The points from 0 to
`Interval.poolMax` each have one shared interval; any other interval is made anew on request.
-/

namespace Lookahead

namespace Interval

def poolMax : Int32 := 1000

/--
An interval as it is handed out: the shared interval of a point, or a fresh one.
-/
inductive Handle where
  | shared (point : Int32)
  | fresh (interval : Interval)
  deriving DecidableEq, Repr

namespace Handle

def interval : Handle → Interval
  | shared point => ⟨point, point⟩
  | fresh interval => interval

def isShared : Handle → Bool
  | shared _ => true
  | fresh _ => false

/--
Two handles stand for one and the same instance: only shared intervals have an identity.
-/
def sameInstance : Handle → Handle → Bool
  | shared p, shared q => p == q
  | _, _ => false

end Handle

def request (lo hi : Int32) : Handle :=
  if lo = hi ∧ 0 ≤ lo ∧ lo ≤ poolMax then .shared lo else .fresh ⟨lo, hi⟩

@[simp]
theorem interval_request (lo hi : Int32) : (request lo hi).interval = ⟨lo, hi⟩ := by
  unfold request
  split
  . next h => simp [Handle.interval, h.1]
  . rfl

end Interval

end Lookahead
