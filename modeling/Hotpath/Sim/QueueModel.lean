import Hotpath.Core.Types

/-!
# Queue position of one resting quote (sim/queue_model.hpp)

The shares ahead of a quote shrink by executions at its price and by cancels
and deletes of the orders stamped before it joined.
-/

namespace Hotpath.Sim

structure QueuePosition where
  ahead : Qty := 0
  joinSeq : UInt32 := 0
  joined : Bool := false
  behindWhileQueued : ℕ := 0
  deriving DecidableEq, Repr

namespace QueuePosition

def join (pos : QueuePosition) (resting : Qty) (joinSeq : UInt32) : QueuePosition :=
  { pos with ahead := resting, joinSeq := joinSeq, joined := true }

def leave (pos : QueuePosition) : QueuePosition := { pos with joined := false, ahead := 0 }

def isAhead (pos : QueuePosition) (seq : UInt32) : Bool := seq < pos.joinSeq

/-- The shares of ours an execution reaches, and the position after it. -/
def onExecution (pos : QueuePosition) (seq : UInt32) (executed ourRemaining : Qty) :
    Qty × QueuePosition :=
  let pos := if pos.ahead > 0 ∧ ¬pos.isAhead seq
    then { pos with behindWhileQueued := pos.behindWhileQueued + 1 } else pos
  if executed ≤ pos.ahead then (0, { pos with ahead := pos.ahead - executed })
  else
    let through := executed - pos.ahead
    (if through < ourRemaining then through else ourRemaining, { pos with ahead := 0 })

/-- `on_cancel` and `on_delete`: `shares` left the queue. -/
def shorten (pos : QueuePosition) (seq : UInt32) (shares : Qty) : QueuePosition :=
  if ¬pos.isAhead seq then pos
  else { pos with ahead := pos.ahead - if shares < pos.ahead then shares else pos.ahead }

def onCancel (pos : QueuePosition) (seq : UInt32) (cancelled : Qty) : QueuePosition :=
  pos.shorten seq cancelled

def onDelete (pos : QueuePosition) (seq : UInt32) (remaining : Qty) : QueuePosition :=
  pos.shorten seq remaining

end QueuePosition

end Hotpath.Sim
