import Collate.Hub

/-!
# Frames

What an activity is in the middle of, one frame for each call that is not over: the handling of a
message, a pass of expiry over a depot, the offer of a stale group to a handler, or the drop of a
reference to a handler. A frame stands at a phase, and each step takes it from one phase to the next
by one atomic action. A frame that holds a key says so by its phase (`Frame.holds`). A panic leaves
a frame by the same phases as a return, so no key stays held.
-/

namespace Collate

/-- What a finished call tells its caller. -/
inductive Reply where
  | handled (r : Attempt (Except HandlerError Handled))
  | passed (r : Attempt (Except StoreError Nat))
  | offered (r : Attempt ExpiryOutcome)
  | dropped
  deriving Inhabited

/-- The handling of a message by a handler. -/
inductive Handling (σ : Type) where
  | arriving (m : Message)
  | locking (key : Key) (m : Message) (deadline : Option Instant)
  | adding (key : Key) (m : Message)
  /-- The addition failed; is there a group whose lock to keep? -/
  | reviewing (key : Key) (e : StoreError)
  | deciding (key : Key) (g : Group)
  | processing (key : Key) (g : Group) (work : Script σ (Except ProcessingError Unit))
  | removing (key : Key) (g : Group) (result : Except ProcessingError Unit)
  | releasing (key : Key) (retire : Bool) (result : Attempt (Except HandlerError Handled))
  | leaving (result : Attempt (Except HandlerError Handled))
  | disowning (result : Attempt (Except HandlerError Handled))

/-- The offer of a stale group to a handler. -/
inductive Offer (σ : Type) where
  | meeting
  | seizing
  | rereading
  | discarding (g : Group) (left : List Message)
  | sending (g : Group) (m : Message) (left : List Message)
      (work : Script σ (Except ChannelError Unit))
  | completing (g : Group) (work : Script σ (Except ProcessingError Unit))
  | removing (g : Group)
  | releasing (retire : Bool) (outcome : Attempt ExpiryOutcome)
  | leaving (outcome : Attempt ExpiryOutcome)
  | disowning (outcome : Attempt ExpiryOutcome)

/-- What a pass has gathered so far. -/
structure Tally where
  participants : List Participant
  rest : List Group
  detached : List Participant
  expired : Nat
  deriving Inhabited

/-- What the participants said to one group so far. -/
structure Responses where
  attached : Bool
  expired : Bool
  deriving DecidableEq, Inhabited

/-- A pass of expiry over a depot. -/
inductive Pass (σ : Type) where
  | selecting
  | consulting (stale : List Group)
  | next (t : Tally)
  | offering (t : Tally) (g : Group) (left : List Participant) (said : Responses)
  | waiting (t : Tally) (g : Group) (who : Participant) (left : List Participant) (said : Responses)
  | hooked (t : Tally) (g : Group) (who : Participant) (left : List Participant) (said : Responses)
      (work : Script σ ExpiryOutcome)
  | claiming (t : Tally) (g : Group)
  | comparing (t : Tally) (g : Group)
  | freeing (t : Tally) (g : Group) (retire removed : Bool)
  | pruning (t : Tally)
  | failing

/-- The drop of a reference to a handler. -/
inductive Drop where
  | letting
  | disowning

inductive Frame (σ : Type) where
  | handling (h : HandlerId) (at_ : Handling σ)
  | offer (h : HandlerId) (stale : Group) (at_ : Offer σ)
  | pass (d : DepotId) (timeout : Nat) (at_ : Pass σ)
  | drop (h : HandlerId) (at_ : Drop)

/-- What a step of a frame comes to. -/
inductive Turn (σ : Type) where
  | goes (hub : Hub σ) (f : Frame σ)
  /-- The frame waits for the reply of a new call. -/
  | calls (hub : Hub σ) (f : Frame σ) (inner : Frame σ)
  | ends (hub : Hub σ) (r : Reply)
  /-- The frame cannot go on before somebody frees a key, or before an instant. -/
  | waits (deadline : Option Instant)

namespace Handling

variable {σ : Type}

/-- The key held at a phase. -/
def holds : Handling σ → Option Key
  | .adding key _ => some key
  | .reviewing key _ => some key
  | .deciding key _ => some key
  | .processing key _ _ => some key
  | .removing key _ _ => some key
  | .releasing key _ _ => some key
  | _ => none

end Handling

namespace Offer

variable {σ : Type}

/-- Whether the key of the offered group is held at a phase. -/
def isHolding : Offer σ → Bool
  | .rereading => true
  | .discarding .. => true
  | .sending .. => true
  | .completing .. => true
  | .removing _ => true
  | .releasing .. => true
  | _ => false

end Offer

namespace Pass

variable {σ : Type}

def holds : Pass σ → Option Key
  | .comparing _ g => some g.key
  | .freeing _ g _ _ => some g.key
  | _ => none

end Pass

namespace Frame

variable {σ : Type}

/-- The key a frame holds, in which depot. -/
def holds (hub : Hub σ) : Frame σ → Option (DepotId × Key)
  | .handling h p => (hub.member? h).bind fun m => p.holds.map fun key => (m.handler.depot, key)
  | .offer h stale p =>
    (hub.member? h).bind fun m => if p.isHolding then some (m.handler.depot, stale.key) else none
  | .pass d _ p => p.holds.map fun key => (d, key)
  | .drop .. => none

end Frame

/-- What can be started. -/
inductive Activity where
  | handle (h : HandlerId) (m : Message)
  | expire (d : DepotId) (timeout : Nat)
  | drop (h : HandlerId)

namespace Activity

variable {σ : Type}

def frame : Activity → Frame σ
  | .handle h m => .handling h (.arriving m)
  | .expire d timeout => .pass d timeout .selecting
  | .drop h => .drop h .letting

end Activity

end Collate
