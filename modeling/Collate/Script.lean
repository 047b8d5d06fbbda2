import Collate.Depot
import Collate.Log

/-!
# Scripts

What code outside the library does when it is called, one action at a time: a change of the outside,
a record in the journal, a fresh message id, or a call back into a handler or a depot. Each action
carries what to do with its answer. A script ends with a value or panics. A script that only changes
the outside, logs and draws ids is local: it cannot touch a depot.
-/

namespace Collate

/-- How a call ends. -/
inductive Attempt (α : Type) where
  | returned (a : α)
  | panicked
  deriving DecidableEq, Inhabited

namespace Attempt

variable {α β : Type}

def map (f : α → β) : Attempt α → Attempt β
  | .returned a => .returned (f a)
  | .panicked => .panicked

end Attempt

/-- What a handler made of a message: its group waits for more, or it was the last one. -/
inductive Handled where
  | pending (key : Key) (size : Nat)
  | released (key : Key) (size : Nat)
  deriving DecidableEq, Inhabited

abbrev DepotId := Nat

inductive Script (σ α : Type) where
  | done (a : α)
  | panic
  /-- Changes the outside; what follows may depend on how it was before. -/
  | act (change : σ → σ) (next : σ → Script σ α)
  | log (r : Log.Record) (next : Script σ α)
  | fresh (next : MessageId → Script σ α)
  | handle (h : HandlerId) (m : Message) (next : Except HandlerError Handled → Script σ α)
  | expire (d : DepotId) (timeout : Nat) (next : Except StoreError Nat → Script σ α)
  | add (d : DepotId) (key : Key) (m : Message) (next : Except StoreError Group → Script σ α)
  | remove (d : DepotId) (key : Key) (next : Except StoreError (Option Group) → Script σ α)

namespace Script

variable {σ α β : Type}

instance [Inhabited α] : Inhabited (Script σ α) := ⟨.done default⟩

def bind : Script σ α → (α → Script σ β) → Script σ β
  | .done a, f => f a
  | .panic, _ => .panic
  | .act change next, f => .act change fun s => (next s).bind f
  | .log r next, f => .log r (next.bind f)
  | .fresh next, f => .fresh fun id => (next id).bind f
  | .handle h m next, f => .handle h m fun r => (next r).bind f
  | .expire d timeout next, f => .expire d timeout fun r => (next r).bind f
  | .add d key m next, f => .add d key m fun r => (next r).bind f
  | .remove d key next, f => .remove d key fun r => (next r).bind f

def map (f : α → β) (s : Script σ α) : Script σ β := s.bind fun a => .done (f a)

/-- Writes records one after another. -/
def logAll : Log.Journal → Script σ α → Script σ α
  | [], s => s
  | r :: rs, s => .log r (logAll rs s)

/-- A script that keeps its hands off every depot. -/
inductive Local : Script σ α → Prop
  | done (a : α) : Local (.done a)
  | panic : Local .panic
  | act {change : σ → σ} {next : σ → Script σ α} : (∀ s, Local (next s)) → Local (.act change next)
  | log {r : Log.Record} {next : Script σ α} : Local next → Local (.log r next)
  | fresh {next : MessageId → Script σ α} : (∀ id, Local (next id)) → Local (.fresh next)

/-- A script that never panics, whatever it is answered. -/
inductive Calm : Script σ α → Prop
  | done (a : α) : Calm (.done a)
  | act {change : σ → σ} {next : σ → Script σ α} : (∀ s, Calm (next s)) → Calm (.act change next)
  | log {r : Log.Record} {next : Script σ α} : Calm next → Calm (.log r next)
  | fresh {next : MessageId → Script σ α} : (∀ id, Calm (next id)) → Calm (.fresh next)
  | handle {h : HandlerId} {m : Message} {next : Except HandlerError Handled → Script σ α} :
      (∀ r, Calm (next r)) → Calm (.handle h m next)
  | expire {d : DepotId} {timeout : Nat} {next : Except StoreError Nat → Script σ α} :
      (∀ r, Calm (next r)) → Calm (.expire d timeout next)
  | add {d : DepotId} {key : Key} {m : Message} {next : Except StoreError Group → Script σ α} :
      (∀ r, Calm (next r)) → Calm (.add d key m next)
  | remove {d : DepotId} {key : Key} {next : Except StoreError (Option Group) → Script σ α} :
      (∀ r, Calm (next r)) → Calm (.remove d key next)

end Script

/-- A part of the outside that can be read and replaced. -/
structure Part (σ α : Type) where
  read : σ → α
  write : α → σ → σ

/-- Applies an operation to a part of the outside, in one action. -/
def Part.use {σ α β : Type} (part : Part σ α) (f : α → α × β) : Script σ β :=
  .act (fun s => part.write (f (part.read s)).1 s) fun s => .done (f (part.read s)).2

/-- Where messages are sent. -/
structure Channel (σ : Type) where
  send : Message → Script σ (Except ChannelError Unit)

end Collate
