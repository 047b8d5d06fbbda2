import Collate.Channel.Queue
import Mathlib.Data.List.Induction

/-!
# The books of a queue

Callers share a queue. Each has its requests served under the lock, one at a time, and may make the
next one depend on the answers it got; who has the next turn is left open. What a visit brought in
and took out can be read off its request and its answer. One visit moves messages from the one end
of the queue to the other (`Queue.waiting_serve`), so after any number of turns what was accepted is
what was taken, in that order, followed by what is waiting (`Queue.balanced_shared`).
-/

namespace Collate.Queue

/-! ## Requests -/

inductive Request where
  | send (m : Message)
  | receive
  | receiveBatch (max : Nat)
  | clear

inductive Answer where
  | sent (result : Except ChannelError Unit)
  | received (m : Option Message)
  | batch (messages : List Message)

def serve (q : Queue) : Request → Queue × Answer
  | .send m => ((q.send m).1, .sent (q.send m).2)
  | .receive => (q.receive.1, .received q.receive.2)
  | .receiveBatch max => ((q.receiveBatch max).1, .batch (q.receiveBatch max).2)
  | .clear => (q.clear.1, .batch q.clear.2)

/-- How many messages a request asks for, of those waiting. -/
def Request.demand (waiting : Nat) : Request → Nat
  | send _ => 0
  | receive => 1
  | receiveBatch max => max
  | clear => waiting

/-- The messages that an answer hands out. -/
def Answer.taken : Answer → List Message
  | sent _ => []
  | received m => m.toList
  | batch messages => messages

structure Visit where
  caller : Nat
  request : Request
  answer : Answer

/-- The messages that were accepted in a visit. -/
def Visit.accepted (v : Visit) : List Message :=
  match v.request, v.answer with
  | .send m, .sent (.ok ()) => [m]
  | _, _ => []

variable (q : Queue)

theorem send_eq (m : Message) : q.serve (.send m)
    = if q.size < q.capacity then
        ({ q with waiting := q.waiting ++ [m], sent := (q.sent + 1) % counterSize }, .sent (.ok ()))
      else (q, .sent (.error (.full q.name q.capacity))) := by
  by_cases h : q.size < q.capacity
  · simp [serve, send, h, Nat.not_le.2 h]
  · simp [serve, send, h, Nat.not_lt.1 h]

/-- What is accepted goes in at the end and what is taken comes off the front. -/
theorem waiting_serve (caller : Nat) (r : Request) :
    q.waiting ++ Visit.accepted ⟨caller, r, (q.serve r).2⟩
      = (q.serve r).2.taken ++ (q.serve r).1.waiting := by
  cases r with
  | send m =>
    rw [send_eq]
    split_ifs <;> simp [Visit.accepted, Answer.taken]
  | receive => cases hw : q.waiting <;> simp [serve, receive, Visit.accepted, Answer.taken, hw]
  | receiveBatch max => simp [serve, receiveBatch, Visit.accepted, Answer.taken]
  | clear => simp [serve, clear, Visit.accepted, Answer.taken]

theorem length_taken_serve (r : Request) :
    (q.serve r).2.taken.length = min (r.demand q.size) q.size := by
  cases r with
  | send m =>
    rw [send_eq]
    split_ifs <;> simp [Answer.taken, Request.demand]
  | receive =>
    cases hw : q.waiting <;> simp [serve, receive, Answer.taken, Request.demand, size, hw]
  | receiveBatch max => simp [serve, receiveBatch, Answer.taken, Request.demand, size]
  | clear => simp [serve, clear, Answer.taken, Request.demand, size]

theorem sent_serve {n : Nat} (h : q.sent = n % counterSize) (caller : Nat) (r : Request) :
    (q.serve r).1.sent
      = (n + (Visit.accepted ⟨caller, r, (q.serve r).2⟩).length) % counterSize := by
  cases r with
  | send m =>
    rw [send_eq]
    split_ifs <;> simp [Visit.accepted, h]
  | _ => exact h

theorem size_serve_le (h : q.size ≤ q.capacity) (r : Request) :
    (q.serve r).1.size ≤ q.capacity := by
  cases r with
  | send m =>
    rw [send_eq]
    split_ifs with hroom
    · simpa [size, Nat.succ_le_iff] using hroom
    · exact h
  | receive => exact Nat.le_trans (List.drop_sublist ..).length_le h
  | receiveBatch max => exact Nat.le_trans (List.drop_sublist ..).length_le h
  | clear => exact Nat.zero_le _

@[simp] theorem name_serve (r : Request) : (q.serve r).1.name = q.name := by
  cases r with
  | send m =>
    rw [send_eq]
    split_ifs <;> rfl
  | _ => rfl

@[simp] theorem capacity_serve (r : Request) : (q.serve r).1.capacity = q.capacity := by
  cases r with
  | send m =>
    rw [send_eq]
    split_ifs <;> rfl
  | _ => rfl

/-! ## Callers -/

/-- The next request of a caller after some answers, if it has one. -/
abbrev Caller := List Answer → Option Request

/-- A queue and the visits it had, in order. -/
structure Shared where
  queue : Queue
  visits : List Visit

namespace Shared

variable (callers : Nat → Caller) (s : Shared)

/-- The answers that one caller got. -/
def answers (i : Nat) : List Answer :=
  (s.visits.filter fun v => v.caller = i).map Visit.answer

/-- What was accepted so far, oldest first. -/
def accepted : List Message := s.visits.flatMap Visit.accepted

/-- What was taken out so far, in that order. -/
def taken : List Message := s.visits.flatMap fun v => v.answer.taken

/-- A caller has its turn, and the lock for as long as its request takes. -/
def turn (i : Nat) : Shared :=
  match callers i (s.answers i) with
  | none => s
  | some r => ⟨(s.queue.serve r).1, s.visits ++ [⟨i, r, (s.queue.serve r).2⟩]⟩

def run (name : String) (capacity : Nat) (turns : List Nat) : Shared :=
  turns.foldl (turn callers) ⟨.empty name capacity, []⟩

end Shared

/-- The books agree with the queue. -/
structure Balanced (name : String) (capacity : Nat) (s : Shared) : Prop where
  called : s.queue.name = name
  room : s.queue.capacity = capacity
  ledger : s.accepted = s.taken ++ s.queue.waiting
  bounded : s.queue.size ≤ capacity
  counted : s.queue.sent = s.accepted.length % counterSize

variable {name : String} {capacity : Nat} {s : Shared}

theorem Balanced.visit (h : Balanced name capacity s) (caller : Nat) (r : Request) :
    Balanced name capacity
      ⟨(s.queue.serve r).1, s.visits ++ [⟨caller, r, (s.queue.serve r).2⟩]⟩ := by
  have hmoved := s.queue.waiting_serve caller r
  have hcounted := s.queue.sent_serve h.counted caller r
  refine ⟨by simpa using h.called, by simpa using h.room, ?_, ?_, ?_⟩
  · simp only [Shared.accepted, Shared.taken, List.flatMap_append, List.flatMap_singleton,
      List.append_assoc]
    rw [← hmoved, ← List.append_assoc]
    exact congrArg (· ++ _) h.ledger
  · exact h.room ▸ s.queue.size_serve_le (h.room.symm ▸ h.bounded) r
  · simpa only [Shared.accepted, List.flatMap_append, List.flatMap_singleton, List.length_append]
      using hcounted

theorem Balanced.turn (callers : Nat → Caller) (h : Balanced name capacity s) (i : Nat) :
    Balanced name capacity (s.turn callers i) := by
  unfold Shared.turn
  cases callers i (s.answers i) with
  | none => exact h
  | some r => exact h.visit i r

theorem Balanced.start : Balanced name capacity ⟨.empty name capacity, []⟩ :=
  ⟨rfl, rfl, rfl, Nat.zero_le _, rfl⟩

theorem Balanced.run (callers : Nat → Caller) (turns : List Nat) :
    Balanced name capacity (Shared.run callers name capacity turns) := by
  unfold Shared.run
  induction turns using List.reverseRecOn with
  | nil => exact .start
  | append_singleton turns i ih =>
    rw [List.foldl_append]
    exact ih.turn callers i

/-- Whoever calls and however the calls alternate, what was accepted is what was taken followed by
what is waiting, of which there are never more than the capacity; the count is the number of
messages accepted, so of those taken and waiting; a send is accepted if there is room and otherwise
changes nothing; and a request takes as much as it asks for, or all there is. -/
theorem balanced_shared (name : String) (capacity : Nat) (callers : Nat → Caller)
    (turns : List Nat) :
    let s := Shared.run callers name capacity turns
    s.accepted = s.taken ++ s.queue.waiting
    ∧ s.queue.size ≤ capacity
    ∧ s.queue.sent = s.accepted.length % counterSize
    ∧ s.queue.sent = (s.taken.length + s.queue.size) % counterSize
    ∧ (∀ m, s.queue.serve (.send m) = if s.queue.size < capacity then
          (⟨name, capacity, s.queue.waiting ++ [m], (s.accepted.length + 1) % counterSize⟩,
            .sent (.ok ()))
        else (s.queue, .sent (.error (.full name capacity))))
    ∧ ∀ r, (s.queue.serve r).2.taken.length = min (r.demand s.queue.size) s.queue.size := by
  intro s
  have h : Balanced name capacity s := .run callers turns
  refine ⟨h.ledger, h.bounded, h.counted, ?_, fun m => ?_, s.queue.length_taken_serve⟩
  · rw [h.counted, h.ledger, List.length_append, size]
  · rw [send_eq, h.called, h.room, h.counted, Nat.mod_add_mod]

end Collate.Queue
