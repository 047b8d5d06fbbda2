import Collate.Work.Handling
import Collate.Work.Offer
import Collate.Work.Pass

/-!
# Threads

An activity and the calls it is in the middle of, the innermost first. A step is a step of the
innermost frame; when that one is over, its reply goes to the frame below, and the last reply is the
result of the thread.
-/

namespace Collate

variable {σ : Type}

namespace Drop

def step (hub : Hub σ) (h : HandlerId) : Drop → Turn σ
  | .letting =>
    let hub := hub.unrefer h
    if hub.isLive h then .ends hub .dropped else .goes hub (.drop h .disowning)
  | .disowning => .ends (hub.disown h) .dropped

end Drop

namespace Frame

def step (hub : Hub σ) : Frame σ → Turn σ
  | .handling h p => p.step hub h
  | .offer h stale p => p.step hub h stale
  | .pass d timeout p => p.step hub d timeout
  | .drop h p => p.step hub h

def resume (r : Reply) : Frame σ → Frame σ
  | .handling h p => .handling h (p.resume r)
  | .offer h stale p => .offer h stale (p.resume r)
  | .pass d timeout p => .pass d timeout (p.resume r)
  | f => f

end Frame

structure Thread (σ : Type) where
  stack : List (Frame σ)
  reply : Option Reply

/-- What a step of a thread comes to. -/
inductive Progress (σ : Type) where
  | ran (hub : Hub σ) (t : Thread σ)
  | blocked (deadline : Option Instant)
  | over

namespace Thread

def start (a : Activity) : Thread σ := ⟨[a.frame], none⟩

def isOver (t : Thread σ) : Bool := t.stack.isEmpty

def step (hub : Hub σ) (t : Thread σ) : Progress σ :=
  match t.stack with
  | [] => .over
  | f :: below =>
    match f.step hub with
    | .goes hub f => .ran hub { t with stack := f :: below }
    | .calls hub f inner => .ran hub { t with stack := inner :: f :: below }
    | .ends hub r =>
      match below with
      | [] => .ran hub ⟨[], some r⟩
      | g :: below => .ran hub { t with stack := g.resume r :: below }
    | .waits deadline => .blocked deadline

end Thread

end Collate
