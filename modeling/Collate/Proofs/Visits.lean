import Collate.Proofs.Alone
import Mathlib.Data.List.Nodup

/-!
# What a call makes of a key

A handler alone in its depot is called for messages and for passes of expiry, each call alone at
work (`Stint`). What the call makes of the group and the lock entry of a key, and what becomes of a
message of that key, follows from what was there and from the instant at which the call reads the
clock (`View.turn`). That is what a message comes to (`finishes_message`) and what a pass comes to
(`comes_pass_turned`), for all keys at once.
-/

namespace Collate

variable {σ : Type}

/-! ## Calls one after the other -/

/-- What a handler is asked for: to handle a message, or to expire its groups. -/
inductive Errand where
  | message (m : Message)
  | pass (timeout : Nat)

namespace Errand

def activity (h : HandlerId) (d : DepotId) : Errand → Activity
  | .message m => .handle h m
  | .pass timeout => .expire d timeout

/-- A message concerns its own key, and a pass every key. -/
def concerns (handler : Handler σ) (key : Key) : Errand → Bool
  | .message m => handler.correlation m = .returned (some key)
  | .pass _ => true

/-- The notes of a call that tell of what it handed over: a handling does that itself, a pass by the
offers it makes. -/
def doings : Errand → List Note → List Doing
  | .message _ => grounds
  | .pass _ => deeds

end Errand

/-- A call that is carried out alone: after a wait, with a delay before each of so many steps. -/
structure Stint where
  errand : Errand
  wait : Nat
  delays : Nat → Nat
  steps : Nat

namespace Stint

/-- The reading of the clock that counts, if the wait begins now: a handling looks at the clock when
it adds its message, which is its third step, and a pass when it selects, which is its first. -/
def reading (x : Stint) (now : Instant) : Instant :=
  match x.errand with
  | .message _ => now + x.wait + x.delays 0 + x.delays 1 + x.delays 2
  | .pass _ => now + x.wait + x.delays 0

theorem le_reading (x : Stint) (now : Instant) : now ≤ x.reading now := by
  rcases herrand : x.errand with m | timeout <;> simp [reading, herrand, Nat.add_assoc]

def moves (x : Stint) (h : HandlerId) (d : DepotId) (i : Nat) : List (Move σ) :=
  .event (.elapse x.wait) :: .event (.start (x.errand.activity h d)) :: rounds i x.delays x.steps

/-- The first step of the call and so many more. -/
def working (x : Stint) (i k : Nat) : List (Move σ) :=
  .event (.step i) :: rounds i (fun n => x.delays (n + 1)) k

theorem working_add (x : Stint) (i k e : Nat) :
    (x.working i (k + e) : List (Move σ))
      = x.working i k ++ rounds i (fun n => x.delays (n + k + 1)) e := by
  rw [working, rounds_add, ← List.cons_append, working]

end Stint

/-- What becomes of a message: it waits in a group of some size, or it completes its group, whatever
the processor says then. -/
inductive Fate where
  | waits (size : Nat)
  | completes
  deriving DecidableEq

def Reply.fate? (key : Key) : Reply → Option Fate
  | .handled (.returned (.ok (.pending other size))) =>
    if other = key then some (.waits size) else none
  | .handled (.returned (.ok (.released other _))) => if other = key then some .completes else none
  | .handled (.returned (.error (.groupProcessing other _))) =>
    if other = key then some .completes else none
  | _ => none

/-- What comes of a call for a key: the fate of its message, if it is one of that key, and the
members of the groups of that key that were handed to completion or to expiry. -/
structure Outcome where
  fate : Option Fate
  handed : List (List Message)

def Outcome.nothing : Outcome := ⟨none, []⟩

/-- What is there under a key. -/
structure View where
  group? : Option Group
  entry? : Option LockEntry

namespace Shelf

def view (s : Shelf) (key : Key) : View := ⟨s.group? key, s.lock? key⟩

theorem view_clear (s : Shelf) (key other : Key) :
    (s.clear key).view other = if other = key then ⟨none, none⟩ else s.view other := by
  simp only [view, clear_group?, clear_lock?]
  split_ifs <;> rfl

theorem view_keep (s : Shelf) (key other : Key) (g : Group) (e : LockEntry) :
    ((s.setGroup key (some g)).setLock key (some e)).view other
      = if other = key then ⟨some g, some e⟩ else s.view other := by
  simp only [view, setLock_group?, setGroup_group?, setLock_lock?, setGroup_lock?]
  split_ifs <;> rfl

theorem Tidy.key_get {s : Shelf} (ht : s.Tidy) (key : Key) (now : Instant) :
    (s.get key now).key = key := by
  rcases hg : s.group? key with _ | g
  · rw [get_of_none hg]
    rfl
  · rw [get_of_group? hg]
    exact (ht key g hg).1

/-- At rest a handler owns whatever entry it takes. -/
theorem AtRest.owner_or {s : Shelf} {h : HandlerId} (hs : s.AtRest h) (key : Key) :
    ((s.lock? key).bind LockEntry.owner).or (some h) = some h := by
  rcases he : s.lock? key with _ | e
  · rfl
  · rcases (hs.entries key e he).2 with hnone | hsome
    · simp [hnone]
    · simp [hsome]

end Shelf

/-- A call with its reading of the clock and what comes of it for a key. -/
structure Visit where
  errand : Errand
  time : Instant
  outcome : Outcome

namespace Machine

def IsOver (s : Machine σ) (i : Nat) : Prop := ∃ reply, s.threads[i]? = some ⟨[], reply⟩

instance (s : Machine σ) (i : Nat) : Decidable (s.IsOver i) :=
  decidable_of_iff ((s.threads[i]?).any Thread.isOver = true) <| by
    rw [Option.any_eq_true]
    constructor
    · rintro ⟨⟨_ | _, reply⟩, ht, hover⟩
      · exact ⟨reply, ht⟩
      · cases hover
    · rintro ⟨reply, ht⟩
      exact ⟨_, ht, rfl⟩

variable (h : HandlerId) (d : DepotId)

def attend (s : Machine σ) (x : Stint) : Machine σ := s.after (x.moves h d s.threads.length)

def attendAll (s : Machine σ) (l : List Stint) : Machine σ := l.foldl (attend h d) s

/-- Each call is over before the next one begins. -/
def Sequential : Machine σ → List Stint → Prop
  | _, [] => True
  | s, x :: l => (s.attend h d x).IsOver s.threads.length ∧ Sequential (s.attend h d x) l

instance decidableSequential : ∀ (s : Machine σ) (l : List Stint), Decidable (s.Sequential h d l)
  | _, [] => .isTrue trivial
  | s, x :: l =>
    have := decidableSequential (s.attend h d x) l
    inferInstanceAs (Decidable (_ ∧ _))

/-- The calls with their readings of the clock. -/
def readings : Machine σ → List Stint → List (Errand × Instant)
  | _, [] => []
  | s, x :: l => (x.errand, x.reading s.hub.clock) :: readings (s.attend h d x) l

def view (s : Machine σ) (key : Key) : View :=
  ⟨(s.hub.depot d).store.find? key, (s.hub.depot d).locks.find? key⟩

def outcome (s : Machine σ) (key : Key) (x : Stint) : Outcome where
  fate := ((s.attend h d x).reply? s.threads.length).bind (Reply.fate? key)
  handed := Collate.handed key (x.errand.doings (s.history (x.moves h d s.threads.length)))

def visits (key : Key) : Machine σ → List Stint → List Visit
  | _, [] => []
  | s, x :: l =>
    ⟨x.errand, x.reading s.hub.clock, s.outcome h d key x⟩ :: visits key (s.attend h d x) l

end Machine

/-! ## What a call makes of a key -/

/-- What a call at an instant makes of what is there under a key, and what comes of it for the
key. -/
def View.turn (handler : Handler σ) (h : HandlerId) (key : Key) (v : View) :
    Errand → Instant → View × Outcome
  | .message m, t =>
    if handler.correlation m = .returned (some key) then
      let g := (v.group?.getD (.empty key t)).add m t
      let entry : LockEntry := ⟨false, (v.entry?.bind LockEntry.owner).or (some h)⟩
      match handler.release g with
      | .returned true => (⟨none, none⟩, ⟨some .completes, [g.messages]⟩)
      | .returned false => (⟨some g, some entry⟩, ⟨some (.waits g.size), []⟩)
      | .panicked => (⟨some g, some entry⟩, .nothing)
    else (v, .nothing)
  | .pass timeout, t =>
    match v.group?.filter fun g => g.isIdleFor timeout t with
    | some g => (⟨none, none⟩, ⟨none, [g.messages]⟩)
    | none => (v, .nothing)

/-- A call that does not concern a key leaves it alone. -/
theorem View.turn_of_not_concerns {handler : Handler σ} {key : Key} {e : Errand}
    (he : e.concerns handler key = false) (h : HandlerId) (v : View) (t : Instant) :
    v.turn handler h key e t = (v, .nothing) := by
  cases e with
  | message m => exact if_neg (by simpa [Errand.concerns] using he)
  | pass timeout => cases he

/-- What a message makes of its key hangs on what the release strategy says of the group. -/
theorem View.turn_of_key {handler : Handler σ} {key : Key} {m : Message}
    (hc : handler.correlation m = .returned (some key)) (h : HandlerId) {v : View} {t : Instant}
    {g : Group} (hg : (v.group?.getD (.empty key t)).add m t = g) {e : LockEntry}
    (he : ⟨false, (v.entry?.bind LockEntry.owner).or (some h)⟩ = e) :
    v.turn handler h key (.message m) t = match handler.release g with
      | .returned true => (⟨none, none⟩, ⟨some .completes, [g.messages]⟩)
      | .returned false => (⟨some g, some e⟩, ⟨some (.waits g.size), []⟩)
      | .panicked => (⟨some g, some e⟩, .nothing) := by
  subst hg he
  exact if_pos hc

namespace View

variable (handler : Handler σ) (h : HandlerId) (key : Key)

/-- What is there after calls with their readings of the clock. -/
def after (v : View) (r : List (Errand × Instant)) : View :=
  r.foldl (fun v e => (v.turn handler h key e.1 e.2).1) v

def visits : View → List (Errand × Instant) → List Visit
  | _, [] => []
  | v, (e, t) :: r =>
    ⟨e, t, (v.turn handler h key e t).2⟩ :: visits (v.turn handler h key e t).1 r

theorem after_cons (v : View) (e : Errand × Instant) (r : List (Errand × Instant)) :
    v.after handler h key (e :: r) = (v.turn handler h key e.1 e.2).1.after handler h key r := rfl

theorem after_filter (v : View) (r : List (Errand × Instant)) :
    v.after handler h key (r.filter fun e => e.1.concerns handler key)
      = v.after handler h key r := by
  induction r generalizing v with
  | nil => rfl
  | cons e r ih =>
    rw [List.filter_cons]
    split_ifs with he
    · exact ih _
    · rw [ih, after_cons, turn_of_not_concerns (by simpa using he)]

/-- The calls that do not concern a key have no part in the visits of the others. -/
theorem visits_filter (v : View) (r : List (Errand × Instant)) :
    v.visits handler h key (r.filter fun e => e.1.concerns handler key)
      = (v.visits handler h key r).filter fun x => x.errand.concerns handler key := by
  induction r generalizing v with
  | nil => rfl
  | cons e r ih =>
    obtain ⟨e, t⟩ := e
    rw [List.filter_cons, visits, List.filter_cons]
    split_ifs with he
    · rw [visits, ih]
    · rw [ih, turn_of_not_concerns (by simpa using he)]

theorem outcome_of_not_concerns {v : View} {r : List (Errand × Instant)} {x : Visit}
    (hx : x ∈ v.visits handler h key r) (hc : x.errand.concerns handler key = false) :
    x.outcome = .nothing := by
  induction r generalizing v with
  | nil => cases hx
  | cons e r ih =>
    obtain ⟨e, t⟩ := e
    rcases List.mem_cons.1 hx with rfl | hx
    · exact congrArg Prod.snd (turn_of_not_concerns hc h v t)
    · exact ih hx

end View

/-- How a call left the hub and what it noted and answered, by the shelf at its start. -/
def Hub.Turned (I : Hub σ → Prop) (start : Hub σ) (handler : Handler σ) (h : HandlerId)
    (shelf : Shelf) (e : Errand) (t : Instant) (hub : Hub σ) (done : List Doing) (r : Reply) :
    Prop :=
  ∃ shelf' : Shelf, hub.Midway I handler.depot start shelf' ∧ shelf'.AtRest h
    ∧ ∀ key, (shelf'.view key, (⟨r.fate? key, handed key done⟩ : Outcome))
      = (shelf.view key).turn handler h key e t

/-- The groups of a key among the stale ones are the group that is there, if that one is idle. -/
theorem filter_stale {depot : Depot} (htidy : depot.shelf.Tidy) {timeout : Nat} {now : Instant}
    {stale : List Group} (hperm : stale.Perm (depot.store.stale timeout now)) (key : Key) :
    stale.filter (·.key = key)
      = ((depot.store.find? key).filter fun g => g.isIdleFor timeout now).toList := by
  have hnodup : stale.Nodup :=
    List.Nodup.of_map _ ((hperm.map Group.key).nodup_iff.2 (Depot.nodup_stale_keys htidy))
  generalize hlook : (depot.store.find? key).filter (fun g => g.isIdleFor timeout now) = found
  have hmem : ∀ g, g ∈ stale.filter (·.key = key) ↔ g ∈ found.toList := by
    intro g
    rw [List.mem_filter, hperm.mem_iff, Depot.mem_stale_iff htidy, Option.mem_toList, ← hlook,
      Option.filter_eq_some_iff, decide_eq_true_iff]
    refine ⟨fun ⟨⟨hfind, hidle⟩, hkey⟩ => ⟨hkey ▸ hfind, hidle⟩, fun ⟨hfind, hidle⟩ => ?_⟩
    obtain rfl := (htidy key g hfind).1
    exact ⟨⟨hfind, hidle⟩, rfl⟩
  have hfound : found.toList.Nodup := by
    rcases found with _ | g
    · exact List.nodup_nil
    · exact List.nodup_singleton g
  have hsame := (List.perm_ext_iff_of_nodup (hnodup.filter _) hfound).2 hmem
  rcases found with _ | g
  · exact hsame.eq_nil
  · exact List.perm_singleton.1 hsame

section Turned

variable {I : Hub σ → Prop} {start hub : Hub σ} {handler : Handler σ} {h : HandlerId}
  {shelf : Shelf} {m : Message} {t : Instant}

theorem Reply.fate?_completed (key other : Key) (size : Nat) (said : Except ProcessingError Unit) :
    Reply.fate? key (.handled (.returned (Handling.completed other size said)))
      = if other = key then some .completes else none := by
  rcases said with e | ⟨⟩ <;> rfl

variable (hI : ∀ a b : Hub σ, I a → a.Elsewhere handler.depot b → I b)
  (hapt : Participant.Apt I handler.depot start h handler) (hl : start.isLive h = true)
include hI hapt hl

theorem finishes_message (hm : hub.Midway I handler.depot start shelf) (hrest : shelf.AtRest h)
    (hcap : (hub.depot handler.depot).store.capacity = none) {delays : Nat → Nat}
    (ht : hub.clock + delays 0 + delays 1 = t) :
    (Frame.handling h (.arriving m)).Finishes
      (Hub.Turned I start handler h shelf (.message m) t) delays hub [] := by
  by_cases hkeyed : ∃ key, handler.correlation m = .returned (some key)
  · obtain ⟨key, hc⟩ := hkeyed
    generalize hg : (shelf.get key t).add m t = g
    have hkey : g.key = key := hg ▸ hrest.tidy.key_get key t
    have hfull : g.messages ≠ [] := by simp [← hg]
    generalize he : (⟨false, ((shelf.lock? key).bind LockEntry.owner).or (some h)⟩ : LockEntry) = e
    have hkept : ((shelf.setGroup key (some g)).setLock key (some e)).AtRest h := by
      rw [← he]
      exact hrest.keep hkey hfull (.inr (hrest.owner_or key))
    have hturn := View.turn_of_key hc h (v := shelf.view key) hg he
    have hothers : ∀ other, other ≠ key → (shelf.view other).turn handler h other (.message m) t
        = (shelf.view other, .nothing) := fun other hne =>
      View.turn_of_not_concerns (by simp [Errand.concerns, hc, Ne.symm hne]) h _ t
    refine Handling.finishes_keyed hI hapt.known rfl hl hapt.process hc hm hcap
      (fun e he => (hrest.entries key e he).1) ht hg (by rw [he])
      (fun hr hub' said t' hm' => ⟨_, hm', hrest.clear key, fun other => ?_⟩)
      (fun hr hub' hm' => ⟨_, hm', hkept, fun other => ?_⟩)
      fun hr hub' hm' => ⟨_, hm', hkept, fun other => ?_⟩
    · rw [Shelf.view_clear, Reply.fate?_completed]
      by_cases heq : other = key
      · subst heq
        rw [hturn, hr]
        simp [handed, List.filterMap_cons, Doing.members?, hkey]
      · rw [hothers other heq]
        simp [handed, List.filterMap_cons, Doing.members?, hkey, heq, Ne.symm heq, Outcome.nothing]
    · rw [Shelf.view_keep]
      by_cases heq : other = key
      · subst heq
        rw [hturn, hr]
        simp [handed, Doing.members?, Reply.fate?]
      · rw [hothers other heq]
        simp [handed, Doing.members?, Reply.fate?, heq, Ne.symm heq, Outcome.nothing]
    · rw [Shelf.view_keep]
      by_cases heq : other = key
      · subst heq
        rw [hturn, hr]
        simp [handed, Doing.members?, Reply.fate?, Outcome.nothing]
      · rw [hothers other heq]
        simp [handed, Doing.members?, Reply.fate?, heq, Outcome.nothing]
  · have hkeyless : ∀ key, handler.correlation m ≠ .returned (some key) :=
      fun key hc => hkeyed ⟨key, hc⟩
    refine Handling.finishes_keyless hI hapt.known rfl hl hkeyless hm
      fun hub' new result hm' hnew hresult => ⟨shelf, hm', hrest, fun key => ?_⟩
    have hfate : Reply.fate? key (.handled result) = none := by
      rcases hresult with rfl | rfl <;> rfl
    have hnone : handed key ([] ++ new) = [] := by
      rcases hnew with rfl | rfl <;> rfl
    rw [View.turn_of_not_concerns (by simp [Errand.concerns, hkeyless key]), hfate, hnone,
      Outcome.nothing]

theorem comes_pass_turned (hm : hub.Midway I handler.depot start shelf) (hrest : shelf.AtRest h)
    (hregister : (start.depot handler.depot).participants = [.handler h])
    (harrange : ∀ l, (hub.arrange l).Perm l) {p : Place} (hp : p.depth = 0) (timeout : Nat) :
    (Frame.pass handler.depot timeout .selecting).Comes
      (Hub.Turned I start handler h shelf (.pass timeout) hub.clock) p none hub [] := by
  have htidy : (hub.depot handler.depot).shelf.Tidy := by rw [hm.shelf]; exact hrest.tidy
  have hperm := harrange ((hub.depot handler.depot).store.stale timeout hub.clock)
  generalize hstale : hub.arrange ((hub.depot handler.depot).store.stale timeout hub.clock) = stale
    at hperm
  refine Pass.comes_alone hI hapt hl hp hm hrest hregister harrange hstale
    fun hub' done n hm' hhanded => ⟨_, hm', hrest.foldl_clear stale, fun key => ?_⟩
  have hfind : (hub.depot handler.depot).store.find? key = shelf.group? key :=
    congrFun (congrArg Shelf.group? hm.shelf) key
  have hkey := (hperm.map Group.key).mem_iff.trans
    (Depot.key_mem_stale_iff htidy key)
  rw [hfind] at hkey
  rw [hhanded, filter_stale htidy hperm, hfind]
  simp only [Shelf.view, Shelf.foldl_clear_group?, Shelf.foldl_clear_lock?, View.turn, hkey,
    Reply.fate?]
  rcases shelf.group? key with _ | g
  · simp [handed, Outcome.nothing]
  · rcases hidle : g.isIdleFor timeout hub.clock with _ | _ <;>
      simp [handed, Outcome.nothing, Option.filter, hidle]

end Turned

end Collate
