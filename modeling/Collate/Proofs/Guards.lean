import Collate.Proofs.Depots
import Collate.Work.Handling
import Mathlib.Data.List.Induction

/-!
# The guards of a lock table

A table of key locks and any number of calls that ask it for keys, each doing its next thing
whenever its turn comes. A call that asks for a key makes an entry first, if the key has none, and
tests it then. If it may not have the key it is refused or, where it may wait, looks again each time
it wakes, for whatever reason. A call that got its key is a guard until it is dropped.

Every entry that is held has one guard, a refused call never left anything in the table, and a call
that waited in vain found its key held after its deadline.
-/

namespace Collate

/-- What is asked of a lock table for a key. -/
inductive Petition where
  | acquire (owner : Option Owner) (timeout : Option Nat)
  | tryAcquire
  | tryAcquireOwned (owner : Owner)

namespace Petition

/-- Who owns an entry that is made for the request. -/
def owner : Petition → Option Owner
  | acquire owner _ => owner
  | tryAcquire => none
  | tryAcquireOwned owner => some owner

/-- Whether an entry may be had. -/
def admits (e : LockEntry) : Petition → Bool
  | tryAcquireOwned owner => !e.held && e.owner.all (· == owner)
  | _ => !e.held

/-- An entry as it is taken. -/
def taken (e : LockEntry) : Petition → LockEntry
  | acquire owner _ => ⟨true, e.owner.or owner⟩
  | _ => { e with held := true }

/-- How long the request may wait, seen from now. -/
def deadline (now : Instant) : Petition → Option Instant
  | acquire _ timeout => timeout.map (now + ·)
  | _ => none

/-- The locks with the key given, if they give it. -/
def granted? (l : KeyLocks) (key : Key) : Petition → Option KeyLocks
  | acquire owner _ => l.acquire? key owner
  | tryAcquire => l.tryAcquire? key
  | tryAcquireOwned owner => l.tryAcquireOwned? key owner

end Petition

namespace KeyLocks

/-- The locks with an entry for a key, made free if there was none. -/
def enter (l : KeyLocks) (key : Key) (owner : Option Owner) : KeyLocks :=
  match l.find? key with
  | none => l.set key ⟨false, owner⟩
  | some _ => l

/-- One look at a key: its entry is made, tested, and taken if it may be had. -/
def look (l : KeyLocks) (key : Key) (r : Petition) : KeyLocks × Bool :=
  let l := l.enter key r.owner
  match l.find? key with
  | none => (l, false)
  | some e => if r.admits e then (l.set key (r.taken e), true) else (l, false)

theorem ext_find? {l l' : KeyLocks} (h : ∀ key, l.find? key = l'.find? key) : l = l' := by
  cases l
  cases l'
  exact congrArg mk (Dictionary.ext_get? fun name => h ⟨name⟩)

theorem set_set (l : KeyLocks) (key : Key) (e e' : LockEntry) :
    (l.set key e).set key e' = l.set key e' := by
  refine ext_find? fun other => ?_
  simp only [find?_set]
  split_ifs <;> rfl

/-- The entry made for a look is taken by it, so a look in vain leaves none behind. -/
theorem look_eq (l : KeyLocks) (key : Key) (r : Petition) :
    l.look key r = match r.granted? l key with
      | some l' => (l', true)
      | none => (l, false) := by
  rcases h : l.find? key with _ | e
  · have hfree : r.admits ⟨false, r.owner⟩ = true := by
      cases r <;> simp [Petition.admits, Petition.owner]
    have htaken : r.taken ⟨false, r.owner⟩ = ⟨true, r.owner⟩ := by
      cases r <;> simp [Petition.taken, Petition.owner]
    simp only [look, enter, h, find?_set, if_true, hfree, htaken, set_set]
    cases r <;> simp [Petition.granted?, acquire?, tryAcquire?, tryAcquireOwned?, h, Petition.owner]
  · simp only [look, enter, h]
    cases r with
    | acquire owner timeout =>
      rcases hh : e.held <;>
        simp [Petition.admits, Petition.granted?, Petition.taken, acquire?, h, hh]
    | tryAcquire =>
      rcases hh : e.held <;>
        simp [Petition.admits, Petition.granted?, Petition.taken, tryAcquire?, h, hh]
    | tryAcquireOwned owner =>
      rcases hh : e.held <;> rcases ho : e.owner with _ | o <;>
        simp [Petition.admits, Petition.granted?, Petition.taken, tryAcquireOwned?, h, hh, ho]
      split_ifs <;> simp_all

theorem isHeld_disown (l : KeyLocks) (owner : Owner) (key : Key) :
    (l.disown owner).isHeld key = l.isHeld key := by
  unfold isHeld
  rw [find?_disown]
  rcases l.find? key with _ | e
  · rfl
  · simp only [Option.map_some, Option.any_some]
    split_ifs <;> rfl

theorem isHeld_release (l : KeyLocks) (key other : Key) (retire : Bool) :
    (l.release key retire).isHeld other = (decide (key ≠ other) && l.isHeld other) := by
  unfold isHeld
  rcases retire
  · rw [find?_release_keep]
    by_cases h : key = other
    · rcases l.find? key <;> simp [h]
    · simp [h]
  · rw [find?_release_retire]
    by_cases h : key = other <;> simp [h]

theorem Gives.isHeld {l l' : KeyLocks} {key : Key} (h : l.Gives key l') (other : Key) :
    l.isHeld key = false ∧ l'.isHeld other = (decide (key = other) || l.isHeld other) := by
  obtain ⟨hfree, owner, rfl⟩ := h
  unfold KeyLocks.isHeld
  refine ⟨Option.any_eq_false .. |>.2 fun e he => by simp [hfree e he], ?_⟩
  rw [find?_set]
  by_cases h : key = other <;> simp [h]

theorem gives_of_granted? {l l' : KeyLocks} {key : Key} {r : Petition}
    (h : r.granted? l key = some l') : l.Gives key l' := by
  cases r with
  | acquire owner timeout => exact gives_of_acquire? h
  | tryAcquire => exact gives_of_tryAcquire? h
  | tryAcquireOwned owner => exact gives_of_tryAcquireOwned? h

end KeyLocks

/-- How far a call has come. -/
inductive Standing where
  /-- It has not looked at the table yet. -/
  | entering
  | waiting
  /-- It has the key, and leaves the entry behind or takes it along. -/
  | guarding (retire : Bool)
  | refused
  /-- It had the key and dropped it. -/
  | gone
  deriving DecidableEq

namespace Standing

def asks : Standing → Bool
  | entering | waiting => true
  | _ => false

def guards : Standing → Bool
  | guarding _ => true
  | _ => false

/-- Whether the call ever got its key. -/
def served : Standing → Bool
  | guarding _ | gone => true
  | _ => false

@[simp] theorem guards_guarding (retire : Bool) : (guarding retire).guards = true := rfl

theorem guards_of_asks {s : Standing} (h : s.asks = true) : s.guards = false := by
  cases s <;> first | rfl | cases h

theorem served_of_asks {s : Standing} (h : s.asks = true) : s.served = false := by
  cases s <;> first | rfl | cases h

end Standing

structure Caller where
  key : Key
  request : Petition
  deadline : Option Instant
  standing : Standing

/-- Whether a call is a guard of a key. -/
def Caller.guards (key : Key) (c : Caller) : Bool := decide (c.key = key) && c.standing.guards

/-- What a call that did not get its key does next. -/
def Petition.missed : Petition → Standing
  | acquire _ _ => .waiting
  | _ => .refused

theorem Petition.guards_missed (r : Petition) : r.missed.guards = false := by
  cases r <;> rfl

/-- A table and all calls it ever had, each known by its number. -/
structure Traffic where
  locks : KeyLocks
  callers : List Caller
  clock : Instant

namespace Traffic

/-- What happens next. A call looks when it comes and when it wakes; `late` says that a wait reports
its deadline as over, which it never does before. -/
inductive Act where
  | call (key : Key) (r : Petition)
  | look (i : Nat) (late : Bool)
  | retire (i : Nat)
  | drop (i : Nat)
  | disown (owner : Owner)
  | elapse (nanos : Nat)

/-- Whether a call does it. -/
def Act.isBy (i : Nat) : Act → Bool
  | look j _ | retire j | drop j => i = j
  | _ => false

def empty : Traffic := ⟨.empty, [], 0⟩

/-- A call changes its standing, and the locks with it. -/
def put (t : Traffic) (i : Nat) (c : Caller) (standing : Standing) (locks : KeyLocks) : Traffic :=
  { t with locks := locks, callers := t.callers.set i { c with standing := standing } }

/-- A wait that reports its deadline as over gives up if the key is still held; any other look asks
for the key. -/
def look (t : Traffic) (i : Nat) (c : Caller) (late : Bool) : Traffic :=
  if c.standing = .waiting ∧ late ∧ c.deadline.any (· ≤ t.clock) ∧ t.locks.isHeld c.key then
    t.put i c .refused t.locks
  else
    match t.locks.look c.key c.request with
    | (locks, true) => t.put i c (.guarding false) locks
    | (locks, false) => t.put i c c.request.missed locks

def step (t : Traffic) : Act → Traffic
  | .call key r => { t with callers := t.callers ++ [⟨key, r, r.deadline t.clock, .entering⟩] }
  | .look i late =>
    match t.callers[i]? with
    | some c => if c.standing.asks then t.look i c late else t
    | none => t
  | .retire i =>
    match t.callers[i]? with
    | some c => if c.standing.guards then t.put i c (.guarding true) t.locks else t
    | none => t
  | .drop i =>
    match t.callers[i]? with
    | some c =>
      match c.standing with
      | .guarding retire => t.put i c .gone (t.locks.release c.key retire)
      | _ => t
    | none => t
  | .disown owner => { t with locks := t.locks.disown owner }
  | .elapse nanos => { t with clock := t.clock + nanos }

def run (t : Traffic) (acts : List Act) : Traffic := acts.foldl step t

/-- The guards that a key has. -/
def guards (t : Traffic) (key : Key) : Nat := t.callers.countP (Caller.guards key)

/-- Everything a step can do. -/
inductive Steps (t : Traffic) : Act → Traffic → Prop where
  | idles (a : Act) : Steps t a t
  | calls (key : Key) (r : Petition) :
      Steps t (.call key r)
        { t with callers := t.callers ++ [⟨key, r, r.deadline t.clock, .entering⟩] }
  | expires {i : Nat} {c : Caller} {d : Instant} (hc : t.callers[i]? = some c)
      (hw : c.standing = .waiting) (hd : c.deadline = some d) (hlate : d ≤ t.clock)
      (hheld : t.locks.isHeld c.key = true) : Steps t (.look i true) (t.put i c .refused t.locks)
  | takes {i : Nat} {late : Bool} {c : Caller} {l : KeyLocks} (hc : t.callers[i]? = some c)
      (ha : c.standing.asks = true) (hl : c.request.granted? t.locks c.key = some l) :
      Steps t (.look i late) (t.put i c (.guarding false) l)
  | misses {i : Nat} {late : Bool} {c : Caller} (hc : t.callers[i]? = some c)
      (ha : c.standing.asks = true) : Steps t (.look i late) (t.put i c c.request.missed t.locks)
  | retires {i : Nat} {c : Caller} (hc : t.callers[i]? = some c) (hg : c.standing.guards = true) :
      Steps t (.retire i) (t.put i c (.guarding true) t.locks)
  | drops {i : Nat} {c : Caller} {retire : Bool} (hc : t.callers[i]? = some c)
      (hg : c.standing = .guarding retire) :
      Steps t (.drop i) (t.put i c .gone (t.locks.release c.key retire))
  | disowns (owner : Owner) : Steps t (.disown owner) { t with locks := t.locks.disown owner }
  | elapses (nanos : Nat) : Steps t (.elapse nanos) { t with clock := t.clock + nanos }

variable {t t' : Traffic} {a : Act}

theorem steps_look {i : Nat} {late : Bool} {c : Caller} (hc : t.callers[i]? = some c)
    (ha : c.standing.asks = true) : Steps t (.look i late) (t.look i c late) := by
  unfold look
  split_ifs with hlate
  · obtain ⟨hw, rfl, hd, hheld⟩ := hlate
    obtain ⟨d, hd, hle⟩ := Option.any_eq_true .. |>.1 hd
    exact .expires hc hw hd (by simpa using hle) hheld
  · rw [KeyLocks.look_eq]
    rcases hl : c.request.granted? t.locks c.key with _ | l
    · exact .misses hc ha
    · exact .takes hc ha hl

theorem steps_step (t : Traffic) (a : Act) : Steps t a (t.step a) := by
  cases a with
  | call key r => exact .calls key r
  | look i late =>
    rcases hc : t.callers[i]? with _ | c <;> simp only [step, hc]
    · exact .idles _
    · split_ifs with ha
      · exact steps_look hc ha
      · exact .idles _
  | retire i =>
    rcases hc : t.callers[i]? with _ | c <;> simp only [step, hc]
    · exact .idles _
    · split_ifs with hg
      · exact .retires hc hg
      · exact .idles _
  | drop i =>
    rcases hc : t.callers[i]? with _ | c <;> simp only [step, hc]
    · exact .idles _
    · split
      · exact .drops hc ‹_›
      · exact .idles _
  | disown owner => exact .disowns owner
  | elapse nanos => exact .elapses nanos

theorem run_snoc (t : Traffic) (acts : List Act) (a : Act) :
    t.run (acts ++ [a]) = (t.run acts).step a := by
  simp [run]

/-! ## Guards and held entries -/

/-- Who changes its standing counts anew. -/
theorem guards_put {i : Nat} {c : Caller} (hc : t.callers[i]? = some c) (standing : Standing)
    (locks : KeyLocks) (key : Key) :
    (t.put i c standing locks).guards key + (c.guards key).toNat
      = t.guards key + (Caller.guards key { c with standing := standing }).toNat := by
  obtain ⟨hi, rfl⟩ := List.getElem?_eq_some_iff.1 hc
  have hpos : t.callers[i].guards key = true → 0 < t.guards key := fun hg =>
    List.countP_pos_iff.2 ⟨_, List.getElem_mem hi, hg⟩
  unfold guards put at *
  rw [List.countP_set hi]
  revert hpos
  generalize t.callers.countP (Caller.guards key) = n
  rcases t.callers[i].guards key <;>
    rcases Caller.guards key { t.callers[i] with standing := standing } <;> simp <;> omega

/-- A change of standing that neither makes nor ends a guard. -/
theorem guards_put_of_eq {i : Nat} {c : Caller} (hc : t.callers[i]? = some c) {standing : Standing}
    (hg : standing.guards = c.standing.guards) (locks : KeyLocks) (key : Key) :
    (t.put i c standing locks).guards key = t.guards key := by
  have hput := guards_put hc standing locks key
  simp only [Caller.guards, hg] at hput
  omega

/-- Every key has one guard if its entry is held, and none otherwise. -/
def Agrees (t : Traffic) : Prop := ∀ key, t.guards key = (t.locks.isHeld key).toNat

theorem agrees_empty : empty.Agrees := fun _ => rfl

theorem Steps.agrees (h : Steps t a t') (ht : t.Agrees) : t'.Agrees := by
  intro key
  have hkey := ht key
  cases h with
  | idles => exact hkey
  | calls => simpa [guards, Caller.guards, Standing.guards] using hkey
  | elapses => exact hkey
  | disowns owner => rw [KeyLocks.isHeld_disown]; exact hkey
  | expires hc hw => rw [guards_put_of_eq hc (by rw [hw]; rfl)]; exact hkey
  | @misses i late c hc ha =>
    have hno := c.request.guards_missed.trans (Standing.guards_of_asks ha).symm
    rw [guards_put_of_eq hc hno]
    exact hkey
  | retires hc hg => rw [guards_put_of_eq hc (by rw [hg]; rfl)]; exact hkey
  | @takes i late c l hc ha hl =>
    have hput := guards_put hc (.guarding false) l key
    obtain ⟨hfree, hheld⟩ := (KeyLocks.gives_of_granted? hl).isHeld key
    simp only [Caller.guards, Standing.guards_of_asks ha, Standing.guards_guarding] at hput
    change (t.put i c (.guarding false) l).guards key = (l.isHeld key).toNat
    by_cases hk : c.key = key
    · subst hk
      simpa [hheld, hkey, hfree] using hput
    · simpa [hheld, hk, hkey] using hput
  | @drops i c retire hc hg =>
    have hput := guards_put hc .gone (t.locks.release c.key retire) key
    have hle := Bool.toNat_le (t.locks.isHeld key)
    simp only [Caller.guards, hg, Standing.guards, hkey] at hput
    change (t.put i c .gone _).guards key = ((t.locks.release c.key retire).isHeld key).toNat
    rw [KeyLocks.isHeld_release]
    by_cases hk : c.key = key <;> simp [hk] at hput ⊢ <;> omega

theorem agrees_run (acts : List Act) : (empty.run acts).Agrees := by
  induction acts using List.reverseRecOn with
  | nil => exact agrees_empty
  | append_singleton acts a ih => exact run_snoc .. ▸ (steps_step _ a).agrees ih

/-! ## Calls in vain -/

theorem getElem?_put {i j : Nat} {c c' : Caller} {standing : Standing} {locks : KeyLocks}
    (h : (t.put i c standing locks).callers[j]? = some c') :
    (i = j ∧ c' = { c with standing := standing }) ∨ (i ≠ j ∧ t.callers[j]? = some c') := by
  simp only [put, List.getElem?_set] at h
  split_ifs at h with hij hi
  · exact .inl ⟨hij, (Option.some.inj h).symm⟩
  · exact .inr ⟨hij, h⟩

/-- A step brings one call or changes the standing of one at most, and who got a key stays
served. -/
theorem Steps.callers (h : Steps t a t') :
    t'.callers = t.callers
      ∨ (∃ key r, a = .call key r
        ∧ t'.callers = t.callers ++ [⟨key, r, r.deadline t.clock, .entering⟩])
      ∨ ∃ i c standing, t.callers[i]? = some c
        ∧ t'.callers = t.callers.set i { c with standing := standing }
        ∧ (c.standing.served = true → standing.served = true) := by
  cases h with
  | idles | disowns | elapses => exact .inl rfl
  | calls key r => exact .inr (.inl ⟨key, r, rfl, rfl⟩)
  | expires hc hw => exact .inr (.inr ⟨_, _, _, hc, rfl, by rw [hw]; exact id⟩)
  | misses hc ha =>
    exact .inr (.inr ⟨_, _, _, hc, rfl, fun h => by simp [Standing.served_of_asks ha] at h⟩)
  | takes hc | retires hc | drops hc => exact .inr (.inr ⟨_, _, _, hc, rfl, fun _ => rfl⟩)

/-- A call was there before, the same but for its standing, or comes just now. -/
theorem Steps.origin (h : Steps t a t') {i : Nat} {c : Caller} (hc : t'.callers[i]? = some c) :
    (∃ standing, t.callers[i]? = some { c with standing := standing })
      ∨ (t.callers.length = i ∧ a = .call c.key c.request
        ∧ c.deadline = c.request.deadline t.clock) := by
  rcases h.callers with heq | ⟨key, r, rfl, heq⟩ | ⟨j, c', standing, hj, heq, -⟩ <;> rw [heq] at hc
  · exact .inl ⟨c.standing, hc⟩
  · rw [getElem?_snoc] at hc
    split_ifs at hc with hi
    · cases hc
      exact .inr ⟨hi.symm, rfl, rfl⟩
    · exact .inl ⟨c.standing, hc⟩
  · rw [List.getElem?_set] at hc
    split_ifs at hc with hij hlt
    · cases hc
      exact .inl ⟨c'.standing, hij ▸ hj⟩
    · exact .inl ⟨c.standing, hc⟩

/-- Whether call `i` got its key. -/
def Served (t : Traffic) (i : Nat) : Prop :=
  ∃ c, t.callers[i]? = some c ∧ c.standing.served = true

theorem Steps.served (h : Steps t a t') {i : Nat} (hi : t.Served i) : t'.Served i := by
  obtain ⟨c, hc, hs⟩ := hi
  obtain ⟨hlt, -⟩ := List.getElem?_eq_some_iff.1 hc
  rcases h.callers with heq | ⟨key, r, -, heq⟩ | ⟨j, c', standing, hj, heq, hserved⟩
  · exact ⟨c, heq ▸ hc, hs⟩
  · exact ⟨c, by rw [heq, List.getElem?_append_left hlt, hc], hs⟩
  · by_cases hij : j = i
    · subst hij
      cases hj.symm.trans hc
      exact ⟨_, by rw [heq, List.getElem?_set_self hlt], hserved hs⟩
    · exact ⟨c, by rw [heq, List.getElem?_set_ne hij, hc], hs⟩

theorem served_run {i : Nat} (hi : t.Served i) (acts : List Act) : (t.run acts).Served i := by
  induction acts generalizing t with
  | nil => exact hi
  | cons a acts ih => exact ih ((steps_step t a).served hi)

/-- What a call does that does not get its key leaves the locks alone. -/
theorem Steps.spares (h : Steps t a t') {i : Nat} (hby : a.isBy i = true) (hs : ¬ t'.Served i) :
    t'.locks = t.locks := by
  have hput : ∀ {j c standing locks}, i = j → t.callers[j]? = some c → standing.served = true →
      (t.put j c standing locks).Served i := by
    rintro j c standing locks rfl hj hserved
    obtain ⟨hlt, -⟩ := List.getElem?_eq_some_iff.1 hj
    exact ⟨_, List.getElem?_set_self hlt, hserved⟩
  cases h with
  | idles | calls | elapses | expires | misses | retires => rfl
  | disowns => cases hby
  | takes hj | drops hj => exact absurd (hput (by simpa [Act.isBy] using hby) hj rfl) hs

/-- A wait ends in vain only when it is late and its key is held. -/
theorem Steps.refuses (h : Steps t a t') {i : Nat} {c : Caller} {owner : Option Owner}
    {timeout : Option Nat} (hc : t'.callers[i]? = some c) (hr : c.standing = .refused)
    (hq : c.request = .acquire owner timeout) :
    t.callers[i]? = some c
      ∨ a = .look i true ∧ t.callers[i]? = some { c with standing := .waiting }
        ∧ t.locks.isHeld c.key = true ∧ ∃ d, c.deadline = some d ∧ d ≤ t.clock := by
  have hput : ∀ {j c' standing locks}, t.callers[j]? = some c' →
      (c'.request = c.request → standing ≠ .refused) →
      (t.put j c' standing locks).callers[i]? = some c → t.callers[i]? = some c := by
    intro j c' standing locks hj hstanding hi
    rcases getElem?_put hi with ⟨rfl, rfl⟩ | ⟨-, hold⟩
    · exact absurd hr (hstanding rfl)
    · exact hold
  cases h with
  | idles | disowns | elapses => exact .inl hc
  | calls key r =>
    rw [getElem?_snoc] at hc
    split_ifs at hc with hi
    · cases hc
      cases hr
    · exact .inl hc
  | @expires j c' d hj hw hd hlate hheld =>
    rcases getElem?_put hc with ⟨rfl, rfl⟩ | ⟨-, hold⟩
    · exact .inr ⟨rfl, by rw [hj, ← hw], hheld, d, hd, hlate⟩
    · exact .inl hold
  | misses hj => exact .inl (hput hj (fun h => by rw [h, hq]; simp [Petition.missed]) hc)
  | takes hj | retires hj | drops hj => exact .inl (hput hj (fun _ => by simp) hc)

/-- A call comes with its key, its request and its deadline, and never changes them. -/
theorem arrived {acts : List Act} {i : Nat} {c : Caller}
    (hc : (empty.run acts).callers[i]? = some c) :
    ∃ early rest, acts = early ++ .call c.key c.request :: rest
      ∧ (empty.run early).callers.length = i
      ∧ c.deadline = c.request.deadline (empty.run early).clock := by
  induction acts using List.reverseRecOn generalizing c with
  | nil => cases hc
  | append_singleton acts a ih =>
    rw [run_snoc] at hc
    rcases (steps_step _ a).origin hc with ⟨standing, hold⟩ | ⟨hlen, rfl, hd⟩
    · obtain ⟨early, rest, hacts, hi, hd⟩ := ih hold
      exact ⟨early, rest ++ [a], by rw [hacts]; simp, hi, hd⟩
    · exact ⟨acts, [], rfl, hlen, hd⟩

/-- A call that was refused while it could wait has a moment when it gave up. -/
theorem refused {acts : List Act} {i : Nat} {c : Caller} {owner : Option Owner}
    {timeout : Option Nat} (hc : (empty.run acts).callers[i]? = some c)
    (hr : c.standing = .refused) (hq : c.request = .acquire owner timeout) :
    ∃ before after, acts = before ++ .look i true :: after
      ∧ (empty.run before).callers[i]? = some { c with standing := .waiting }
      ∧ (empty.run before).locks.isHeld c.key = true
      ∧ ∃ d, c.deadline = some d ∧ d ≤ (empty.run before).clock := by
  induction acts using List.reverseRecOn with
  | nil => cases hc
  | append_singleton acts a ih =>
    rw [run_snoc] at hc
    rcases (steps_step _ a).refuses hc hr hq with hold | ⟨rfl, hw, hheld, hd⟩
    · obtain ⟨before, after, hacts, hrest⟩ := ih hold
      exact ⟨before, after ++ [a], by rw [hacts]; simp, hrest⟩
    · exact ⟨acts, [], rfl, hw, hheld, hd⟩

/-! ## The table and its guards -/

/-- Dropping a guard takes its own entry along, or leaves it behind free. -/
theorem find?_drop (ht : t.Agrees) {i : Nat} {c : Caller} {retire : Bool}
    (hc : t.callers[i]? = some c) (hg : c.standing = .guarding retire) :
    ∃ e, t.locks.find? c.key = some e ∧ e.held = true
      ∧ ∀ key, (t.step (.drop i)).locks.find? key =
        if c.key = key then if retire then none else some { e with held := false }
        else t.locks.find? key := by
  have hpos : 0 < t.guards c.key := List.countP_pos_iff.2
    ⟨c, List.mem_of_getElem? hc, by simp [Caller.guards, hg]⟩
  have hheld : t.locks.isHeld c.key = true := by
    rw [ht c.key] at hpos
    rcases hb : t.locks.isHeld c.key with _ | _
    · simp [hb] at hpos
    · rfl
  obtain ⟨e, he, hheld⟩ := (Option.any_eq_true ..).1 hheld
  refine ⟨e, he, hheld, fun key => ?_⟩
  simp only [step, hc, hg, put]
  rcases retire
  · rw [KeyLocks.find?_release_keep, he]
    rfl
  · rw [KeyLocks.find?_release_retire]
    rfl

/-- Whatever calls do at a table in whatever order: a key has one guard if its entry is held and
none otherwise; a call that was refused never changed the locks; a call that gave up waiting found
its key held after its deadline; and a guard that is dropped removes the entry of its own key if it
was retired, and frees it otherwise. -/
theorem one_guard_per_held_entry (acts : List Act) :
    (∀ key, ((empty.run acts).locks.isHeld key = true ↔ (empty.run acts).guards key = 1)
        ∧ (empty.run acts).guards key ≤ 1)
      ∧ (∀ i c, (empty.run acts).callers[i]? = some c → c.standing = .refused →
        ∀ before a after, acts = before ++ a :: after → a.isBy i = true →
          ((empty.run before).step a).locks = (empty.run before).locks)
      ∧ (∀ i c owner timeout, (empty.run acts).callers[i]? = some c → c.standing = .refused →
        c.request = .acquire owner timeout →
          ∃ early mid after nanos, timeout = some nanos
            ∧ acts = early ++ .call c.key c.request :: mid ++ .look i true :: after
            ∧ (empty.run early).callers.length = i
            ∧ (empty.run (early ++ .call c.key c.request :: mid)).locks.isHeld c.key = true
            ∧ (empty.run early).clock + nanos
              ≤ (empty.run (early ++ .call c.key c.request :: mid)).clock)
      ∧ (∀ i c retire, (empty.run acts).callers[i]? = some c → c.standing = .guarding retire →
        ∃ e, (empty.run acts).locks.find? c.key = some e ∧ e.held = true
          ∧ ∀ key, ((empty.run acts).step (.drop i)).locks.find? key =
            if c.key = key then if retire then none else some { e with held := false }
            else (empty.run acts).locks.find? key) := by
  refine ⟨fun key => ?_, ?_, ?_, fun i c retire hc hg => find?_drop (agrees_run acts) hc hg⟩
  · rw [agrees_run acts key]
    rcases (empty.run acts).locks.isHeld key <;> simp
  · rintro i c hc hr before a after rfl hby
    refine (steps_step _ a).spares hby fun hs => ?_
    have hend : (empty.run (before ++ a :: after)).Served i := by
      simpa [run] using served_run hs after
    obtain ⟨c', hc', hserved⟩ := hend
    cases hc'.symm.trans hc
    simp [hr, Standing.served] at hserved
  · intro i c owner timeout hc hr hq
    obtain ⟨before, after, rfl, hw, hheld, d, hd, hlate⟩ := refused hc hr hq
    obtain ⟨early, mid, rfl, hi, hdeadline⟩ := arrived hw
    rw [hd, hq] at hdeadline
    obtain ⟨nanos, rfl, rfl⟩ := Option.map_eq_some_iff.1 hdeadline.symm
    exact ⟨early, mid, after, nanos, rfl, by simp, hi, hheld, hlate⟩

end Traffic

/-- A handling at its lock does what a waiting call does at the table of its depot. -/
theorem Handling.lock_looks {σ : Type} {hub : Hub σ} {handler : Handler σ} {h : HandlerId}
    {key : Key} {m : Message} {deadline : Option Instant} {timeout : Option Nat} (t : Traffic)
    (i : Nat) (hl : t.locks = (hub.depot handler.depot).locks) (hclock : t.clock = hub.clock) :
    let c : Caller := ⟨key, .acquire (some h) timeout, deadline, .waiting⟩
    (∃ l, lock hub handler h key m deadline
          = .goes (hub.setDepot handler.depot { hub.depot handler.depot with locks := l })
            (.handling h (.adding key m))
        ∧ t.look i c true = t.put i c (.guarding false) l)
      ∨ lock hub handler h key m deadline
          = .goes hub (.handling h (.leaving (.returned (.error (timedOut handler key)))))
        ∧ t.look i c true = t.put i c .refused t.locks
      ∨ lock hub handler h key m deadline = .waits deadline
        ∧ t.look i c true = t.put i c .waiting t.locks := by
  have hlook := t.locks.look_eq key (.acquire (some h) timeout)
  simp only [Traffic.look, lock, ← hl, ← hclock, Petition.granted?, true_and] at hlook ⊢
  rcases ha : t.locks.acquire? key (some h) with _ | l <;> rw [ha] at hlook <;> rw [hlook]
  · have hheld : t.locks.isHeld key = true := by
      by_contra hfree
      obtain ⟨l, hl⟩ := KeyLocks.acquire?_of_free (some h) fun e he => by
        rw [KeyLocks.isHeld, he] at hfree
        simpa using hfree
      rw [hl] at ha
      cases ha
    rcases hd : deadline.any (· ≤ t.clock) with _ | _
    · exact .inr (.inr ⟨by simp, by simp [Petition.missed]⟩)
    · exact .inr (.inl ⟨by simp, by simp [hheld]⟩)
  · have hfree : t.locks.isHeld key = false :=
      ((KeyLocks.gives_of_acquire? ha).isHeld key).1
    exact .inl ⟨l, rfl, by simp [hfree]⟩

end Collate
