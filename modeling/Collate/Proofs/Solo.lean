import Collate.Proofs.Books

/-!
# A call that works alone

While no other call does a step, all that can happen between two steps of a call is that time goes
by. `Frame.Comes` says that a call comes to an end whatever time that is, and how: each step is
taken for every delay before it. A step that makes a call is followed by what is known of that call,
so what a call comes to can be told without its calls (`Frame.Comes.calls`). A thread whose newest
call comes to an end does so in a run of its own (`Frame.Comes.run`).
-/

namespace Collate

variable {σ : Type}

/-! ## The deeds of a pass -/

/-- What a note tells of what becomes of groups: the doings of a pass and of the offers it makes,
but for the selection. -/
def Note.deed? : Note → Option Doing
  | .did _ (.selected _ _ _) => none
  | .did p x => if p.depth ≤ 1 then some x else none
  | .came _ => none

def deeds (notes : List Note) : List Doing := notes.filterMap Note.deed?

theorem exists_of_mem_deeds {notes : List Note} {x : Doing} (h : x ∈ deeds notes) :
    ∃ p, .did p x ∈ notes := by
  obtain ⟨note, hnote, hx⟩ := List.mem_filterMap.1 h
  cases note with
  | came p => cases hx
  | did p y =>
    have hsame : y = x := by
      cases y <;> simp only [Note.deed?, Option.ite_none_right_eq_some, reduceCtorEq] at hx
      all_goals exact Option.some.inj hx.2
    exact ⟨p, hsame ▸ hnote⟩

theorem deeds_append (a b : List Note) : deeds (a ++ b) = deeds a ++ deeds b :=
  List.filterMap_append

/-- The deeds of a step of a call at a place, over the call that waits for it. -/
def Frame.deed (hub : Hub σ) (p : Place) (under : Option (Frame σ)) (f f' : Frame σ) :
    List Doing :=
  deeds ((f.doing hub under f').map (Note.did p)).toList

theorem Frame.deed_deep (hub : Hub σ) {p : Place} (hp : 2 ≤ p.depth) (under : Option (Frame σ))
    (f f' : Frame σ) : f.deed hub p under f' = [] := by
  have hdeep : ¬ p.depth ≤ 1 := by omega
  unfold Frame.deed deeds
  rcases f.doing hub under f' with _ | x
  · rfl
  · cases x <;> simp [Note.deed?, hdeep]

/-! ## What a call comes to -/

/-- A call at a place, over the call that waits for it, comes to an end of which `Q` holds: of the
hub, the deeds and the reply. -/
inductive Frame.Comes : (Hub σ → List Doing → Reply → Prop) → Place → Option (Frame σ) →
    Hub σ → List Doing → Frame σ → Prop
  | goes {Q p under hub done f hub' f'} : f.step hub = .goes hub' f' →
      (∀ n, Comes Q p under (hub'.elapse n) (done ++ f.deed hub p under f') f') →
      Comes Q p under hub done f
  | calls {Q R p under hub done f hub' f' inner} : f.step hub = .calls hub' f' inner →
      (∀ n, Comes R p.above (some f') (hub'.elapse n) done inner) →
      (∀ hub'' done' r, R hub'' done' r →
        ∀ n, Comes Q p under (hub''.elapse n) done' (f'.resume r)) →
      Comes Q p under hub done f
  | ends {Q p under hub done f hub' r} : f.step hub = .ends hub' r → Q hub' done r →
      Comes Q p under hub done f

/-- A script comes to an end with a value of which, and of the hub, `Q` holds. A call it makes comes
to an end wherever it stands. -/
inductive Script.Comes {α : Type} (Q : Hub σ → α → Prop) : Hub σ → Script σ α → Prop
  | done {hub a} : Q hub a → Comes Q hub (.done a)
  | goes {hub s hub' s'} : s.step hub = .goes hub' s' → (∀ n, Comes Q (hub'.elapse n) s') →
      Comes Q hub s
  | calls {hub s inner} {R : Hub σ → Reply → Prop} : s.step hub = .calls inner →
      (∀ p under done n, inner.Comes (fun hub' _ r => R hub' r) p under (hub.elapse n) done) →
      (∀ hub' r, R hub' r → ∀ n, Comes Q (hub'.elapse n) (s.resume r)) →
      Comes Q hub s

/-! ## Code stays -/

/-- The same handlers, and the same hooks. -/
structure Hub.SameCode (hub hub' : Hub σ) : Prop where
  handlers : ∀ h, hub'.handler? h = hub.handler? h
  hooks : hub'.hooks = hub.hooks

section Code

variable {hub hub' : Hub σ} {f f' : Frame σ}

@[simp] theorem Hub.handler?_elapse (hub : Hub σ) (n : Nat) (h : HandlerId) :
    (hub.elapse n).handler? h = hub.handler? h := rfl

@[simp] theorem Hub.handler?_log (hub : Hub σ) (r : Log.Record) (h : HandlerId) :
    (hub.log r).handler? h = hub.handler? h := rfl

theorem Hub.SameCode.refl (hub : Hub σ) : hub.SameCode hub := ⟨fun _ => rfl, rfl⟩

theorem Hub.SameCode.trans {a b c : Hub σ} (hab : a.SameCode b) (hbc : b.SameCode c) :
    a.SameCode c :=
  ⟨fun h => (hbc.handlers h).trans (hab.handlers h), hbc.hooks.trans hab.hooks⟩

theorem Hub.sameCode_elapse (hub : Hub σ) (n : Nat) : hub.SameCode (hub.elapse n) :=
  ⟨fun _ => rfl, rfl⟩

theorem Hub.Alike.sameCode (h : hub.Alike hub') : hub.SameCode hub' := ⟨h.handler?, h.hooks⟩

theorem Hub.sameCode_disown (hub : Hub σ) (h : HandlerId) : hub.SameCode (hub.disown h) := by
  rcases hh : hub.handler? h with _ | handler
  · rw [disown_of_handler?_none hh]
    exact .refl hub
  · rw [disown_of_handler? hh]
    exact ⟨fun _ => rfl, rfl⟩

theorem Script.sameCode_goes {α : Type} {s s' : Script σ α} (hs : s.step hub = .goes hub' s') :
    hub.SameCode hub' := by
  cases s <;> simp only [Script.step, reduceCtorEq] at hs
  case add d key m next => split at hs <;> cases hs <;> exact ⟨fun _ => rfl, rfl⟩
  case remove d key next => split at hs <;> cases hs <;> exact ⟨fun _ => rfl, rfl⟩
  all_goals cases hs
  all_goals exact ⟨fun _ => rfl, rfl⟩

theorem Handling.Goes.sameCode {handler : Handler σ} {h : HandlerId} {p p' : Handling σ}
    (hg : Goes hub handler h p hub' p') : hub.SameCode hub' := by
  cases hg
  case processing hw => exact Script.sameCode_goes hw
  all_goals exact ⟨by simp, rfl⟩

theorem Offer.Goes.sameCode {handler : Handler σ} {h : HandlerId} {stale : Group}
    {p p' : Offer σ} (hg : Goes hub handler h stale p hub' p') : hub.SameCode hub' := by
  cases hg
  case sending hw => exact Script.sameCode_goes hw
  case completing hw => exact Script.sameCode_goes hw
  case sent ha => exact ha.sameCode
  case completed ha => exact ha.sameCode
  all_goals exact ⟨by simp, rfl⟩

theorem Pass.Goes.sameCode {d : DepotId} {timeout : Nat} {p p' : Pass σ}
    (hg : Goes hub d timeout p hub' p') : hub.SameCode hub' := by
  cases hg
  case hooked hw => exact Script.sameCode_goes hw
  all_goals exact ⟨by simp, rfl⟩

theorem Frame.sameCode_goes (hs : f.step hub = .goes hub' f') : hub.SameCode hub' := by
  cases f with
  | handling h p =>
    obtain ⟨handler, hh⟩ := Handling.handler_of_step hs
    obtain ⟨p', -, hg⟩ := Handling.goes_of_step hh hs
    exact hg.sameCode
  | offer h stale p =>
    obtain ⟨handler, hh⟩ := Offer.handler_of_step hs
    obtain ⟨p', -, hg⟩ := Offer.goes_of_step hh hs
    exact hg.sameCode
  | pass d timeout p =>
    obtain ⟨p', -, hg⟩ := Pass.goes_of_step hs
    exact hg.sameCode
  | drop h p =>
    rw [(Drop.goes_of_step hs).2]
    exact ⟨by simp, rfl⟩

theorem Frame.sameCode_ends {r : Reply} (hs : f.step hub = .ends hub' r) : hub.SameCode hub' := by
  cases f with
  | handling h p =>
    obtain ⟨-, rfl⟩ | ⟨result, -, rfl, -⟩ | ⟨result, -, rfl, -⟩ := Handling.ends_of_step hs
    · exact .refl _
    · exact ⟨by simp, rfl⟩
    · exact Hub.sameCode_disown _ h
  | offer h stale p =>
    obtain ⟨-, rfl⟩ | ⟨-, rfl⟩ | ⟨outcome, -, rfl⟩ | ⟨outcome, -, rfl⟩ := Offer.ends_of_step hs
    · exact .refl _
    · exact .refl _
    · exact ⟨by simp, rfl⟩
    · exact Hub.sameCode_disown _ h
  | pass d timeout p =>
    obtain ⟨rfl, -⟩ | ⟨t, -, rfl⟩ := Pass.ends_of_step hs
    · exact .refl _
    · exact ⟨by simp, rfl⟩
  | drop h p =>
    obtain rfl | rfl := Drop.ends_of_step hs
    · exact ⟨by simp, rfl⟩
    · exact Hub.sameCode_disown _ h

theorem Frame.hub_of_calls {inner : Frame σ} (hs : f.step hub = .calls hub' f' inner) :
    hub' = hub := by
  cases f with
  | handling h p => exact (Handling.calls_of_step hs).1
  | offer h stale p => exact (Offer.calls_of_step hs).1
  | pass d timeout p => exact (Pass.calls_of_step hs).1
  | drop h p => exact (Drop.calls_of_step hs).elim

end Code

/-! ## Using what a call comes to -/

section Comes

variable {Q Q' : Hub σ → List Doing → Reply → Prop} {p : Place} {under : Option (Frame σ)}
  {hub : Hub σ} {done : List Doing} {f : Frame σ}

theorem Frame.Comes.imp (hc : f.Comes Q p under hub done)
    (hq : ∀ hub' done' r, Q hub' done' r → Q' hub' done' r) : f.Comes Q' p under hub done := by
  induction hc generalizing Q' with
  | goes hs hrest ih => exact .goes hs fun n => ih n hq
  | calls hs hinner hnext ihinner ihnext =>
    exact .calls hs hinner fun hub'' done' r hr n => ihnext hub'' done' r hr n hq
  | ends hs hend => exact .ends hs (hq _ _ _ hend)

theorem Frame.Comes.silent (hub' : Hub σ) (f' : Frame σ) (hs : f.step hub = .goes hub' f')
    (hd : f.doing hub under f' = none) (next : ∀ n, f'.Comes Q p under (hub'.elapse n) done) :
    f.Comes Q p under hub done := by
  refine .goes hs fun n => ?_
  simpa [Frame.deed, hd, deeds] using next n

theorem Frame.Comes.does (hub' : Hub σ) (f' : Frame σ) {x : Doing}
    (hs : f.step hub = .goes hub' f') (hd : f.doing hub under f' = some x)
    (hx : (Note.did p x).deed? = some x)
    (next : ∀ n, f'.Comes Q p under (hub'.elapse n) (done ++ [x])) :
    f.Comes Q p under hub done := by
  refine .goes hs fun n => ?_
  simpa [Frame.deed, hd, deeds, hx] using next n

/-- However a call comes to an end, the code is that of before, and a call that stands on an offer
adds nothing to the deeds. -/
theorem Frame.Comes.keeps (hc : f.Comes Q p under hub done) :
    f.Comes (fun hub' done' r => Q hub' done' r ∧ hub.SameCode hub'
      ∧ (2 ≤ p.depth → done' = done)) p under hub done := by
  induction hc with
  | @goes Q p under hub done f hub' f' hs hrest ih =>
    refine .goes hs fun n => (ih n).imp fun hub'' done' r ⟨hq, hsame, hdone⟩ =>
      ⟨hq, (Frame.sameCode_goes hs).trans ((hub'.sameCode_elapse n).trans hsame), fun hp => ?_⟩
    rw [hdone hp, Frame.deed_deep hub hp, List.append_nil]
  | @calls Q R p under hub done f hub' f' inner hs hinner hnext ihinner ihnext =>
    refine .calls hs (R := fun hub'' done' r => R hub'' done' r
        ∧ hub'.SameCode hub'' ∧ (2 ≤ p.above.depth → done' = done))
      (fun n => (ihinner n).imp fun hub'' done' r ⟨hr, hsame, hdone⟩ =>
        ⟨hr, (hub'.sameCode_elapse n).trans hsame, hdone⟩)
      fun hub'' done' r ⟨hr, hsame, hdone⟩ n => (ihnext hub'' done' r hr n).imp
        fun hub₃ done'' r' ⟨hq, hsame', hdone'⟩ => ⟨hq, ?_, fun hp => ?_⟩
    · rw [Frame.hub_of_calls hs] at hsame
      exact hsame.trans ((hub''.sameCode_elapse n).trans hsame')
    · rw [hdone' hp, hdone (Nat.le_succ_of_le hp)]
  | ends hs hq => exact .ends hs ⟨hq, Frame.sameCode_ends hs, fun _ => rfl⟩

/-- A phase of an offer in which code of the outside is at work. -/
structure Frame.Works {α : Type} (K : Script σ α → Frame σ) (h : HandlerId)
    (under : Option (Frame σ)) : Prop where
  goes : ∀ {hub s hub' s'}, (hub.handler? h).isSome = true → s.step hub = .goes hub' s' →
    (K s).step hub = .goes hub' (K s') ∧ (K s).doing hub under (K s') = none
  calls : ∀ {hub s inner}, (hub.handler? h).isSome = true → s.step hub = .calls inner →
    (K s).step hub = .calls hub (K s) inner
  resume : ∀ s r, (K s).resume r = K (s.resume r)

/-- Code of the outside that comes to a value does so where it is at work for an offer. -/
theorem Script.Comes.works {α : Type} {P : Hub σ → α → Prop} {s : Script σ α}
    {K : Script σ α → Frame σ} {h : HandlerId} (hs : s.Comes P hub) (hk : Frame.Works K h under)
    (hp : 1 ≤ p.depth) (hh : (hub.handler? h).isSome = true)
    (next : ∀ hub' a, P hub' a → (K (.done a)).Comes Q p under hub' done) :
    (K s).Comes Q p under hub done := by
  induction hs with
  | done hq => exact next _ _ hq
  | goes hstep hrest ih =>
    obtain ⟨hgoes, hnone⟩ := hk.goes hh hstep
    refine .silent _ _ hgoes hnone fun n => ih n ?_
    rw [Hub.handler?_elapse, (Script.sameCode_goes hstep).handlers]
    exact hh
  | @calls hub s inner R hstep hinner hnext ih =>
    refine .calls (hk.calls hh hstep) (R := fun hub' done' r => R hub' r
        ∧ (∀ h, hub'.handler? h = hub.handler? h) ∧ done' = done)
      (fun n => (hinner p.above _ done n).keeps.imp fun hub' done' r ⟨hr, hsame, hdone⟩ =>
        ⟨hr, hsame.handlers, hdone (Nat.succ_le_succ hp)⟩)
      fun hub' done' r ⟨hr, hh', hdone⟩ n => ?_
    rw [hk.resume, hdone]
    exact ih hub' r hr n (by rw [Hub.handler?_elapse, hh']; exact hh)

end Comes

/-! ## Running alone -/

/-- Thread `i` does so many steps, and before each of them time goes by. -/
def rounds (i : Nat) : (Nat → Nat) → Nat → List (Move σ)
  | _, 0 => []
  | delays, k + 1 =>
    .event (.elapse (delays 0)) :: .event (.step i) :: rounds i (fun n => delays (n + 1)) k

theorem rounds_add (i : Nat) (delays : Nat → Nat) (a b : Nat) :
    (rounds i delays (a + b) : List (Move σ))
      = rounds i delays a ++ rounds i (fun n => delays (n + a)) b := by
  induction a generalizing delays with
  | zero => simp [rounds]
  | succ a ih =>
    rw [Nat.add_right_comm]
    simp only [rounds, List.cons_append, ih, Nat.add_assoc]

namespace Machine

/-- The thread of which the newest call, over those given, ended with a reply. -/
def ended (below : List (Frame σ)) (reply : Option Reply) (r : Reply) : Thread σ :=
  match below with
  | [] => ⟨[], some r⟩
  | g :: rest => ⟨g.resume r :: rest, reply⟩

variable {s : Machine σ} {i : Nat} {f f' inner : Frame σ} {below : List (Frame σ)}
  {reply : Option Reply} {hub' : Hub σ}

theorem move_goes (ht : s.threads[i]? = some ⟨f :: below, reply⟩)
    (hs : f.step s.hub = .goes hub' f') :
    s.move (.event (.step i)) = ⟨hub', s.threads.set i ⟨f' :: below, reply⟩⟩
      ∧ deeds (s.notes (.event (.step i))) = f.deed s.hub ⟨i, below.length⟩ below.head? f' := by
  simp [move, apply, progress, notes, ht, Thread.step, hs, stackNotes, Frame.deed]

theorem move_calls (ht : s.threads[i]? = some ⟨f :: below, reply⟩)
    (hs : f.step s.hub = .calls hub' f' inner) :
    s.move (.event (.step i)) = ⟨hub', s.threads.set i ⟨inner :: f' :: below, reply⟩⟩
      ∧ deeds (s.notes (.event (.step i))) = [] := by
  simp [move, apply, progress, notes, ht, Thread.step, hs, stackNotes, deeds, Note.deed?]

theorem move_ends (ht : s.threads[i]? = some ⟨f :: below, reply⟩) {r : Reply}
    (hs : f.step s.hub = .ends hub' r) :
    s.move (.event (.step i)) = ⟨hub', s.threads.set i (ended below reply r)⟩
      ∧ deeds (s.notes (.event (.step i))) = [] := by
  rcases below with _ | ⟨g, rest⟩ <;>
    simp [move, apply, progress, notes, ht, Thread.step, hs, stackNotes, deeds, ended]

/-- One step of a thread, and then more after a delay. -/
theorem after_step_rounds {t : Thread σ} (delays : Nat → Nat) (k : Nat)
    (hm : s.move (.event (.step i)) = ⟨hub', s.threads.set i t⟩) :
    s.after (.event (.step i) :: rounds i delays (k + 1))
      = (⟨hub'.elapse (delays 0), s.threads.set i t⟩ : Machine σ).after
        (.event (.step i) :: rounds i (fun n => delays (n + 1)) k) := by
  simp only [rounds, after, hm]
  rfl

theorem history_step_rounds {t : Thread σ} (delays : Nat → Nat) (k : Nat)
    (hm : s.move (.event (.step i)) = ⟨hub', s.threads.set i t⟩) :
    s.history (.event (.step i) :: rounds i delays (k + 1))
      = s.notes (.event (.step i))
        ++ (⟨hub'.elapse (delays 0), s.threads.set i t⟩ : Machine σ).history
          (.event (.step i) :: rounds i (fun n => delays (n + 1)) k) := by
  simp only [rounds, history, hm]
  rfl

/-- So many rounds of a thread, and then more after a delay. -/
theorem after_rounds (s : Machine σ) (i : Nat) (delays : Nat → Nat) (k k' : Nat) :
    s.after (.event (.step i) :: rounds i delays (k + (k' + 1)))
      = ((s.after (.event (.step i) :: rounds i delays k)).apply (.elapse (delays k))).after
        (.event (.step i) :: rounds i (fun n => delays (n + 1 + k)) k') := by
  rw [rounds_add, ← List.cons_append, after_append]
  simp only [rounds, after, Nat.zero_add]
  rfl

theorem history_rounds (s : Machine σ) (i : Nat) (delays : Nat → Nat) (k k' : Nat) :
    s.history (.event (.step i) :: rounds i delays (k + (k' + 1)))
      = s.history (.event (.step i) :: rounds i delays k)
        ++ ((s.after (.event (.step i) :: rounds i delays k)).apply (.elapse (delays k))).history
          (.event (.step i) :: rounds i (fun n => delays (n + 1 + k)) k') := by
  rw [rounds_add, ← List.cons_append, history_append]
  simp only [rounds, history, Nat.zero_add]
  rfl

end Machine

/-! ## How deep a thread stays -/

namespace Machine

/-- Before each move more than `n` calls of thread `i` are under way. -/
def Deep (i n : Nat) : Machine σ → List (Move σ) → Prop
  | _, [] => True
  | s, mv :: moves =>
    (∃ t, s.threads[i]? = some t ∧ n < t.stack.length) ∧ Deep i n (s.move mv) moves

variable {s : Machine σ} {i n : Nat}

theorem deep_append {a b : List (Move σ)} :
    s.Deep i n (a ++ b) ↔ s.Deep i n a ∧ (s.after a).Deep i n b := by
  induction a generalizing s with
  | nil => simp [Deep, after]
  | cons mv a ih => simp only [List.cons_append, Deep, ih, and_assoc, after]

theorem Deep.mono {m : Nat} {moves : List (Move σ)} (hd : s.Deep i n moves) (hmn : m ≤ n) :
    s.Deep i m moves := by
  induction moves generalizing s with
  | nil => trivial
  | cons mv moves ih =>
    obtain ⟨⟨t, ht, hlt⟩, hrest⟩ := hd
    exact ⟨⟨t, ht, Nat.lt_of_le_of_lt hmn hlt⟩, ih hrest⟩

/-- What a thread that stays deep does is noted deep. -/
theorem Deep.le_depth {delays : Nat → Nat} {k : Nat}
    (hd : s.Deep i n (.event (.step i) :: rounds i delays k)) {p : Place} {x : Doing}
    (hx : .did p x ∈ s.history (.event (.step i) :: rounds i delays k)) : n ≤ p.depth := by
  have hstep : ∀ {s : Machine σ}, (∃ t, s.threads[i]? = some t ∧ n < t.stack.length) →
      .did p x ∈ s.notes (.event (.step i)) → n ≤ p.depth := by
    rintro s ⟨⟨stack, reply⟩, ht, hlt⟩ hx
    rcases stack with _ | ⟨f, below⟩
    · simp at hlt
    simp only [notes, ht, Option.elim_some, stackNotes] at hx
    split at hx
    · obtain ⟨y, -, hy⟩ := Option.map_eq_some_iff.1 (Option.mem_toList.1 hx)
      cases hy
      exact Nat.le_of_lt_succ hlt
    · simp at hx
    · cases hx
  induction k generalizing s delays with
  | zero =>
    simp only [rounds, history, List.append_nil] at hx
    exact hstep hd.1 hx
  | succ k ih =>
    simp only [rounds, history, List.mem_append] at hx
    rcases hx with hx | hx | hx
    · exact hstep hd.1 hx
    · cases hx
    · exact ih hd.2.2 (List.mem_append.2 hx)

end Machine

/-- What a call comes to, it comes to in a run of its thread alone, and the thread does not end the
calls below before. -/
theorem Frame.Comes.run_deep {Q : Hub σ → List Doing → Reply → Prop} {p : Place}
    {under : Option (Frame σ)} {hub : Hub σ} {done : List Doing} {f : Frame σ}
    (hc : f.Comes Q p under hub done) {s : Machine σ} {i : Nat} {below : List (Frame σ)}
    {reply : Option Reply} (hp : p = ⟨i, below.length⟩) (hunder : under = below.head?)
    (hhub : s.hub = hub) (ht : s.threads[i]? = some ⟨f :: below, reply⟩) (delays : Nat → Nat) :
    ∃ k hub' done' r, Q hub' done' r
      ∧ s.after (.event (.step i) :: rounds i delays k)
        = ⟨hub', s.threads.set i (Machine.ended below reply r)⟩
      ∧ done ++ deeds (s.history (.event (.step i) :: rounds i delays k)) = done'
      ∧ s.Deep i below.length (.event (.step i) :: rounds i delays k) := by
  have hi : i < s.threads.length := (List.getElem?_eq_some_iff.1 ht).1
  have hlength : below.length < (f :: below).length := Nat.lt_succ_self _
  induction hc generalizing s i below reply delays with
  | @goes Q p under hub done f hub' f' hs hrest ih =>
    subst hp hunder hhub
    obtain ⟨hmove, hdeeds⟩ := Machine.move_goes ht hs
    obtain ⟨k, hub'', done', r, hq, hafter, hdone, hdeep⟩ :=
      ih (delays 0) (s := ⟨hub'.elapse (delays 0), s.threads.set i ⟨f' :: below, reply⟩⟩)
        rfl rfl rfl (List.getElem?_set_self hi) (fun n => delays (n + 1)) (by simpa using hi)
        (Nat.lt_succ_self _)
    refine ⟨k + 1, hub'', done', r, hq, ?_, ?_, ⟨_, ht, hlength⟩, ?_⟩
    · rw [Machine.after_step_rounds delays k hmove, hafter, List.set_set]
    · rw [Machine.history_step_rounds delays k hmove, deeds_append, hdeeds, ← List.append_assoc,
        hdone]
    · rw [hmove]
      exact ⟨⟨_, List.getElem?_set_self hi, hlength⟩, hdeep⟩
  | @calls Q R p under hub done f hub' f' inner hs hinner hnext ihinner ihnext =>
    subst hp hunder hhub
    obtain ⟨hmove, hdeeds⟩ := Machine.move_calls ht hs
    obtain ⟨k, hub₁, done₁, r, hr, hafter₁, hdone₁, hdeep₁⟩ :=
      ihinner (delays 0)
        (s := ⟨hub'.elapse (delays 0), s.threads.set i ⟨inner :: f' :: below, reply⟩⟩)
        rfl rfl rfl (List.getElem?_set_self hi) (fun n => delays (n + 1)) (by simpa using hi)
        (Nat.lt_succ_self _)
    have hinto : s.Deep i below.length (.event (.step i) :: rounds i delays (k + 1)) := by
      refine ⟨⟨_, ht, hlength⟩, ?_⟩
      rw [hmove]
      exact ⟨⟨_, List.getElem?_set_self hi, Nat.lt_succ_of_lt hlength⟩,
        hdeep₁.mono (Nat.le_succ _)⟩
    rw [← Machine.after_step_rounds delays k hmove, List.set_set] at hafter₁
    obtain ⟨k', hub₂, done₂, r', hq, hafter₂, hdone₂, hdeep₂⟩ :=
      ihnext hub₁ done₁ r hr (delays (k + 1))
        (s := ⟨hub₁.elapse (delays (k + 1)), s.threads.set i ⟨f'.resume r :: below, reply⟩⟩)
        rfl rfl rfl (List.getElem?_set_self hi) (fun n => delays (n + 1 + (k + 1)))
        (by simpa using hi) (Nat.lt_succ_self _)
    refine ⟨k + 1 + (k' + 1), hub₂, done₂, r', hq, ?_, ?_, ?_⟩
    · rw [Machine.after_rounds, hafter₁]
      exact hafter₂.trans (by rw [List.set_set])
    · rw [Machine.history_rounds, Machine.history_step_rounds delays k hmove, deeds_append,
        deeds_append, hdeeds, List.nil_append, ← List.append_assoc, hdone₁, hafter₁]
      exact hdone₂
    · rw [rounds_add, ← List.cons_append, Machine.deep_append, hafter₁]
      refine ⟨hinto, ⟨_, List.getElem?_set_self hi, Nat.lt_succ_self _⟩, ?_⟩
      simp only [Nat.zero_add]
      exact hdeep₂
  | ends hs hq =>
    subst hp hunder hhub
    obtain ⟨hmove, hdeeds⟩ := Machine.move_ends ht hs
    refine ⟨0, _, _, _, hq, hmove, ?_, ⟨_, ht, hlength⟩, trivial⟩
    simp only [rounds, Machine.history, List.append_nil, hdeeds]

/-- What a call comes to, it comes to in a run of its thread alone. -/
theorem Frame.Comes.run {Q : Hub σ → List Doing → Reply → Prop} {p : Place}
    {under : Option (Frame σ)} {hub : Hub σ} {done : List Doing} {f : Frame σ}
    (hc : f.Comes Q p under hub done) {s : Machine σ} {i : Nat} {below : List (Frame σ)}
    {reply : Option Reply} (hp : p = ⟨i, below.length⟩) (hunder : under = below.head?)
    (hhub : s.hub = hub) (ht : s.threads[i]? = some ⟨f :: below, reply⟩) (delays : Nat → Nat) :
    ∃ k hub' done' r, Q hub' done' r
      ∧ s.after (.event (.step i) :: rounds i delays k)
        = ⟨hub', s.threads.set i (Machine.ended below reply r)⟩
      ∧ done ++ deeds (s.history (.event (.step i) :: rounds i delays k)) = done' := by
  obtain ⟨k, hub', done', r, hq, hafter, hdone, -⟩ := hc.run_deep hp hunder hhub ht delays
  exact ⟨k, hub', done', r, hq, hafter, hdone⟩

end Collate
