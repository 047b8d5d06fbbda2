import Collate.Proofs.Gathering
import Collate.Proofs.Visits

/-!
# Keys do not interfere

A handler alone in its depot is called again and again, one call after the other. Each call takes
one turn on each key (`Machine.attend_turn`), and a message of another key has no part in it. So a
run from which the messages of all other keys are deleted looks the same from that key, if the calls
that are left read the clock as before (`Machine.keys_do_not_interfere`); and it can be carried out
(`Machine.exists_left`).
-/

namespace Collate

variable {σ : Type}

/-! ## A call in a run -/

/-- A handler that is there and alone on the register of an unbounded depot, which is in service and
at rest. -/
structure Hub.Solitary (hub : Hub σ) (h : HandlerId) (handler : Handler σ) : Prop where
  known : hub.handler? h = some handler
  live : hub.isLive h = true
  register : (hub.depot handler.depot).participants = [.handler h]
  opened : handler.depot < hub.depots.length
  service : (hub.depot handler.depot).InService
  unbounded : (hub.depot handler.depot).store.capacity = none
  atRest : (hub.depot handler.depot).shelf.AtRest h
  arrange : ∀ l, (hub.arrange l).Perm l

namespace Hub.Solitary

variable {I : Hub σ → Prop} {start hub : Hub σ} {h : HandlerId} {handler : Handler σ}
  {shelf : Shelf}

theorem midway (hs : hub.Solitary h handler) (hi : I hub) :
    hub.Midway I handler.depot hub (hub.depot handler.depot).shelf :=
  ⟨hi, fun _ => rfl, fun _ => rfl, rfl, hs.service, hs.opened, rfl⟩

theorem of_midway (hs : start.Solitary h handler) (hm : hub.Midway I handler.depot start shelf)
    (hrest : shelf.AtRest h) (harrange : hub.arrange = start.arrange)
    (hcapacity : (hub.depot handler.depot).store.capacity
      = (start.depot handler.depot).store.capacity) : hub.Solitary h handler where
  known := (hm.handlers h).trans hs.known
  live := (hm.isLive h).trans hs.live
  register := hm.participants.trans hs.register
  opened := hm.opened
  service := hm.service
  unbounded := hcapacity.trans hs.unbounded
  atRest := by
    rw [hm.shelf]
    exact hrest
  arrange l := by
    rw [harrange]
    exact hs.arrange l

end Hub.Solitary

namespace Machine

variable {s : Machine σ} {i : Nat} {h : HandlerId} {d : DepotId} {x : Stint}

/-- Once a thread is over its steps do nothing, and only time goes by. -/
theorem IsOver.rounds (hover : s.IsOver i) (delays : Nat → Nat) (k : Nat) :
    (∃ n, s.after (rounds i delays k) = ⟨s.hub.elapse n, s.threads⟩)
      ∧ s.history (rounds i delays k) = [] := by
  obtain ⟨reply, ht⟩ := hover
  induction k generalizing s delays with
  | zero => exact ⟨⟨0, rfl⟩, rfl⟩
  | succ k ih =>
    have hidle : (s.apply (.elapse (delays 0))).apply (.step i)
        = ⟨s.hub.elapse (delays 0), s.threads⟩ := by
      simp [apply, progress, ht, Thread.step]
    obtain ⟨⟨n, hn⟩, hquiet⟩ := ih (s := ⟨s.hub.elapse (delays 0), s.threads⟩)
      (fun n => delays (n + 1)) ht
    refine ⟨⟨delays 0 + n, ?_⟩, ?_⟩
    · simp only [Collate.rounds, after, move, hidle, hn]
      simp [Hub.elapse, Nat.add_assoc]
    · simp only [Collate.rounds, history, move, hidle, hquiet]
      simp [notes, apply, ht, stackNotes]

variable (h d) in
/-- The machine when the first step of a call is due. -/
def begun (s : Machine σ) (x : Stint) : Machine σ :=
  ⟨(s.hub.elapse x.wait).elapse (x.delays 0), s.threads ++ [Thread.start (x.errand.activity h d)]⟩

/-- A call without a step is not over. -/
theorem steps_pos (hover : (s.attend h d x).IsOver s.threads.length) : 0 < x.steps := by
  rcases hsteps : x.steps with _ | n
  · obtain ⟨reply, ht⟩ := hover
    simp [attend, Stint.moves, hsteps, rounds, after, move, apply, Thread.start] at ht
  · exact Nat.succ_pos n

theorem attend_eq {n : Nat} (hn : x.steps = n + 1) :
    s.attend h d x = (s.begun h d x).after (x.working s.threads.length n) := by
  simp only [attend, Stint.moves, hn, rounds]
  rfl

/-- A call that ends at a step of its own, when its thread is alone at work, ends there in a stint
in which it ends at all. -/
theorem attend_of_deep {k : Nat} {hub' : Hub σ} {r : Reply}
    (hafter : (s.begun h d x).after (x.working s.threads.length k)
      = ⟨hub', (s.begun h d x).threads.set s.threads.length ⟨[], some r⟩⟩)
    (hdeep : (s.begun h d x).Deep s.threads.length 0 (x.working s.threads.length k))
    (hover : (s.attend h d x).IsOver s.threads.length) :
    (∃ n, s.attend h d x = ⟨hub'.elapse n, s.threads ++ [⟨[], some r⟩]⟩)
      ∧ s.history (x.moves h d s.threads.length) = .came ⟨s.threads.length, 0⟩
        :: (s.begun h d x).history (x.working s.threads.length k) := by
  have hset : (s.begun h d x).threads.set s.threads.length ⟨[], some r⟩
      = s.threads ++ [⟨[], some r⟩] := by
    simp [begun]
  obtain ⟨n, hsteps⟩ := Nat.exists_eq_add_of_le' (steps_pos hover)
  have hhistory : s.history (x.moves h d s.threads.length) = .came ⟨s.threads.length, 0⟩
      :: (s.begun h d x).history (x.working s.threads.length n) := by
    simp only [Stint.moves, hsteps, rounds]
    rfl
  rw [attend_eq hsteps] at hover ⊢
  rw [hhistory]
  rcases Nat.lt_or_ge n k with hlt | hle
  · -- before its last step the thread has something to do
    obtain ⟨e, rfl⟩ := Nat.exists_eq_add_of_lt hlt
    rw [Nat.add_assoc, Stint.working_add, deep_append] at hdeep
    obtain ⟨reply, ht⟩ := hover
    obtain ⟨⟨t, ht', hpos⟩, -⟩ := hdeep.2
    rw [ht] at ht'
    cases ht'
    cases hpos
  · obtain ⟨e, rfl⟩ := Nat.exists_eq_add_of_le hle
    rw [Stint.working_add, after_append, history_append, hafter, hset]
    have hended : (⟨hub', s.threads ++ [⟨[], some r⟩]⟩ : Machine σ).IsOver s.threads.length :=
      ⟨some r, by simp⟩
    obtain ⟨hn, hquiet⟩ := hended.rounds (fun m => x.delays (m + k + 1)) e
    exact ⟨hn, by rw [hquiet, List.append_nil]⟩

section Solitary

variable {I : Hub σ → Prop} {handler : Handler σ}

variable (hI : ∀ a b : Hub σ, I a → a.Elsewhere handler.depot b → I b)
  (hprocess : ∀ g, (handler.process g).Apart I handler.depot)
  (hdiscard : ∀ c, handler.discard = some c → ∀ m, (c.send m).Apart I handler.depot)
include hI hprocess hdiscard

/-- Alone at work, a call comes to its end, and its turn is made. -/
theorem exists_turned (hs : s.hub.Solitary h handler) (hi : I s.hub) (x : Stint) :
    ∃ k hub' r done, Hub.Turned I s.hub handler h (s.hub.depot handler.depot).shelf x.errand
        (x.reading s.hub.clock) hub' done r
      ∧ (s.begun h handler.depot x).after (x.working s.threads.length k)
        = ⟨hub', (s.begun h handler.depot x).threads.set s.threads.length ⟨[], some r⟩⟩
      ∧ x.errand.doings ((s.begun h handler.depot x).history (x.working s.threads.length k)) = done
      ∧ (s.begun h handler.depot x).Deep s.threads.length 0 (x.working s.threads.length k) := by
  have hapt : Participant.Apt I handler.depot s.hub h handler := ⟨hs.known, rfl, hprocess, hdiscard⟩
  have hm : (s.begun h handler.depot x).hub.Midway I handler.depot s.hub
      (s.hub.depot handler.depot).shelf := ((hs.midway hi).elapse hI _).elapse hI _
  have hstarted : (s.begun h handler.depot x).threads[s.threads.length]?
      = some ⟨[(x.errand.activity h handler.depot).frame], none⟩ := by
    simp [begun, Thread.start]
  obtain ⟨errand, wait, delays, steps⟩ := x
  cases errand with
  | message m =>
    have hcall : (Frame.handling h (.arriving m)).Finishes _ (fun n => delays (n + 1)) _ [] :=
      finishes_message hI hapt hs.live hm hs.atRest hs.unbounded rfl
    obtain ⟨k, hub', done, r, hq, hafter, hdone, hdeep⟩ := hcall.run rfl hstarted
    exact ⟨k, hub', r, done, hq, hafter, hdone, hdeep⟩
  | pass timeout =>
    have hcall := comes_pass_turned hI hapt hs.live hm hs.atRest hs.register hs.arrange
      (p := ⟨s.threads.length, 0⟩) rfl timeout
    obtain ⟨k, hub', done, r, hq, hafter, hdone, hdeep⟩ :=
      hcall.run_deep (by rfl) (by rfl) rfl hstarted fun n => delays (n + 1)
    exact ⟨k, hub', r, done, hq, hafter, hdone, hdeep⟩

/-- A call leaves under each key what its turn makes of what was there. -/
theorem attend_turn (hs : s.hub.Solitary h handler) (hi : I s.hub)
    (hover : (s.attend h handler.depot x).IsOver s.threads.length) :
    (s.attend h handler.depot x).hub.Solitary h handler ∧ I (s.attend h handler.depot x).hub
      ∧ ∀ key, ((s.attend h handler.depot x).view handler.depot key,
          s.outcome h handler.depot key x)
        = (s.view handler.depot key).turn handler h key x.errand (x.reading s.hub.clock) := by
  obtain ⟨k, hub', r, done, ⟨shelf', hm', hrest', hturn⟩, hafter, hdone, hdeep⟩ :=
    exists_turned hI hprocess hdiscard hs hi x
  obtain ⟨⟨n, hattend⟩, hhistory⟩ := attend_of_deep hafter hdeep hover
  have hm := hm'.elapse hI n
  have hnote : x.errand.doings (s.history (x.moves h handler.depot s.threads.length)) = done := by
    rw [hhistory, ← hdone]
    rcases x.errand with m | timeout <;> rfl
  have houtcome : ∀ key, s.outcome h handler.depot key x
      = ⟨r.fate? key, Collate.handed key done⟩ := fun key => by
    simp [outcome, hattend, hnote, reply?]
  obtain ⟨harrange, hcapacity, -⟩ := rounds_keep ((s.apply (.elapse x.wait)).apply
    (.start (x.errand.activity h handler.depot))) s.threads.length x.delays x.steps
  change (s.attend h handler.depot x).hub.arrange = _ at harrange
  change ∀ d, ((s.attend h handler.depot x).hub.depot d).store.capacity = _ at hcapacity
  rw [hattend] at harrange hcapacity ⊢
  refine ⟨hs.of_midway hm hrest' harrange (hcapacity _), hm.rest, fun key => ?_⟩
  rw [houtcome]
  refine Eq.trans ?_ (hturn key)
  rw [← hm'.shelf]
  rfl

/-- What there is to see of a key after calls one after the other is what the turns of the calls
make of what was there. -/
theorem attendAll_turns {l : List Stint} (hs : s.hub.Solitary h handler) (hi : I s.hub)
    (hl : s.Sequential h handler.depot l) (key : Key) :
    (s.attendAll h handler.depot l).view handler.depot key
        = (s.view handler.depot key).after handler h key (s.readings h handler.depot l)
      ∧ s.visits h handler.depot key l
        = (s.view handler.depot key).visits handler h key (s.readings h handler.depot l) := by
  induction l generalizing s with
  | nil => exact ⟨rfl, rfl⟩
  | cons x l ih =>
    obtain ⟨hs', hi', hturn⟩ := attend_turn hI hprocess hdiscard hs hi hl.1
    obtain ⟨hview, hvisits⟩ := ih hs' hi' hl.2
    have hnow := hturn key
    refine ⟨hview.trans ?_, ?_⟩
    · rw [readings, View.after_cons, ← hnow]
    · rw [visits, hvisits, readings, View.visits, ← hnow]

end Solitary

section Prefix

variable (h : HandlerId) (d : DepotId)

theorem readings_take (s : Machine σ) (l : List Stint) (n : Nat) :
    s.readings h d (l.take n) = (s.readings h d l).take n := by
  induction l generalizing s n with
  | nil => simp [readings]
  | cons x l ih =>
    rcases n with _ | n
    · rfl
    · rw [List.take_succ_cons, readings, ih, readings, List.take_succ_cons]

theorem Sequential.take {s : Machine σ} {l : List Stint} (hl : s.Sequential h d l) (n : Nat) :
    s.Sequential h d (l.take n) := by
  induction l generalizing s n with
  | nil =>
    rw [List.take_nil]
    trivial
  | cons x l ih =>
    rcases n with _ | n
    · trivial
    · exact ⟨hl.1, ih hl.2 n⟩

theorem map_errand_readings (s : Machine σ) (l : List Stint) :
    (s.readings h d l).map Prod.fst = l.map Stint.errand := by
  induction l generalizing s with
  | nil => rfl
  | cons x l ih => rw [readings, List.map_cons, ih, List.map_cons]

/-- The readings of the calls that concern a key, up to some call. -/
theorem readings_take_of_filter {s : Machine σ} {all kept : List Stint} {c : Errand → Bool}
    (hkept : s.readings h d kept = (s.readings h d all).filter fun r => c r.1) (n : Nat) :
    s.readings h d (kept.take ((all.take n).countP fun x => c x.errand))
      = (s.readings h d (all.take n)).filter fun r => c r.1 := by
  have hcount : (all.take n).countP (fun x => c x.errand)
      = ((s.readings h d (all.take n)).filter fun r => c r.1).length := by
    have hmap := congrArg (List.countP c) (s.map_errand_readings h d (all.take n))
    rw [List.countP_map, List.countP_map] at hmap
    rw [← List.countP_eq_length_filter]
    exact hmap.symm
  rw [readings_take, hkept, hcount, readings_take]
  conv_lhs => rw [← List.take_append_drop n (s.readings h d all), List.filter_append]
  rw [List.take_left']
  rw [List.take_append_drop]

end Prefix

/-! ## The run that is left -/

section Left

variable {handler : Handler σ} {f f' : Frame σ} {hub' : Hub σ}

theorem not_isOver (ht : s.threads[i]? = some ⟨[f], none⟩) : ¬s.IsOver i := by
  rintro ⟨reply, hover⟩
  rw [ht] at hover
  cases hover

theorem not_isOver_move (ht : s.threads[i]? = some ⟨[f], none⟩)
    (hstep : f.step s.hub = .goes hub' f') : ¬(s.move (.event (.step i))).IsOver i := by
  rw [(move_goes ht hstep).1]
  exact not_isOver (List.getElem?_set_self (List.getElem?_eq_some_iff.1 ht).1)

theorem clock_attend (s : Machine σ) (h : HandlerId) (d : DepotId) (x : Stint) :
    (s.attend h d x).hub.clock = s.hub.clock + x.wait + roundsTime x.delays x.steps :=
  (rounds_keep _ _ _ _).2.2

/-- A message of a key is added in the third step of its call, so the call takes so many. -/
theorem three_le_steps (hs : s.hub.Solitary h handler) {m : Message} (hm : x.errand = .message m)
    {key : Key} (hc : handler.correlation m = .returned (some key))
    (hover : (s.attend h handler.depot x).IsOver s.threads.length) : 3 ≤ x.steps := by
  generalize hstart : s.begun h handler.depot x = start at *
  have hknown : start.hub.handler? h = some handler := by
    rw [← hstart]
    exact hs.known
  have harriving : start.threads[s.threads.length]?
      = some ⟨[.handling h (.arriving m)], none⟩ := by
    simp [← hstart, begun, Thread.start, hm, Errand.activity, Activity.frame]
  have hin : s.threads.length < start.threads.length :=
    (List.getElem?_eq_some_iff.1 harriving).1
  have harrive := Handling.step_arriving hknown hc
  rcases hsteps : x.steps with _ | _ | _ | n
  · exact absurd (steps_pos hover) (by rw [hsteps]; exact Nat.lt_irrefl 0)
  · rw [attend_eq hsteps, hstart] at hover
    exact absurd hover (not_isOver_move harriving harrive)
  · -- nobody holds the key, so the second step takes it
    have hdepot : ((start.hub.refer h).elapse (x.delays 1)).depot handler.depot
        = s.hub.depot handler.depot := by
      rw [← hstart]
      rfl
    obtain ⟨locks, hlocks⟩ : ∃ locks, (((start.hub.refer h).elapse (x.delays 1)).depot
        handler.depot).locks.acquire? key (some h) = some locks :=
      KeyLocks.acquire?_of_free (some h) fun e he =>
        (hs.atRest.entries key e (by rw [← hdepot]; exact he)).1
    have hlock := Handling.step_locking
      (by rw [Hub.handler?_elapse, Hub.handler?_refer]; exact hknown) hlocks m
      (handler.deadline start.hub.clock)
    rw [attend_eq hsteps, hstart, Stint.working,
      after_step_rounds _ _ (move_goes harriving harrive).1] at hover
    exact absurd hover (not_isOver_move (List.getElem?_set_self hin) hlock)
  · exact Nat.le_add_left 3 n

/-- A call that concerns a key has taken its reading of the clock when it is over. -/
theorem reading_le_clock (hs : s.hub.Solitary h handler) {key : Key}
    (hc : x.errand.concerns handler key = true)
    (hover : (s.attend h handler.depot x).IsOver s.threads.length) :
    x.reading s.hub.clock ≤ (s.attend h handler.depot x).hub.clock := by
  rw [clock_attend]
  rcases herrand : x.errand with m | timeout
  · rw [herrand] at hc
    have hthree := three_le_steps hs herrand (by simpa [Errand.concerns] using hc) hover
    obtain ⟨n, hn⟩ := Nat.exists_eq_add_of_le' hthree
    simp [Stint.reading, herrand, hn, roundsTime, Nat.add_assoc]
  · obtain ⟨n, hn⟩ := Nat.exists_eq_add_of_le' (steps_pos hover)
    simp [Stint.reading, herrand, hn, roundsTime, Nat.add_assoc]

theorem clock_le_attend (s : Machine σ) (h : HandlerId) (d : DepotId) (x : Stint) :
    s.hub.clock ≤ (s.attend h d x).hub.clock := by
  rw [clock_attend, Nat.add_assoc]
  exact Nat.le_add_right _ _

variable {I : Hub σ → Prop} (hI : ∀ a b : Hub σ, I a → a.Elsewhere handler.depot b → I b)
  (hprocess : ∀ g, (handler.process g).Apart I handler.depot)
  (hdiscard : ∀ c, handler.discard = some c → ∀ m, (c.send m).Apart I handler.depot)
include hI hprocess hdiscard

/-- A call can be carried out at any instant from now on. -/
theorem exists_stint (hs : s.hub.Solitary h handler) (hi : I s.hub) (e : Errand) {t : Instant}
    (ht : s.hub.clock ≤ t) :
    ∃ x : Stint, x.errand = e ∧ x.reading s.hub.clock = t
      ∧ (s.attend h handler.depot x).IsOver s.threads.length
      ∧ (s.attend h handler.depot x).hub.clock = t := by
  -- how many steps the call takes is known once it has begun
  obtain ⟨k, hub', r, -, -, hafter, -, -⟩ := exists_turned hI hprocess hdiscard hs hi
    ⟨e, t - s.hub.clock, fun _ => 0, 0⟩
  refine ⟨⟨e, t - s.hub.clock, fun _ => 0, k + 1⟩, rfl, ?_, ⟨some r, ?_⟩, ?_⟩
  · rcases e with m | timeout <;> exact Nat.add_sub_of_le ht
  · rw [attend_eq rfl]
    change ((s.begun h handler.depot ⟨e, t - s.hub.clock, fun _ => 0, 0⟩).after
      (Stint.working ⟨e, t - s.hub.clock, fun _ => 0, 0⟩ _ k)).threads[s.threads.length]? = _
    rw [hafter]
    exact List.getElem?_set_self (by simp [begun])
  · rw [clock_attend, roundsTime_zero]
    exact Nat.add_sub_of_le ht

/-- The calls that concern a key can be carried out without the others, from an earlier instant
on. -/
theorem exists_left {s' : Machine σ} {all : List Stint} (hs : s.hub.Solitary h handler)
    (hi : I s.hub) (hs' : s'.hub.Solitary h handler) (hi' : I s'.hub)
    (hclock : s'.hub.clock ≤ s.hub.clock) (hall : s.Sequential h handler.depot all) (key : Key) :
    ∃ kept, s'.Sequential h handler.depot kept ∧ s'.readings h handler.depot kept
      = (s.readings h handler.depot all).filter fun r => r.1.concerns handler key := by
  induction all generalizing s s' with
  | nil => exact ⟨[], trivial, rfl⟩
  | cons x all ih =>
    obtain ⟨hs₁, hi₁, -⟩ := attend_turn hI hprocess hdiscard hs hi hall.1
    rcases hc : x.errand.concerns handler key with _ | _
    · obtain ⟨kept, hkept, hreadings⟩ :=
        ih hs₁ hi₁ hs' hi' (hclock.trans (clock_le_attend ..)) hall.2
      refine ⟨kept, hkept, ?_⟩
      rw [hreadings, readings, List.filter_cons_of_neg (by simp [hc])]
    · obtain ⟨y, herrand, hreading, hover, hnow⟩ := exists_stint hI hprocess hdiscard hs' hi'
        x.errand (hclock.trans (x.le_reading s.hub.clock))
      obtain ⟨hs₂, hi₂, -⟩ := attend_turn hI hprocess hdiscard hs' hi' hover
      obtain ⟨kept, hkept, hreadings⟩ := ih hs₁ hi₁ hs₂ hi₂
        (hnow.trans_le (reading_le_clock hs hc hall.1)) hall.2
      refine ⟨y :: kept, ⟨hover, hkept⟩, ?_⟩
      rw [readings, readings, List.filter_cons, if_pos hc, hreadings, herrand, hreading]

end Left

/-- What is left of a run when the calls that do not concern a key are deleted: the others, one
after the other, and each reads the clock as before. -/
def IsLeft (s : Machine σ) (h : HandlerId) (handler : Handler σ) (key : Key)
    (all kept : List Stint) : Prop :=
  s.Sequential h handler.depot kept ∧ s.readings h handler.depot kept
    = (s.readings h handler.depot all).filter fun r => r.1.concerns handler key

/-- A handler is alone in its depot, the code behind it leaves the depot alone, and it is called
again and again, one call after the other. The messages that are not of some key can be deleted from
such a run, and the calls that are left can read the clock as before. However that is done, the same
comes of each of them for the key: the fate of a message of the key, and the members handed to
completion or to expiry; the calls that are deleted handed over nothing of the key; and the group
and the lock entry of the key are the same at every point. -/
theorem keys_do_not_interfere {handler : Handler σ} (hs : s.hub.Solitary h handler)
    (hapart : s.hub.Apart handler.depot) (key : Key) {all : List Stint}
    (hall : s.Sequential h handler.depot all) :
    (∃ kept, s.IsLeft h handler key all kept)
      ∧ (∀ x ∈ s.visits h handler.depot key all,
          x.errand.concerns handler key = false → x.outcome = .nothing)
      ∧ ∀ kept, s.IsLeft h handler key all kept →
        s.visits h handler.depot key kept
            = ((s.visits h handler.depot key all).filter fun x => x.errand.concerns handler key)
          ∧ ∀ n, (s.attendAll h handler.depot (all.take n)).view handler.depot key
            = (s.attendAll h handler.depot (kept.take ((all.take n).countP
                fun x => x.errand.concerns handler key))).view handler.depot key := by
  obtain ⟨I, hi, hI, hcode⟩ := hapart
  have hmem : .handler h ∈ (s.hub.depot handler.depot).participants := by
    rw [hs.register]
    exact List.mem_singleton_self _
  obtain ⟨hprocess, hdiscard⟩ := hcode h handler hmem hs.known
  have hturns := fun {l : List Stint} (hl : s.Sequential h handler.depot l) =>
    attendAll_turns hI hprocess hdiscard hs hi hl key
  refine ⟨exists_left hI hprocess hdiscard hs hi hs hi le_rfl hall key, fun x hx hc => ?_,
    fun kept ⟨hkept, hleft⟩ => ⟨?_, fun n => ?_⟩⟩
  · rw [(hturns hall).2] at hx
    exact View.outcome_of_not_concerns handler h key hx hc
  · rw [(hturns hkept).2, hleft, View.visits_filter, (hturns hall).2]
  · rw [(hturns (hall.take h _ n)).1, (hturns (hkept.take h _ _)).1,
      readings_take_of_filter h _ (c := fun e => e.concerns handler key) hleft, View.after_filter]

/-- A handler that was just built is alone in its depot. -/
theorem solitary_ready {handler : Handler σ} (outside : σ) (idOf : Nat → MessageId)
    (hd : handler.depot = 0) : (ready outside idOf handler).hub.Solitary 0 handler := by
  constructor
  case atRest =>
    rw [hub_ready outside idOf hd, hd]
    exact ⟨fun _ _ hg => (by cases hg), fun _ hg => (by cases hg), fun _ _ he => (by cases he)⟩
  all_goals rw [hub_ready outside idOf hd]
  case arrange => exact fun l => List.Perm.refl l
  case live => rfl
  case known => rfl
  all_goals rw [hd]
  case opened => exact Nat.one_pos
  all_goals rfl

end Machine

/-! ## Two names in turn -/

/-- A handler with an output, for which two messages of one name make a group. -/
def naming : Handler Unit :=
  { pairing with
    correlation := fun m => .returned (some ⟨m.id.text⟩)
    output := some ⟨fun _ => .done (.ok ())⟩ }

def named : Machine Unit := Machine.ready () (fun _ => ⟨""⟩) naming

/-- A call for a message, with a moment before each of its steps. -/
def ask (name : String) (wait steps : Nat) : Stint :=
  ⟨.message (plain name), wait, fun _ => 1, steps⟩

def expiring : Stint := ⟨.pass 3, 5, fun _ => 1, 30⟩

def twoNames : List Stint := [ask "a" 0 6, ask "b" 0 6, ask "a" 0 8, ask "a" 0 6, expiring]

/-- The second name is deleted, and the next call waits for longer instead. -/
def oneName : List Stint := [ask "a" 0 6, ask "a" 6 8, ask "a" 0 6, expiring]

theorem solitary_named : named.hub.Solitary 0 naming :=
  Machine.solitary_ready () (fun _ => ⟨""⟩) rfl

theorem apart_named : named.hub.Apart naming.depot := by
  have hnaming : ∀ h handler, .handler h ∈ (named.hub.depot naming.depot).participants →
      named.hub.handler? h = some handler → handler = naming := fun h handler hmem hh => by
    rw [solitary_named.register, List.mem_singleton] at hmem
    cases hmem
    exact Option.some.inj (hh.symm.trans solitary_named.known)
  refine Hub.apart_of_local (fun h handler g hmem hh => ?_) fun h handler c m hmem hh hc => ?_
  · obtain rfl := hnaming h handler hmem hh
    exact ⟨.done _, .done _⟩
  · obtain rfl := hnaming h handler hmem hh
    cases hc

theorem left_oneName : named.IsLeft 0 naming ⟨"a"⟩ twoNames oneName := by
  refine ⟨by decide +kernel, ?_⟩
  have hall : (named.readings 0 naming.depot twoNames).map Prod.snd = [3, 9, 15, 23, 32] := by
    decide +kernel
  have hkept : (named.readings 0 naming.depot oneName).map Prod.snd = [3, 15, 23, 32] := by
    decide +kernel
  rw [List.zip_of_prod (named.map_errand_readings 0 naming.depot twoNames) hall,
    List.zip_of_prod (named.map_errand_readings 0 naming.depot oneName) hkept]
  rfl

/-- The first name waits, completes its group, waits again and expires, with the other name between
as without it. -/
theorem twoNames_seen_from_one :
    named.hub.Solitary 0 naming ∧ named.hub.Apart naming.depot
      ∧ named.Sequential 0 naming.depot twoNames ∧ named.IsLeft 0 naming ⟨"a"⟩ twoNames oneName
      ∧ (((named.visits 0 naming.depot ⟨"a"⟩ twoNames).filter
            fun x => x.errand.concerns naming ⟨"a"⟩).map
            fun x => (x.outcome.fate, x.outcome.handed.map (List.map fun m => m.id.text)))
          = [(some (.waits 1), []), (some .completes, [["a", "a"]]), (some (.waits 1), []),
            (none, [["a"]])] := by
  have hall : named.Sequential 0 naming.depot twoNames := by decide +kernel
  refine ⟨solitary_named, apart_named, hall, left_oneName, ?_⟩
  obtain ⟨-, -, hsame⟩ :=
    Machine.keys_do_not_interfere solitary_named apart_named ⟨"a"⟩ hall
  have hvisits := (hsame oneName left_oneName).1
  rw [← hvisits]
  decide +kernel

end Collate
